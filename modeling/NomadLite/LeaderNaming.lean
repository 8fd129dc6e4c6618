import NomadLite.ClientService
import NomadLite.TermMonotone

/-!
# Which leader a node names

`get_leader_id` answers from the role while the node leads and from `leader_id`
otherwise. `become_leader` writes the node's own id into `leader_id` and
`become_candidate` clears it, but `become_follower` leaves it as it is. A leader that
steps down without hearing from a new one therefore goes on naming itself, and
`not_leader_status` finds no address for it among the peers.
-/

namespace NomadLite

def Event.sender : Event → Option ℕ
  | .deliver _ _ (.appendEntries _ req) => some req.leaderId
  | .deliver _ _ (.installSnapshot req) => some req.leaderId
  | _ => none

theorem RaftState.installSnapshot_leaderId (s : RaftState) (snapshot : Snapshot) :
    (s.installSnapshot snapshot).1.leaderId = s.leaderId := by
  rw [installSnapshot]
  split_ifs <;> rfl

namespace RaftNode

/-- The event makes the node a follower and tells it of no leader. -/
def resigns (nd : RaftNode) : Event → Bool
  | .deliver _ _ (.voteRequest req) => nd.state.currentTerm < req.term
  | .deliver _ _ (.voteReply req resp) => req.term < resp.term
  | .deliver _ _ (.appendReply .heartbeat req resp) => req.term < resp.term
  | .deliver _ _ (.appendReply .replication _ resp) => nd.state.currentTerm < resp.term
  | .deliver _ _ (.snapshotReply _ resp) => nd.state.currentTerm < resp.term
  | .deliver _ _ (.timeoutNowReply _ resp) => resp.success
  | _ => false

inductive Naming (nd : RaftNode) (ev : Event) (s : RaftState) : Prop where
  | resigned (h : nd.resigns ev = true) (hrole : s.role = .follower)
      (hleader : s.leaderId = nd.state.leaderId)
  | kept (h : nd.resigns ev = false) (hrole : s.role = nd.state.role)
      (hleader : s.leaderId = nd.state.leaderId)
  | renamed (h : nd.resigns ev = false) (hother : s.leaderId ≠ some nd.id)
  | leads (h : nd.resigns ev = false) (hrole : s.role = .leader)

variable {lib : WireLib} {nd nd' : RaftNode} {ev : Event} {eff : Effect}

theorem naming_handleVoteRequest (nd : RaftNode) (task src : ℕ) (req : VoteRequest) :
    nd.Naming (.deliver task src (.voteRequest req)) (handleRequestVote nd.state req).1 := by
  have hadopt : nd.Naming (.deliver task src (.voteRequest req))
      (nd.state.adoptTerm req.term) := by
    by_cases hterm : nd.state.currentTerm < req.term
    · rw [RaftState.adoptTerm_eq_follower hterm]
      exact .resigned (decide_eq_true hterm) rfl rfl
    · rw [RaftState.adoptTerm_eq_self (not_lt.mp hterm)]
      exact .kept (decide_eq_false hterm) rfl rfl
  rcases handleRequestVote_cases nd.state req with heq | ⟨-, -, -, heq⟩
  · rw [heq]
    exact hadopt
  · rw [heq]
    cases hadopt with
    | resigned h hrole hleader => exact .resigned h hrole hleader
    | kept h hrole hleader => exact .kept h hrole hleader
    | renamed h hother => exact .renamed h hother
    | leads h hrole => exact .leads h hrole

theorem naming_handleAppendEntries (nd : RaftNode) (task src : ℕ) (kind : AppendKind)
    {req : AppendEntriesRequest} (hother : req.leaderId ≠ nd.id) :
    nd.Naming (.deliver task src (.appendEntries kind req))
      (NomadLite.handleAppendEntries lib nd.state req).1 := by
  rcases lt_or_ge req.term nd.state.currentTerm with hlt | hge
  · rw [handleAppendEntries_stale hlt]
    exact .kept rfl rfl rfl
  · obtain ⟨log, commitIndex, heq⟩ := handleAppendEntries_eq_setLog lib hge
    rw [heq]
    exact .renamed rfl fun hself => hother (Option.some.inj hself)

theorem naming_handleInstallSnapshot (nd : RaftNode) (task src : ℕ)
    {req : InstallSnapshotRequest} (hother : req.leaderId ≠ nd.id) :
    nd.Naming (.deliver task src (.installSnapshot req))
      (NomadLite.handleInstallSnapshot lib nd.state req).1 := by
  rcases lt_or_ge req.term nd.state.currentTerm with hlt | hge
  · have hadopt := RaftState.adoptTerm_eq_self hlt.le
    rw [NomadLite.handleInstallSnapshot, hadopt, if_pos hlt]
    exact .kept rfl rfl rfl
  · have hcurrent : ¬ req.term < (nd.state.adoptTerm req.term).currentTerm := by
      rw [RaftState.adoptTerm_currentTerm, max_eq_right hge]
      exact lt_irrefl _
    rw [NomadLite.handleInstallSnapshot, if_neg hcurrent]
    refine .renamed rfl fun hself => hother ?_
    exact Option.some.inj ((RaftState.installSnapshot_leaderId _ _).symm.trans hself)

/-- A call from another node never makes the node name itself; resigning leaves the name. -/
theorem Transition.naming (h : Transition lib nd ev eff) (hother : ev.sender ≠ some nd.id) :
    nd.Naming ev eff.node.state := by
  cases h with
  | voteRequest => exact naming_handleVoteRequest nd ..
  | voteStepDown he hreq hsrc hterm => exact .resigned (decide_eq_true hterm) rfl rfl
  | voteCounted he hreq hsrc hterm =>
    exact .kept (decide_eq_false (not_lt.mpr hterm)) rfl rfl
  | appendEntries =>
    rw [handleAppendEntries_state]
    exact naming_handleAppendEntries nd _ _ _ fun heq => hother (congrArg some heq)
  | heartbeatStepDown hterm => exact .resigned (decide_eq_true hterm) rfl rfl
  | heartbeatIgnored hterm => exact .kept (decide_eq_false (not_lt.mpr hterm)) rfl rfl
  | appendStepDown hterm => exact .resigned (decide_eq_true hterm) rfl rfl
  | appendCommitted hterm hrole hsuccess hs hmay =>
    subst hs
    exact .kept (decide_eq_false (not_lt.mpr hterm)) rfl rfl
  | appendMatched hterm => exact .kept (decide_eq_false (not_lt.mpr hterm)) rfl rfl
  | @appendRejected _ src _ _ hterm =>
    obtain ⟨nextIndex, hdecrement⟩ := nd.state.decrementNext_eq src
    rw [hdecrement]
    exact .kept (decide_eq_false (not_lt.mpr hterm)) rfl rfl
  | appendIgnored hterm => exact .kept (decide_eq_false (not_lt.mpr hterm)) rfl rfl
  | installSnapshot =>
    rw [handleInstallSnapshot_state]
    exact naming_handleInstallSnapshot nd _ _ fun heq => hother (congrArg some heq)
  | snapshotStepDown hterm => exact .resigned (decide_eq_true hterm) rfl rfl
  | snapshotMatched hterm => exact .kept (decide_eq_false (not_lt.mpr hterm)) rfl rfl
  | transferDone htr hsent hsrc hreq hsuccess => exact .resigned hsuccess rfl rfl
  | transferRefused hsuccess => exact .kept (Bool.eq_false_iff.mpr hsuccess) rfl rfl
  | electionTimeout => exact .renamed rfl (Option.some_ne_none nd.id).symm
  | timeoutNowElection => exact .renamed rfl (Option.some_ne_none nd.id).symm
  | electionWon => exact .leads rfl rfl
  | @finishCompaction jobs workers c =>
    obtain ⟨log, logOffset, snapshot, hcompact⟩ :=
      nd.state.compactLog_eq ⟨c.lastApplied, c.lastAppliedTerm, jobs, workers⟩
    rw [hcompact]
    exact .kept rfl rfl rfl
  | timeoutNowRefused | timeoutNowTaken | voteFailed | electionLost | heartbeatTick
  | replicateTick | appendCommand | startTransfer | transferPoll | transferFailed
  | getCommittedEntries | beginCompaction => exact .kept rfl rfl rfl

end RaftNode

/-! ### Redirects -/

/-- The redirect says that the leader is unknown, or it has the address of the leader it names. -/
def Host.Redirects (host : Host) : Option ℕ → Prop
  | none => host.notLeaderStatus none =
      ⟨.failedPrecondition, "Not the leader. Leader unknown, retry later"⟩
  | some id => ∃ p ∈ host.peers, p.nodeId = id ∧
      host.notLeaderStatus (some id) = ⟨.failedPrecondition, "Not the leader. Try " ++ p.addr⟩

theorem Host.redirects_of_configured (host : Host) {leaderId : Option ℕ}
    (h : ∀ id, leaderId = some id → ∃ p ∈ host.peers, p.nodeId = id) :
    host.Redirects leaderId := by
  cases leaderId with
  | none => rfl
  | some id =>
    obtain ⟨p, hp, hid⟩ := h id rfl
    cases hfind : host.peers.find? fun p => p.nodeId = id with
    | none => exact absurd (decide_eq_true hid) (List.find?_eq_none.mp hfind p hp)
    | some q =>
      have hq := List.find?_some hfind
      refine ⟨q, List.mem_of_find?_eq_some hfind, of_decide_eq_true hq, ?_⟩
      rw [notLeaderStatus, hfind]
      rfl

namespace RaftNode

/-- What the node with id `x` says about the leader while it is not one itself: it never names
itself, and its redirect has an address whenever the other nodes it may name are configured. -/
structure NamesAnother (x : ℕ) (nd : RaftNode) : Prop where
  leaderId : nd.state.role ≠ .leader → nd.state.leaderId ≠ some x
  getLeaderId : nd.state.role ≠ .leader → nd.getLeaderId ≠ some x
  redirect : nd.state.role ≠ .leader → ∀ host : Host,
    (∀ id, id ≠ x → nd.getLeaderId = some id → ∃ p ∈ host.peers, p.nodeId = id) →
      host.Redirects nd.getLeaderId

variable {lib : WireLib} {nd nd' : RaftNode} {ev : Event} {x : ℕ}

theorem namesAnother_of_leaderId (h : nd.state.role ≠ .leader → nd.state.leaderId ≠ some x) :
    nd.NamesAnother x := by
  have hget : nd.state.role ≠ .leader → nd.getLeaderId ≠ some x := by
    intro hrole
    rw [RaftNode.getLeaderId, if_neg hrole]
    exact h hrole
  refine ⟨h, hget, fun hrole host hconfig => host.redirects_of_configured fun id hid => ?_⟩
  exact hconfig id (fun heq => hget hrole (heq ▸ hid)) hid

/-- A step keeps the node from naming itself unless it makes a leader resign. -/
theorem namesAnother_next_iff (hid : nd.id = x) (h : nd.NamesAnother x)
    (hother : ev.sender ≠ some x) (hnext : nd.next lib ev = some nd') :
    nd'.id = x ∧ nd'.NamesAnother x ↔ (nd.state.leaderId = some x → nd.resigns ev = false) := by
  obtain ⟨eff, hstep, rfl⟩ := Option.map_eq_some_iff.mp hnext
  have htransition := transition_of_step hstep
  rw [htransition.id_eq, hid]
  subst hid
  constructor
  · rintro ⟨-, hnew⟩ hself
    cases htransition.naming hother with
    | resigned hresigns hrole hleader =>
      have hfollower : eff.node.state.role ≠ .leader := by
        rw [hrole]
        exact RaftRole.noConfusion
      exact absurd (hleader.trans hself) (hnew.leaderId hfollower)
    | kept hkeeps => exact hkeeps
    | renamed hkeeps => exact hkeeps
    | leads hkeeps => exact hkeeps
  · intro hkeeps
    refine ⟨rfl, namesAnother_of_leaderId fun hrole => ?_⟩
    cases htransition.naming hother with
    | resigned hresigns _ hleader =>
      intro hself
      have hstays := hkeeps (hleader.symm.trans hself)
      rw [hresigns] at hstays
      cases hstays
    | kept _ hsame hleader =>
      rw [hleader]
      exact h.leaderId (hsame ▸ hrole)
    | renamed _ hrenamed => exact hrenamed
    | leads _ hleads => exact absurd hleads hrole

/-- Along a run that starts without a known leader and hears of leaders from other nodes only, the
node names another leader throughout exactly when it never resigns while it names itself. -/
theorem names_another_leader_iff (lib : WireLib) {x : ℕ} {nd : RaftNode} (hid : nd.id = x)
    (hnone : nd.state.leaderId = none) {evs : List Event}
    (hother : ∀ ev ∈ evs, ev.sender ≠ some x) :
    Runs.Always (RaftNode.next lib) (fun nd => nd.NamesAnother x) nd evs ↔
      Runs.Along (RaftNode.next lib)
        (fun nd ev => (nd.next lib ev).isSome →
          nd.state.leaderId = some x → nd.resigns ev = false) nd evs := by
  have hstart : nd.NamesAnother x := namesAnother_of_leaderId fun _ => by
    rw [hnone]
    exact (Option.some_ne_none x).symm
  have hiff : Runs.Always (RaftNode.next lib) (fun nd => nd.id = x ∧ nd.NamesAnother x) nd evs ↔
      Runs.Along (RaftNode.next lib) (fun nd ev => (nd.next lib ev).isSome →
        nd.state.leaderId = some x → nd.resigns ev = false) nd evs :=
    Runs.always_iff_along_of_enabled ⟨hid, hstart⟩ fun hmem hnd hnext =>
      namesAnother_next_iff hnd.1 hnd.2 (hother _ hmem) hnext
  refine Iff.trans ⟨fun h => ?_, fun h => h.mono fun nd hnd => hnd.2⟩ hiff
  refine h.invariant ⟨hid, hstart⟩ fun {nd nd' ev} _ hnew hold hnext => ⟨?_, hnew⟩
  obtain ⟨eff, hstep, rfl⟩ := Option.map_eq_some_iff.mp hnext
  exact (transition_of_step hstep).id_eq.trans hold.1

def electedInTermOne : List Event :=
  [.electionTimeout [2], .deliver 0 2 (.voteReply ⟨1, 1, 0, 0⟩ ⟨1, true⟩), .finishElection 0]

def replacedByTwo : List Event :=
  electedInTermOne ++ [.deliver 0 2 (.appendEntries .heartbeat ⟨2, 2, 0, 0, [], 0⟩)]

theorem replaced_leader_names_another :
    Runs.Always (RaftNode.next .standard) (fun nd => nd.NamesAnother 1) (.new 1 [2, 3])
      replacedByTwo := by
  have hother : ∀ ev ∈ replacedByTwo, ev.sender ≠ some 1 := by decide
  refine (names_another_leader_iff .standard (x := 1) rfl rfl hother).mpr ?_
  exact Runs.along_of_guardedRun (by decide +kernel)

def outvotedByTwo : List Event :=
  electedInTermOne ++ [.deliver 0 2 (.voteRequest ⟨2, 2, 0, 0⟩)]

theorem outvoted_leader_names_itself :
    ¬ ∀ (lib : WireLib) (x : ℕ) (nd : RaftNode) (evs : List Event), nd.id = x →
      nd.state.leaderId = none → (∀ ev ∈ evs, ev.sender ≠ some x) →
        Runs.Always (RaftNode.next lib) (fun nd => nd.NamesAnother x) nd evs := by
  intro hall
  have halways := hall .standard 1 (.new 1 [2, 3]) outvotedByTwo rfl rfl (by decide)
  have hrun : ∃ nd : RaftNode, Runs.guardedRun (RaftNode.next .standard) (fun _ _ => True)
      (.new 1 [2, 3]) outvotedByTwo = some nd ∧
        nd.state.role = .follower ∧ nd.state.leaderId = some 1 := ⟨_, rfl, rfl, rfl⟩
  obtain ⟨nd, hnd, hrole, hself⟩ := hrun
  refine (halways.last hnd).leaderId ?_ hself
  rw [hrole]
  exact RaftRole.noConfusion

example : (outvotedByTwo.foldlM (RaftNode.next .standard) (.new 1 [2, 3])).map (fun nd =>
    (Host.notLeaderStatus ⟨[⟨2, "b:50051"⟩, ⟨3, "c:50051"⟩], .new, false, true, []⟩
      nd.getLeaderId).message) = some "Not the leader. Try unknown address" := by decide +kernel

end RaftNode
end NomadLite
