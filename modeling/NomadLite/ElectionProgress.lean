import NomadLite.AlignedRuns
import NomadLite.CommitCount
import Mathlib.Data.Finset.Max
import Mathlib.Data.Prod.Lex

/-!
# A majority can always elect a leader

Whatever has happened before, the members of a majority can elect one of them by talking
only among themselves. The member with the most complete log is brought to rest, which may
need another member with a higher term when it is leader itself. Then it stands, alone at
first, until its term has reached that of every other member, and once more with their votes.
-/

namespace NomadLite

namespace RaftNode

def Idle (nd : RaftNode) : Prop := nd.elections = [] ∧ nd.transfer = none

/-- The raft loop takes up new work when it is idle. The election timer runs on nodes that are not
leader, and an election asks every peer. -/
def Takes (nd : RaftNode) : Event → Prop
  | .electionTimeout order => nd.Idle ∧ nd.state.role ≠ .leader ∧ order.Perm nd.peers
  | .replicateTick | .appendCommand _ => nd.Idle
  | .timeoutNowElection .. | .startTransfer .. | .beginCompaction | .finishCompaction .. => False
  | .deliver .. | .voteFailed _ | .finishElection _ | .heartbeatTick | .transferPoll
  | .transferFailed | .getCommittedEntries => True

def unfinished (nd : RaftNode) : ℕ :=
  (nd.elections.map fun e => e.pending.length + 1).sum + if nd.transfer = none then 0 else 1

/-- The node after some of its elections, or its transfer, have come to an end. Only an election
with enough votes changes its role. -/
structure Settles (nd nd' : RaftNode) : Prop where
  peers : nd'.peers = nd.peers
  term : nd'.state.currentTerm = nd.state.currentTerm
  log : nd'.state.log = nd.state.log
  votes : ∀ e' ∈ nd'.elections, ∃ e ∈ nd.elections, e'.voteCount = e.voteCount
  role : (nd.state.role = .candidate → ∀ e ∈ nd.elections, e.voteCount < nd.majority) →
    nd'.state.role = nd.state.role

variable {lib : WireLib} {nd nd' nd'' : RaftNode}

theorem Takes.noCompaction {ev : Event} (h : nd.Takes ev) : ev.NoCompaction := by
  cases ev with
  | beginCompaction | finishCompaction => exact h
  | deliver | electionTimeout | timeoutNowElection | voteFailed | finishElection | heartbeatTick
  | replicateTick | appendCommand | startTransfer | transferPoll | transferFailed
  | getCommittedEntries => trivial

theorem idle_of_unfinished (h : nd.unfinished = 0) : nd.Idle := by
  rw [unfinished, Nat.add_eq_zero_iff] at h
  constructor
  · cases helections : nd.elections with
    | nil => rfl
    | cons e es =>
      rw [helections, List.map_cons, List.sum_cons] at h
      omega
  · by_contra hne
    rw [if_neg hne] at h
    omega

namespace Settles

theorem refl (nd : RaftNode) : nd.Settles nd :=
  ⟨rfl, rfl, rfl, fun e he => ⟨e, he, rfl⟩, fun _ => rfl⟩

theorem trans (h : nd.Settles nd') (h' : nd'.Settles nd'') : nd.Settles nd'' where
  peers := h'.peers.trans h.peers
  term := h'.term.trans h.term
  log := h'.log.trans h.log
  votes e he := by
    obtain ⟨e', he', hvotes'⟩ := h'.votes e he
    obtain ⟨e'', he'', hvotes⟩ := h.votes e' he'
    exact ⟨e'', he'', hvotes'.trans hvotes⟩
  role hfew := by
    have hrole := h.role hfew
    refine (h'.role fun hcandidate e he => ?_).trans hrole
    obtain ⟨e', he', hvotes⟩ := h.votes e he
    rw [hvotes, majority, h.peers]
    exact hfew (hrole ▸ hcandidate) e' he'

end Settles

/-- A raft loop that waits for something can wait for one thing less: the call to the awaited peer
fails, the election ends, or the transfer is given up. -/
theorem exists_settles (lib : WireLib) (h : 0 < nd.unfinished) :
    ∃ ev eff, (∀ x, ev.packet x = none) ∧ nd.Takes ev ∧ nd.step lib ev = some eff ∧
      nd.Settles eff.node ∧ eff.node.unfinished < nd.unfinished := by
  by_cases htransfer : nd.transfer = none
  · cases helections : nd.elections with
    | nil =>
      rw [unfinished, helections, if_pos htransfer] at h
      cases h
    | cons e es =>
      have hget : nd.elections[0]? = some e := by rw [helections]; rfl
      have hmem : e ∈ nd.elections := helections ▸ List.mem_cons_self ..
      by_cases hpending : e.pending = []
      · obtain ⟨eff, heff⟩ : ∃ eff, nd.step lib (.finishElection 0) = some eff := by
          simp only [step, finishElection, hget, if_pos hpending]
          split_ifs <;> exact ⟨_, rfl⟩
        refine ⟨.finishElection 0, eff, fun _ => rfl, trivial, heff, ?_⟩
        have hrest : ∀ e' ∈ nd.elections.eraseIdx 0, ∃ e ∈ nd.elections,
            e'.voteCount = e.voteCount := fun e' he' => ⟨e', List.mem_of_mem_eraseIdx he', rfl⟩
        have hless : ((nd.elections.eraseIdx 0).map fun e => e.pending.length + 1).sum <
            (nd.elections.map fun e => e.pending.length + 1).sum := by
          rw [helections, List.eraseIdx_cons_zero, List.map_cons, List.sum_cons]
          omega
        cases transition_of_step heff with
        | electionWon he hdone hrole hterm hmaj =>
          obtain rfl := Option.some.inj (hget.symm.trans he)
          exact ⟨⟨rfl, rfl, rfl, hrest, fun hfew => absurd (hfew hrole e hmem) (not_lt.mpr hmaj)⟩,
            Nat.add_lt_add_right hless _⟩
        | electionLost he hdone votes =>
          exact ⟨⟨rfl, rfl, rfl, hrest, fun _ => rfl⟩, Nat.add_lt_add_right hless _⟩
      · refine ⟨.voteFailed 0, ⟨nd.setElection 0 (e.count false), [], []⟩, fun _ => rfl, trivial,
          ?_, ⟨rfl, rfl, rfl, fun e' he' => ?_, fun _ => rfl⟩, Nat.add_lt_add_right ?_ _⟩
        · simp only [step, voteFailed, hget, if_neg hpending]
          rfl
        · change e' ∈ nd.elections.set 0 (e.count false) at he'
          rw [helections, List.set_cons_zero] at he'
          rcases List.mem_cons.mp he' with rfl | hold
          · exact ⟨e, hmem, rfl⟩
          · exact ⟨e', helections ▸ List.mem_cons_of_mem _ hold, rfl⟩
        · change ((nd.elections.set 0 (e.count false)).map fun e => e.pending.length + 1).sum < _
          rw [helections, List.set_cons_zero, List.map_cons, List.map_cons, List.sum_cons,
            List.sum_cons]
          have hlt : e.pending.tail.length < e.pending.length := by
            rw [List.length_tail]
            have := List.length_pos_of_ne_nil hpending
            omega
          change e.pending.tail.length + 1 + _ < _
          omega
  · refine ⟨.transferFailed, ⟨{ nd with transfer := none }, [], []⟩, fun _ => rfl, trivial, ?_,
      ⟨rfl, rfl, rfl, fun e he => ⟨e, he, rfl⟩, fun _ => rfl⟩, ?_⟩
    · simp only [step, transferFailed, if_neg htransfer]
    · rw [unfinished, unfinished, if_pos rfl, if_neg htransfer]
      exact Nat.lt_succ_self _

end RaftNode

/-- A heartbeat of an acceptable term is never refused and leaves the log alone. -/
theorem handleAppendEntries_heartbeat (lib : WireLib) {s : RaftState} (leader : RaftState)
    (leaderId : ℕ) (h : s.currentTerm ≤ leader.currentTerm) :
    handleAppendEntries lib s (leader.heartbeatRequest leaderId) =
      let t := (s.follow leader.currentTerm leaderId).updateCommitIndex leader.commitIndex
      (t, t.appendReply true) := by
  have hcheck : s.checkPrevLog 0 0 = .accept := if_neg (lt_irrefl 0)
  rw [handleAppendEntries_current h]
  simp only [RaftState.heartbeatRequest, hcheck, RaftState.appendNewEntries, if_true]

theorem handleAppendEntries_heartbeat_log (lib : WireLib) {s : RaftState} (leader : RaftState)
    (leaderId : ℕ) (h : s.currentTerm ≤ leader.currentTerm) :
    (handleAppendEntries lib s (leader.heartbeatRequest leaderId)).1.log = s.log := by
  obtain ⟨commitIndex, heq⟩ := (s.follow leader.currentTerm leaderId).updateCommitIndex_eq
    leader.commitIndex
  rw [handleAppendEntries_heartbeat lib leader leaderId h]
  dsimp only
  rw [heq]
  change (s.follow leader.currentTerm leaderId).log = s.log
  exact RaftState.follow_log

theorem handleRequestVote_grants {s : RaftState} {req : VoteRequest}
    (hterm : s.currentTerm < req.term)
    (hlog : s.isLogUpToDate req.lastLogIndex req.lastLogTerm = true) :
    handleRequestVote s req =
      ((s.becomeFollower req.term).castVote req.candidateId, ⟨req.term, true⟩) := by
  have hsame : (s.becomeFollower req.term).isLogUpToDate req.lastLogIndex req.lastLogTerm = true :=
    hlog
  rw [handleRequestVote, RaftState.adoptTerm_eq_follower hterm]
  have hcurrent : ¬ req.term < (s.becomeFollower req.term).currentTerm := lt_irrefl _
  have hfree : ¬ ((s.becomeFollower req.term).votedFor.isSome = true ∧
      (s.becomeFollower req.term).votedFor ≠ some req.candidateId) := fun h =>
    Bool.false_ne_true h.1
  rw [if_neg hcurrent, if_neg hfree, if_neg (not_not.mpr hsame)]
  rfl

structure IsMajority (ids : List ℕ) (quorum : Finset ℕ) : Prop where
  nodup : ids.Nodup
  member : ∀ p ∈ quorum, p ∈ ids
  half_lt : ids.length / 2 < quorum.card

namespace Cluster

/-- The members of `quorum` act, and only on what they have sent to each other. -/
def Among (quorum : Finset ℕ) (cl : Cluster) (a : Action) : Prop :=
  a.node ∈ quorum ∧ (∀ p ∈ a.event.packet a.node, p.src ∈ quorum) ∧
    (cl.nodes a.node).Takes a.event

structure Changes (x : ℕ) (cl cl' : Cluster) : Prop where
  others : ∀ p, p ≠ x → cl'.nodes p = cl.nodes p
  network : cl.network ⊆ cl'.network

structure Rests (x : ℕ) (cl cl' : Cluster) : Prop extends Changes x cl cl' where
  idle : (cl'.nodes x).Idle
  role : (cl'.nodes x).state.role ≠ .leader
  log : (cl'.nodes x).state.log = (cl.nodes x).state.log

def SameLogs (cl cl' : Cluster) : Prop := ∀ p, (cl'.nodes p).state.log = (cl.nodes p).state.log

variable {lib : WireLib} {ids : List ℕ} {quorum : Finset ℕ} {cl cl' cl'' : Cluster} {x y : ℕ}

theorem SameLogs.trans (h : SameLogs cl cl') (h' : SameLogs cl' cl'') : SameLogs cl cl'' :=
  fun p => (h' p).trans (h p)

theorem Changes.sameLogs (h : Changes x cl cl')
    (hlog : (cl'.nodes x).state.log = (cl.nodes x).state.log) : SameLogs cl cl' := by
  intro p
  by_cases hp : p = x
  · rw [hp, hlog]
  · rw [h.others p hp]

theorem Changes.refl (x : ℕ) (cl : Cluster) : Changes x cl cl := ⟨fun _ _ => rfl, fun _ h => h⟩

theorem Changes.trans (h : Changes x cl cl') (h' : Changes x cl' cl'') : Changes x cl cl'' :=
  ⟨fun p hp => (h'.others p hp).trans (h.others p hp), fun _ hm => h'.network (h.network hm)⟩

theorem changes_apply (x : ℕ) (cl : Cluster) (eff : Effect) : Changes x cl (cl.apply x eff) :=
  ⟨fun _ hp => Function.update_of_ne hp .., List.subset_append_left ..⟩

theorem mem_network_apply {eff : Effect} {dst : ℕ} {msg : Message} (h : (dst, msg) ∈ eff.sent) :
    ⟨x, dst, msg⟩ ∈ (cl.apply x eff).network :=
  List.mem_append_right _ (List.mem_map.mpr ⟨(dst, msg), h, rfl⟩)

theorem Rests.trans (h : Rests x cl cl') (h' : Rests x cl' cl'') : Rests x cl cl'' :=
  ⟨h.toChanges.trans h'.toChanges, h'.idle, h'.role, h'.log.trans h.log⟩

theorem Among.noCompaction (cl : Cluster) (a : Action) (h : Among quorum cl a) :
    a.event.NoCompaction := h.2.2.noCompaction

section Members

variable (hq : IsMajority ids quorum)
include hq

theorem reach_apply (ev : Event) {eff : Effect} (hx : x ∈ quorum)
    (hpacket : ∀ p ∈ ev.packet x, p ∈ cl.network ∧ p.src ∈ quorum)
    (htakes : (cl.nodes x).Takes ev) (hstep : (cl.nodes x).step lib ev = some eff) :
    Runs.Reach (step lib ids) (Among quorum) cl (cl.apply x eff) := by
  refine Runs.Reach.init.next (a := ⟨x, ev⟩) ⟨hx, fun p hp => (hpacket p hp).2, htakes⟩ ?_
  have hguard : x ∈ ids ∧ ∀ p ∈ (ev.packet x).toList, p ∈ cl.network :=
    ⟨hq.member x hx, fun p hp => (hpacket p (Option.mem_toList.mp hp)).1⟩
  rw [step, if_pos hguard, hstep]
  rfl

theorem exists_idle (lib : WireLib) (cl : Cluster) (hx : x ∈ quorum) :
    ∃ cl', Runs.Reach (step lib ids) (Among quorum) cl cl' ∧ Changes x cl cl' ∧
      (cl'.nodes x).Idle ∧ (cl.nodes x).Settles (cl'.nodes x) := by
  have hless : ∀ cl₁, Changes x cl cl₁ ∧ (cl.nodes x).Settles (cl₁.nodes x) →
      0 < (cl₁.nodes x).unfinished → ∃ cl₂, Runs.Reach (step lib ids) (Among quorum) cl₁ cl₂ ∧
        (Changes x cl cl₂ ∧ (cl.nodes x).Settles (cl₂.nodes x)) ∧
        (cl₂.nodes x).unfinished < (cl₁.nodes x).unfinished := by
    intro cl₁ hI hpos
    obtain ⟨ev, eff, hpacket, htakes, hstep, hsettles, hless⟩ := RaftNode.exists_settles lib hpos
    refine ⟨cl₁.apply x eff, reach_apply hq ev hx (fun p hp => ?_) htakes hstep,
      ⟨hI.1.trans (changes_apply ..), ?_⟩, ?_⟩
    · rw [hpacket] at hp
      cases hp
    · rw [apply_nodes]
      exact hI.2.trans hsettles
    · rw [apply_nodes]
      exact hless
  obtain ⟨cl', hreach, ⟨hchanges, hsettles⟩, hzero⟩ :=
    Runs.exists_reach_of_measure _ hless ⟨.refl x cl, .refl _⟩
  exact ⟨cl', hreach, hchanges, RaftNode.idle_of_unfinished hzero, hsettles⟩

/-- A node that stands without a single answer has a higher term afterwards, and nothing else. -/
theorem exists_failed_election (htwo : 2 ≤ ids.length) (hplain : cl.Plain lib ids)
    (hx : x ∈ quorum) (hidle : (cl.nodes x).Idle) (hrole : (cl.nodes x).state.role ≠ .leader) :
    ∃ cl', Runs.Reach (step lib ids) (Among quorum) cl cl' ∧ Rests x cl cl' ∧
      (cl'.nodes x).state.currentTerm = (cl.nodes x).state.currentTerm + 1 := by
  have hpeers := (hplain.linked.node x (hq.member x hx)).peers_eq
  have hnodup : (cl.nodes x).peers.Nodup := hpeers ▸ hq.nodup.filter _
  have hmajority : 1 < (cl.nodes x).majority := by
    have hlen := length_peersOf hq.nodup (hq.member x hx)
    rw [RaftNode.majority, hpeers]
    omega
  have hstand : (cl.nodes x).step lib (.electionTimeout (cl.nodes x).peers) =
      some ⟨(cl.nodes x).standing (cl.nodes x).peers none,
        (cl.nodes x).voteRequests (cl.nodes x).peers, []⟩ :=
    if_pos ⟨hnodup, fun _ hp => hp⟩
  have hreach := reach_apply hq (.electionTimeout _) hx (fun p hp => by cases hp)
    ⟨hidle, hrole, .refl _⟩ hstand
  obtain ⟨cl', hreach', hchanges, hidle', hsettles⟩ := exists_idle hq lib
    (cl.apply x ⟨(cl.nodes x).standing (cl.nodes x).peers none,
      (cl.nodes x).voteRequests (cl.nodes x).peers, []⟩) hx
  rw [apply_nodes] at hsettles
  have hcandidate : (cl'.nodes x).state.role = .candidate := by
    refine hsettles.role fun _ e he => ?_
    change e ∈ (cl.nodes x).elections ++ [_] at he
    rw [hidle.1, List.nil_append, List.mem_singleton] at he
    subst he
    exact hmajority
  refine ⟨cl', hreach.trans hreach', ⟨(changes_apply ..).trans hchanges, hidle', ?_, hsettles.log⟩,
    hsettles.term⟩
  rw [hcandidate]
  exact RaftRole.noConfusion

theorem exists_higher_term (htwo : 2 ≤ ids.length) (hplain : cl.Plain lib ids) (hx : x ∈ quorum)
    (hidle : (cl.nodes x).Idle) (hrole : (cl.nodes x).state.role ≠ .leader) (T : ℕ) :
    ∃ cl', Runs.Reach (step lib ids) (Among quorum) cl cl' ∧ Rests x cl cl' ∧
      T ≤ (cl'.nodes x).state.currentTerm := by
  have hless : ∀ cl₁, cl₁.Plain lib ids ∧ Rests x cl cl₁ →
      0 < T - (cl₁.nodes x).state.currentTerm →
      ∃ cl₂, Runs.Reach (step lib ids) (Among quorum) cl₁ cl₂ ∧
        (cl₂.Plain lib ids ∧ Rests x cl cl₂) ∧
        T - (cl₂.nodes x).state.currentTerm < T - (cl₁.nodes x).state.currentTerm := by
    rintro cl₁ ⟨hplain₁, hrests⟩ hpos
    obtain ⟨cl₂, hreach, hrests₂, hterm⟩ :=
      exists_failed_election hq htwo hplain₁ hx hrests.idle hrests.role
    refine ⟨cl₂, hreach, ⟨hplain₁.reach Among.noCompaction hreach, hrests.trans hrests₂⟩, ?_⟩
    omega
  obtain ⟨cl', hreach, ⟨-, hrests⟩, hzero⟩ :=
    Runs.exists_reach_of_measure _ hless ⟨hplain, .refl x cl, hidle, hrole, rfl⟩
  exact ⟨cl', hreach, hrests, by omega⟩

/-! ### Stepping down -/

/-- A task that leaves its node as it is has only sent its messages. -/
theorem exists_sent (ev : Event) {sent : List (ℕ × Message)} (hx : x ∈ quorum)
    (hpacket : ev.packet x = none) (htakes : (cl.nodes x).Takes ev)
    (hstep : (cl.nodes x).step lib ev = some ⟨cl.nodes x, sent, []⟩) :
    ∃ cl', Runs.Reach (step lib ids) (Among quorum) cl cl' ∧ cl'.nodes = cl.nodes ∧
      cl.network ⊆ cl'.network ∧ ∀ dst msg, (dst, msg) ∈ sent → ⟨x, dst, msg⟩ ∈ cl'.network := by
  refine ⟨_, reach_apply hq ev hx (fun p hp => ?_) htakes hstep, Function.update_eq_self ..,
    (changes_apply ..).network, fun dst msg hm => mem_network_apply hm⟩
  rw [hpacket] at hp
  cases hp

theorem exists_heard {kind : AppendKind} {req : AppendEntriesRequest} (hx : x ∈ quorum)
    (hy : y ∈ quorum) (hpacket : ⟨x, y, .appendEntries kind req⟩ ∈ cl.network) :
    ∃ cl', Runs.Reach (step lib ids) (Among quorum) cl cl' ∧ Changes y cl cl' ∧
      cl'.nodes y = ((cl.nodes y).handleAppendEntries lib x kind req).node ∧
      ⟨y, x, .appendReply kind req (handleAppendEntries lib (cl.nodes y).state req).2⟩ ∈
        cl'.network := by
  refine ⟨cl.apply y ((cl.nodes y).handleAppendEntries lib x kind req), ?_, changes_apply ..,
    apply_nodes .., mem_network_apply (List.mem_singleton_self _)⟩
  refine reach_apply hq (.deliver 0 x (.appendEntries kind req)) hy (fun p hp => ?_) trivial rfl
  obtain rfl := Option.some.inj hp
  exact ⟨hpacket, hx⟩

theorem exists_asked (lib : WireLib) {req : VoteRequest} (hx : x ∈ quorum) (hy : y ∈ quorum)
    (hpacket : ⟨x, y, .voteRequest req⟩ ∈ cl.network) :
    ∃ cl', Runs.Reach (step lib ids) (Among quorum) cl cl' ∧ Changes y cl cl' ∧
      cl'.nodes y = (cl.nodes y).withState (handleRequestVote (cl.nodes y).state req).1 ∧
      ⟨y, x, .voteReply req (handleRequestVote (cl.nodes y).state req).2⟩ ∈ cl'.network := by
  refine ⟨cl.apply y ((cl.nodes y).handleVoteRequest x req), ?_, changes_apply .., apply_nodes ..,
    mem_network_apply (List.mem_singleton_self _)⟩
  refine reach_apply hq (.deliver 0 x (.voteRequest req)) hy (fun p hp => ?_) trivial rfl
  obtain rfl := Option.some.inj hp
  exact ⟨hpacket, hx⟩

theorem exists_heartbeat (hplain : cl.Plain lib ids) (hx : x ∈ quorum) (hy : y ∈ quorum)
    (hne : y ≠ x) (hleader : (cl.nodes x).state.role = .leader) :
    ∃ cl', Runs.Reach (step lib ids) (Among quorum) cl cl' ∧ Changes y cl cl' ∧
      cl'.nodes y = ((cl.nodes y).handleAppendEntries lib x .heartbeat
        ((cl.nodes x).state.heartbeatRequest x)).node ∧
      ⟨y, x, .appendReply .heartbeat ((cl.nodes x).state.heartbeatRequest x)
        (handleAppendEntries lib (cl.nodes y).state
          ((cl.nodes x).state.heartbeatRequest x)).2⟩ ∈ cl'.network := by
  obtain ⟨hid, hpeers, -, -⟩ := hplain.linked.node x (hq.member x hx)
  have htick : (cl.nodes x).step lib .heartbeatTick = some ⟨cl.nodes x, (cl.nodes x).peers.map
      fun p => (p, .appendEntries .heartbeat ((cl.nodes x).state.heartbeatRequest x)), []⟩ := by
    simp only [RaftNode.step, RaftNode.heartbeatTick, if_pos hleader, hid]
  obtain ⟨cl₁, hreach₁, hnodes, hnetwork, hsent⟩ :=
    exists_sent hq .heartbeatTick hx rfl trivial htick
  have hmem : y ∈ (cl.nodes x).peers := hpeers ▸ mem_peersOf.mpr ⟨hq.member y hy, hne⟩
  obtain ⟨cl₂, hreach₂, hchanges, hnode, hreply⟩ := exists_heard hq hx hy
    (hsent y _ (List.mem_map.mpr ⟨y, hmem, rfl⟩))
  rw [hnodes] at hnode hreply
  exact ⟨cl₂, hreach₁.trans hreach₂, ⟨fun p hp => (hchanges.others p hp).trans (by rw [hnodes]),
    fun _ hm => hchanges.network (hnetwork hm)⟩, hnode, hreply⟩

/-- A leader learns of a higher term from any other member. -/
theorem exists_step_down (hplain : cl.Plain lib ids) (hx : x ∈ quorum) (hy : y ∈ quorum)
    (hne : y ≠ x) (hidle : (cl.nodes x).Idle) (hleader : (cl.nodes x).state.role = .leader)
    (hterm : (cl.nodes x).state.currentTerm < (cl.nodes y).state.currentTerm) :
    ∃ cl', Runs.Reach (step lib ids) (Among quorum) cl cl' ∧ Rests x cl cl' := by
  obtain ⟨cl₁, hreach₁, hchanges, hnode, hreply⟩ :=
    exists_heartbeat hq hplain hx hy hne hleader
  have hstale : handleAppendEntries lib (cl.nodes y).state
      ((cl.nodes x).state.heartbeatRequest x) =
        ((cl.nodes y).state, (cl.nodes y).state.appendReply false) :=
    handleAppendEntries_stale hterm
  have hsame : cl₁.nodes y = cl.nodes y := by
    rw [hnode]
    simp only [RaftNode.handleAppendEntries, hstale, RaftState.appendReply, Bool.false_eq_true,
      false_and, if_false]
    rfl
  have hx₁ : cl₁.nodes x = cl.nodes x := hchanges.others x hne.symm
  rw [hstale] at hreply
  have hstep : (cl₁.nodes x).step lib (.deliver 0 y (.appendReply .heartbeat
      ((cl.nodes x).state.heartbeatRequest x) ((cl.nodes y).state.appendReply false))) =
      some ⟨(cl.nodes x).withState
        ((cl.nodes x).state.becomeFollower (cl.nodes y).state.currentTerm), [], []⟩ := by
    rw [hx₁]
    exact congrArg (fun nd => some (⟨nd, [], []⟩ : Effect)) (if_pos hterm)
  have hreach₂ := reach_apply hq (.deliver 0 y (.appendReply .heartbeat _ _)) hx (fun p hp => by
    obtain rfl := Option.some.inj hp
    exact ⟨hreply, hy⟩) trivial hstep
  refine ⟨_, hreach₁.trans hreach₂, ⟨⟨fun p hp => ?_, fun _ hm => ?_⟩, ?_, ?_, ?_⟩⟩
  · rw [(changes_apply ..).others p hp]
    by_cases hpy : p = y
    · rw [hpy, hsame]
    · exact hchanges.others p hpy
  · exact (changes_apply ..).network (hchanges.network hm)
  · rw [apply_nodes]
    exact hidle
  · rw [apply_nodes]
    exact RaftRole.noConfusion
  · rw [apply_nodes]
    rfl

theorem exists_other (htwo : 2 ≤ ids.length) (x : ℕ) : ∃ y ∈ quorum, y ≠ x := by
  have hcard := hq.half_lt
  exact Finset.exists_mem_ne (by omega) x

theorem exists_ahead (htwo : 2 ≤ ids.length) (hplain : cl.Plain lib ids) (hx : x ∈ quorum)
    (hy : y ∈ quorum) (hne : y ≠ x) (hleader : (cl.nodes x).state.role = .leader) :
    ∃ cl', Runs.Reach (step lib ids) (Among quorum) cl cl' ∧ SameLogs cl cl' ∧
      cl'.nodes x = cl.nodes x ∧
      (cl'.nodes x).state.currentTerm < (cl'.nodes y).state.currentTerm := by
  rcases lt_or_ge (cl.nodes x).state.currentTerm (cl.nodes y).state.currentTerm with hlt | hge
  · exact ⟨cl, .init, fun _ => rfl, rfl, hlt⟩
  -- a heartbeat makes it a follower of the leader's term, and then it stands
  obtain ⟨cl₁, hreach₁, hchanges₁, hnode, -⟩ := exists_heartbeat hq hplain hx hy hne hleader
  have hstate : (cl₁.nodes y).state = (handleAppendEntries lib (cl.nodes y).state
      ((cl.nodes x).state.heartbeatRequest x)).1 := by
    rw [hnode, RaftNode.handleAppendEntries_state]
  obtain ⟨hterm₁, hrole₁, -⟩ := handleAppendEntries_follower lib (s := (cl.nodes y).state)
    (show _ ≤ ((cl.nodes x).state.heartbeatRequest x).term from hge)
  have hlog₁ : (cl₁.nodes y).state.log = (cl.nodes y).state.log := by
    rw [hstate, handleAppendEntries_heartbeat_log lib _ x hge]
  have hplain₁ := hplain.reach Among.noCompaction hreach₁
  obtain ⟨cl₂, hreach₂, hchanges₂, hidle₂, hsettles⟩ := exists_idle hq lib cl₁ hy
  have hfollower : (cl₂.nodes y).state.role = .follower := by
    rw [hsettles.role fun hcandidate => ?_, hstate, hrole₁]
    rw [hstate, hrole₁] at hcandidate
    cases hcandidate
  have hrole₂ : (cl₂.nodes y).state.role ≠ .leader := by
    rw [hfollower]
    exact RaftRole.noConfusion
  obtain ⟨cl₃, hreach₃, hrests, hterm₃⟩ := exists_failed_election hq htwo
    (hplain₁.reach Among.noCompaction hreach₂) hy hidle₂ hrole₂
  have hchanges : Changes y cl cl₃ := (hchanges₁.trans hchanges₂).trans hrests.toChanges
  have hx₃ := hchanges.others x hne.symm
  refine ⟨cl₃, (hreach₁.trans hreach₂).trans hreach₃,
    hchanges.sameLogs (hrests.log.trans (hsettles.log.trans hlog₁)), hx₃, ?_⟩
  rw [hx₃, hterm₃, hsettles.term, hstate, hterm₁]
  exact Nat.lt_succ_self _

theorem exists_rest (htwo : 2 ≤ ids.length) (hplain : cl.Plain lib ids) (hx : x ∈ quorum) :
    ∃ cl', Runs.Reach (step lib ids) (Among quorum) cl cl' ∧ SameLogs cl cl' ∧
      (cl'.nodes x).Idle ∧ (cl'.nodes x).state.role ≠ .leader := by
  obtain ⟨cl₁, hreach₁, hchanges₁, hidle₁, hsettles⟩ := exists_idle hq lib cl hx
  have hlogs₁ := hchanges₁.sameLogs hsettles.log
  by_cases hleader : (cl₁.nodes x).state.role = .leader
  · obtain ⟨y, hy, hne⟩ := exists_other hq htwo x
    have hplain₁ := hplain.reach Among.noCompaction hreach₁
    obtain ⟨cl₂, hreach₂, hlogs₂, hx₂, hterm⟩ := exists_ahead hq htwo hplain₁ hx hy hne hleader
    have hplain₂ := hplain₁.reach Among.noCompaction hreach₂
    obtain ⟨cl₃, hreach₃, hrests⟩ := exists_step_down hq hplain₂ hx hy hne (by rwa [hx₂])
      (by rwa [hx₂]) hterm
    exact ⟨cl₃, (hreach₁.trans hreach₂).trans hreach₃,
      (hlogs₁.trans hlogs₂).trans (hrests.sameLogs hrests.log), hrests.idle, hrests.role⟩
  · exact ⟨cl₁, hreach₁, hlogs₁, hidle₁, hleader⟩

end Members

/-! ### Winning -/

theorem Plain.lastLog_eq (h : cl.Plain lib ids) (h' : cl'.Plain lib ids) (hlogs : SameLogs cl cl')
    {p : ℕ} (hp : p ∈ ids) :
    (cl'.nodes p).state.lastLogIndex = (cl.nodes p).state.lastLogIndex ∧
      (cl'.nodes p).state.lastLogTerm = (cl.nodes p).state.lastLogTerm := by
  obtain ⟨hoff, hsnap⟩ := h.uncompacted.node p hp
  obtain ⟨hoff', hsnap'⟩ := h'.uncompacted.node p hp
  constructor
  · rw [RaftState.lastLogIndex, RaftState.lastLogIndex, hlogs p, hoff, hoff']
  · rw [RaftState.lastLogTerm, RaftState.lastLogTerm, hlogs p, hsnap, hsnap']

/-- Node `x` has stood with the request `req` and has still to hear from the peers in `pending`,
of whom the members of the quorum have not voted in this term. -/
structure Standing (ids : List ℕ) (quorum : Finset ℕ) (x : ℕ) (req : VoteRequest) (cl : Cluster)
    (pending : List ℕ) (votes : ℕ) (cl' : Cluster) : Prop where
  role : (cl'.nodes x).state.role = .candidate
  term : (cl'.nodes x).state.currentTerm = req.term
  elections : (cl'.nodes x).elections = [⟨req, pending, votes, none⟩]
  transfer : (cl'.nodes x).transfer = none
  logs : SameLogs cl cl'
  nodup : pending.Nodup
  peers : ∀ p ∈ pending, p ≠ x
  asked : ∀ p ∈ pending, ⟨x, p, .voteRequest req⟩ ∈ cl'.network
  terms : ∀ p ∈ quorum, (cl'.nodes p).state.currentTerm ≤ req.term
  fresh : ∀ p ∈ pending, p ∈ quorum → (cl'.nodes p).state.currentTerm < req.term
  count : votes + pending.countP (· ∈ quorum) = 1 + (peersOf ids x).countP (· ∈ quorum)

section Winning

variable {req : VoteRequest} {pending : List ℕ} {votes votes' p : ℕ}

theorem Standing.next (h : Standing ids quorum x req cl (p :: pending) votes cl')
    (hstate : (cl''.nodes x).state = (cl'.nodes x).state)
    (helections : (cl''.nodes x).elections = [⟨req, pending, votes', none⟩])
    (htransfer : (cl''.nodes x).transfer = (cl'.nodes x).transfer)
    (hnetwork : cl'.network ⊆ cl''.network)
    (hothers : ∀ q, q ≠ x → q ≠ p → cl''.nodes q = cl'.nodes q)
    (hlog : (cl''.nodes p).state.log = (cl'.nodes p).state.log)
    (hterm : p ∈ quorum → (cl''.nodes p).state.currentTerm ≤ req.term)
    (hvotes : votes' = if p ∈ quorum then votes + 1 else votes) :
    Standing ids quorum x req cl pending votes' cl'' where
  role := hstate ▸ h.role
  term := hstate ▸ h.term
  elections := helections
  transfer := htransfer.trans h.transfer
  logs q := by
    rw [← h.logs q]
    by_cases hqx : q = x
    · rw [hqx, hstate]
    · by_cases hqp : q = p
      · rw [hqp, hlog]
      · rw [hothers q hqx hqp]
  nodup := h.nodup.of_cons
  peers q hmem := h.peers q (List.mem_cons_of_mem _ hmem)
  asked q hmem := hnetwork (h.asked q (List.mem_cons_of_mem _ hmem))
  terms q hmem := by
    by_cases hqx : q = x
    · rw [hqx, hstate]
      exact h.terms x (hqx ▸ hmem)
    · by_cases hqp : q = p
      · rw [hqp]
        exact hterm (hqp ▸ hmem)
      · rw [hothers q hqx hqp]
        exact h.terms q hmem
  fresh q hmem hquorum := by
    have hqp : q ≠ p := fun heq => (List.nodup_cons.mp h.nodup).1 (heq ▸ hmem)
    have hqx := h.peers q (List.mem_cons_of_mem _ hmem)
    rw [hothers q hqx hqp]
    exact h.fresh q (List.mem_cons_of_mem _ hmem) hquorum
  count := by
    have hcount := h.count
    by_cases hp : p ∈ quorum
    · simp only [List.countP_cons, decide_eq_true_eq, if_pos hp] at hcount
      rw [hvotes, if_pos hp]
      omega
    · simp only [List.countP_cons, decide_eq_true_eq, if_neg hp] at hcount
      rw [hvotes, if_neg hp]
      exact hcount

variable (hq : IsMajority ids quorum) (hx : x ∈ quorum)
include hq hx

theorem Standing.skip (h : Standing ids quorum x req cl (p :: pending) votes cl')
    (hp : p ∉ quorum) : ∃ cl'', Runs.Reach (step lib ids) (Among quorum) cl' cl'' ∧
      Standing ids quorum x req cl pending votes cl'' := by
  have hstep : (cl'.nodes x).step lib (.voteFailed 0) =
      some ⟨(cl'.nodes x).setElection 0 ⟨req, pending, votes, none⟩, [], []⟩ := by
    simp only [RaftNode.step, RaftNode.voteFailed, h.elections, List.getElem?_cons_zero,
      reduceCtorEq, if_false, List.tail_cons]
  have hne := h.peers p (List.mem_cons_self ..)
  refine ⟨_, reach_apply hq (.voteFailed 0) hx (fun q hq => by cases hq) trivial hstep, ?_⟩
  refine h.next ?_ ?_ ?_ (changes_apply ..).network (fun q hqx _ => (changes_apply ..).others q hqx)
    ?_ (fun hmem => absurd hmem hp) (if_neg hp).symm
  · rw [apply_nodes]
    rfl
  · rw [apply_nodes]
    change (cl'.nodes x).elections.set 0 _ = _
    rw [h.elections]
    rfl
  · rw [apply_nodes]
    rfl
  · rw [(changes_apply ..).others p hne]

/-- A member of the quorum grants its vote and the reply is counted. -/
theorem Standing.vote (h : Standing ids quorum x req cl (p :: pending) votes cl')
    (hp : p ∈ quorum) (hlog : (cl'.nodes p).state.isLogUpToDate req.lastLogIndex req.lastLogTerm =
      true) : ∃ cl'', Runs.Reach (step lib ids) (Among quorum) cl' cl'' ∧
      Standing ids quorum x req cl pending (votes + 1) cl'' := by
  have hmem : p ∈ p :: pending := List.mem_cons_self ..
  have hne := h.peers p hmem
  have hgrant := handleRequestVote_grants (h.fresh p hmem hp) hlog
  obtain ⟨cl₁, hreach₁, hchanges, hnode, hreply⟩ :=
    exists_asked hq lib hx hp (h.asked p hmem)
  have hx₁ : cl₁.nodes x = cl'.nodes x := hchanges.others x hne.symm
  rw [hgrant] at hnode hreply
  have hstep : (cl₁.nodes x).step lib (.deliver 0 p (.voteReply req ⟨req.term, true⟩)) =
      some ⟨(cl'.nodes x).setElection 0 ⟨req, pending, votes + 1, none⟩, [], []⟩ := by
    simp only [hx₁, RaftNode.step, RaftNode.deliver, RaftNode.handleVoteReply, h.elections,
      List.getElem?_cons_zero, List.head?_cons, and_self, if_true, lt_self_iff_false, if_false,
      List.tail_cons]
  have hreach₂ := reach_apply hq (.deliver 0 p (.voteReply req ⟨req.term, true⟩)) hx
    (fun q hmem' => by
      obtain rfl := Option.some.inj hmem'
      exact ⟨hreply, hp⟩) trivial hstep
  refine ⟨_, hreach₁.trans hreach₂, h.next ?_ ?_ ?_ (fun _ hm => ?_) (fun q hqx hqp => ?_) ?_
    (fun _ => ?_) (if_pos hp).symm⟩
  · rw [apply_nodes]
    rfl
  · rw [apply_nodes]
    change (cl'.nodes x).elections.set 0 _ = _
    rw [h.elections]
    rfl
  · rw [apply_nodes]
    rfl
  · exact (changes_apply ..).network (hchanges.network hm)
  · rw [(changes_apply ..).others q hqx, hchanges.others q hqp]
  · rw [(changes_apply ..).others p hne, hnode]
    rfl
  · rw [(changes_apply ..).others p hne, hnode]
    exact le_rfl

/-- The election comes to its end with the votes of the whole quorum. -/
theorem Standing.complete (hplain : cl.Plain lib ids) (hplain' : cl'.Plain lib ids)
    (hlog : ∀ p ∈ quorum,
      (cl.nodes p).state.isLogUpToDate req.lastLogIndex req.lastLogTerm = true)
    (h : Standing ids quorum x req cl pending votes cl') :
    ∃ votes' cl'', Runs.Reach (step lib ids) (Among quorum) cl' cl'' ∧
      Standing ids quorum x req cl [] votes' cl'' := by
  induction pending generalizing votes cl' with
  | nil => exact ⟨votes, cl', .init, h⟩
  | cons p pending ih =>
    obtain ⟨votes₁, cl₁, hreach₁, h₁⟩ : ∃ votes₁ cl₁,
        Runs.Reach (step lib ids) (Among quorum) cl' cl₁ ∧
        Standing ids quorum x req cl pending votes₁ cl₁ := by
      by_cases hp : p ∈ quorum
      · obtain ⟨hindex, hterm⟩ := hplain.lastLog_eq hplain' h.logs (hq.member p hp)
        have huptodate := hlog p hp
        rw [RaftState.isLogUpToDate, ← hindex, ← hterm] at huptodate
        exact ⟨_, h.vote hq hx hp huptodate⟩
      · exact ⟨_, h.skip hq hx hp⟩
    obtain ⟨votes₂, cl₂, hreach₂, h₂⟩ := ih (hplain'.reach Among.noCompaction hreach₁) h₁
    exact ⟨votes₂, cl₂, hreach₁.trans hreach₂, h₂⟩

theorem countP_peersOf : 1 + (peersOf ids x).countP (· ∈ quorum) = quorum.card := by
  have hnodup : ((peersOf ids x).filter (· ∈ quorum)).Nodup := (hq.nodup.filter _).filter _
  have herase : ((peersOf ids x).filter (· ∈ quorum)).toFinset = quorum.erase x := by
    ext p
    rw [List.mem_toFinset, List.mem_filter, mem_peersOf, Finset.mem_erase, decide_eq_true_eq]
    exact ⟨fun h => ⟨h.1.2, h.2⟩, fun h => ⟨⟨hq.member p h.2, h.1⟩, h.2⟩⟩
  rw [List.countP_eq_length_filter, ← List.toFinset_card_of_nodup hnodup, herase,
    Finset.card_erase_of_mem hx]
  have hpos := Finset.card_pos.mpr ⟨x, hx⟩
  omega

end Winning

/-- Node `x` leads, at rest, in a term that no member has passed, with the logs as they were. It
takes its peers to be up to date and knows nothing of what they hold. -/
structure Elected (ids : List ℕ) (quorum : Finset ℕ) (x : ℕ) (cl cl' : Cluster) : Prop where
  leader : (cl'.nodes x).state.role = .leader
  idle : (cl'.nodes x).Idle
  logs : SameLogs cl cl'
  terms : ∀ p ∈ quorum, (cl'.nodes p).state.currentTerm ≤ (cl'.nodes x).state.currentTerm
  next : ∀ p ∈ peersOf ids x, (cl'.nodes x).state.nextIndex.lookup p =
    some ((cl'.nodes x).state.lastLogIndex + 1)
  matched : ∀ p, (cl'.nodes x).state.matchIndex.lookup p =
    if p ∈ peersOf ids x then some 0 else none

theorem Standing.win {req : VoteRequest} {votes : ℕ} (hq : IsMajority ids quorum)
    (hx : x ∈ quorum) (hplain' : cl'.Plain lib ids)
    (h : Standing ids quorum x req cl [] votes cl') :
    ∃ cl'', Runs.Reach (step lib ids) (Among quorum) cl' cl'' ∧
      Elected ids quorum x cl cl'' := by
  have hpeers := (hplain'.linked.node x (hq.member x hx)).peers_eq
  have hmajority : (cl'.nodes x).majority ≤ votes := by
    have hcount := h.count
    rw [countP_peersOf hq hx, List.countP_nil, Nat.add_zero] at hcount
    have hlen := length_peersOf hq.nodup (hq.member x hx)
    rw [hcount, RaftNode.majority, hpeers, hlen]
    exact hq.half_lt
  have hstep : (cl'.nodes x).step lib (.finishElection 0) =
      some ((cl'.nodes x).endElection 0 ⟨req, [], votes, none⟩
        ((cl'.nodes x).winning ⟨req, [], votes, none⟩)
        [.becameLeader ((cl'.nodes x).winning ⟨req, [], votes, none⟩)]) := by
    have hguard : (cl'.nodes x).state.role = .candidate ∧
        (cl'.nodes x).state.currentTerm = req.term := ⟨h.role, h.term⟩
    simp only [RaftNode.step, RaftNode.finishElection, h.elections, List.getElem?_cons_zero,
      if_true, if_pos hguard, if_pos hmajority]
    rfl
  refine ⟨_, reach_apply hq (.finishElection 0) hx (fun p hp => by cases hp) trivial hstep, ?_⟩
  have hnode := apply_nodes x cl' ((cl'.nodes x).endElection 0 ⟨req, [], votes, none⟩
    ((cl'.nodes x).winning ⟨req, [], votes, none⟩)
    [.becameLeader ((cl'.nodes x).winning ⟨req, [], votes, none⟩)])
  constructor
  · rw [hnode]
    rfl
  · rw [hnode]
    refine ⟨?_, h.transfer⟩
    change (cl'.nodes x).elections.eraseIdx 0 = []
    rw [h.elections]
    rfl
  · refine h.logs.trans ((changes_apply ..).sameLogs ?_)
    rw [hnode]
    rfl
  · intro p hp
    have hterm : ((cl'.nodes x).winning ⟨req, [], votes, none⟩).currentTerm = req.term := h.term
    rw [hnode]
    by_cases hpx : p = x
    · rw [hpx, hnode]
    · rw [(changes_apply ..).others p hpx]
      exact (h.terms p hp).trans hterm.ge
  · intro p hp
    rw [hnode]
    exact (IndexMap.lookup_foldl_insert ..).trans (if_pos (hpeers ▸ hp))
  · intro p
    rw [hnode, ← hpeers]
    exact IndexMap.lookup_foldl_insert ..

/-- A member at rest whose term no other member has passed stands for election. -/
theorem exists_standing (hq : IsMajority ids quorum) (hx : x ∈ quorum)
    (hplain' : cl'.Plain lib ids) (hlogs : SameLogs cl cl')
    (hterms : ∀ p ∈ quorum,
      (cl'.nodes p).state.currentTerm ≤ (cl'.nodes x).state.currentTerm)
    (hidle : (cl'.nodes x).Idle) (hrole : (cl'.nodes x).state.role ≠ .leader) :
    ∃ req cl'', Runs.Reach (step lib ids) (Among quorum) cl' cl'' ∧
      Standing ids quorum x req cl (cl'.nodes x).peers 1 cl'' ∧
      req.lastLogIndex = (cl'.nodes x).state.lastLogIndex ∧
      req.lastLogTerm = (cl'.nodes x).state.lastLogTerm := by
  obtain ⟨hid, hpeers, -, -⟩ := hplain'.linked.node x (hq.member x hx)
  have hnodup : (cl'.nodes x).peers.Nodup := hpeers ▸ hq.nodup.filter _
  have hstep : (cl'.nodes x).step lib (.electionTimeout (cl'.nodes x).peers) =
      some ⟨(cl'.nodes x).standing (cl'.nodes x).peers none,
        (cl'.nodes x).voteRequests (cl'.nodes x).peers, []⟩ :=
    if_pos ⟨hnodup, fun _ hp => hp⟩
  have hnode := apply_nodes x cl' ⟨(cl'.nodes x).standing (cl'.nodes x).peers none,
    (cl'.nodes x).voteRequests (cl'.nodes x).peers, []⟩
  have hterm' : ((cl'.nodes x).standing (cl'.nodes x).peers none).state.currentTerm =
    (cl'.nodes x).state.currentTerm + 1 := rfl
  refine ⟨⟨(cl'.nodes x).state.currentTerm + 1, (cl'.nodes x).id, (cl'.nodes x).state.lastLogIndex,
    (cl'.nodes x).state.lastLogTerm⟩, _, reach_apply hq (.electionTimeout _) hx
      (fun p hp => by cases hp) ⟨hidle, hrole, .refl _⟩ hstep, ?_, rfl, rfl⟩
  have hne : ∀ p ∈ (cl'.nodes x).peers, p ≠ x := fun p hp => (mem_peersOf.mp (hpeers ▸ hp)).2
  constructor
  · rw [hnode]
    rfl
  · rw [hnode]
    rfl
  · rw [hnode]
    change (cl'.nodes x).elections ++ [_] = _
    rw [hidle.1]
    rfl
  · rw [hnode]
    exact hidle.2
  · refine hlogs.trans ((changes_apply ..).sameLogs ?_)
    rw [hnode]
    rfl
  · exact hnodup
  · exact hne
  · exact fun p hp => mem_network_apply (List.mem_map.mpr ⟨p, hp, rfl⟩)
  · intro p hp
    by_cases hpx : p = x
    · rw [hpx, hnode, hterm']
    · rw [(changes_apply ..).others p hpx]
      exact (hterms p hp).trans (Nat.le_succ _)
  · intro p hp hmem
    rw [(changes_apply ..).others p (hne p hp)]
    exact Nat.lt_succ_of_le (hterms p hmem)
  · rw [hpeers]

/-- The members can elect the one with the most complete log. -/
theorem exists_elected (hq : IsMajority ids quorum) (htwo : 2 ≤ ids.length)
    (hplain : cl.Plain lib ids) :
    ∃ x ∈ quorum, ∃ cl', Runs.Reach (step lib ids) (Among quorum) cl cl' ∧
      Elected ids quorum x cl cl' := by
  have hnonempty : quorum.Nonempty := Finset.card_pos.mp (by have := hq.half_lt; omega)
  obtain ⟨x, hx, hbest⟩ := quorum.exists_max_image
    (fun p => toLex ((cl.nodes p).state.lastLogTerm, (cl.nodes p).state.lastLogIndex)) hnonempty
  refine ⟨x, hx, ?_⟩
  obtain ⟨cl₁, hreach₁, hlogs₁, hidle₁, hrole₁⟩ := exists_rest hq htwo hplain hx
  have hplain₁ := hplain.reach Among.noCompaction hreach₁
  obtain ⟨cl₂, hreach₂, hrests, hterm⟩ := exists_higher_term hq htwo hplain₁ hx hidle₁ hrole₁
    (quorum.sup fun p => (cl₁.nodes p).state.currentTerm)
  have hplain₂ := hplain₁.reach Among.noCompaction hreach₂
  have hterms : ∀ p ∈ quorum,
      (cl₂.nodes p).state.currentTerm ≤ (cl₂.nodes x).state.currentTerm := by
    intro p hp
    by_cases hpx : p = x
    · rw [hpx]
    · rw [hrests.others p hpx]
      exact (Finset.le_sup (f := fun p => (cl₁.nodes p).state.currentTerm) hp).trans hterm
  have hlogs₂ := hlogs₁.trans (hrests.sameLogs hrests.log)
  obtain ⟨req, cl₃, hreach₃, hstanding, hindex, hlast⟩ :=
    exists_standing hq hx hplain₂ hlogs₂ hterms hrests.idle hrests.role
  have hplain₃ := hplain₂.reach Among.noCompaction hreach₃
  obtain ⟨hindex₂, hlast₂⟩ := hplain.lastLog_eq hplain₂ hlogs₂ (hq.member x hx)
  have hlog : ∀ p ∈ quorum,
      (cl.nodes p).state.isLogUpToDate req.lastLogIndex req.lastLogTerm = true := by
    intro p hp
    rw [hindex, hlast, hindex₂, hlast₂, RaftState.isLogUpToDate, decide_eq_true_eq]
    exact (Prod.Lex.toLex_le_toLex.mp (hbest p hp)).imp_right fun h => ⟨h.1.symm, h.2⟩
  obtain ⟨votes, cl₄, hreach₄, hdone⟩ := hstanding.complete hq hx hplain hplain₃ hlog
  obtain ⟨cl₅, hreach₅, helected⟩ :=
    hdone.win hq hx (hplain₃.reach Among.noCompaction hreach₄)
  exact ⟨cl₅, (((hreach₁.trans hreach₂).trans hreach₃).trans hreach₄).trans hreach₅, helected⟩

end Cluster
end NomadLite
