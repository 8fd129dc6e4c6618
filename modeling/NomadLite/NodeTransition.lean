import NomadLite.NodeStep

/-!
# What a node step can do

`Transition` lists the outcomes of `RaftNode.step` with the guards that lead to
them. The invariants of the cluster are proved by cases on it, so that the step
functions are unfolded here only.
-/

namespace NomadLite

def Election.count (e : Election) (granted : Bool) : Election :=
  { e with
    pending := e.pending.tail
    voteCount := if granted then e.voteCount + 1 else e.voteCount }

theorem RaftState.replicationMessage_cases {lib : WireLib} {s : RaftState} {myId peer : ℕ}
    {msg : Message} (h : s.replicationMessage lib myId peer = some msg) :
    (∃ snapshot, s.snapshot = some snapshot ∧ (s.nextIndex.lookup peer).getD 1 ≤ s.logOffset ∧
        msg = .installSnapshot (snapshot.toRequest lib s.currentTerm myId)) ∨
      ((s.logOffset < (s.nextIndex.lookup peer).getD 1 ∨ s.snapshot = none) ∧
        msg = .appendEntries .replication
          (s.appendRequest lib myId ((s.nextIndex.lookup peer).getD 1))) := by
  simp only [replicationMessage] at h
  by_cases hnext : (s.nextIndex.lookup peer).getD 1 ≤ s.logOffset
  · rw [if_pos hnext] at h
    cases hsnap : s.snapshot with
    | some snapshot =>
      rw [hsnap] at h
      exact .inl ⟨snapshot, rfl, hnext, (Option.some.inj h).symm⟩
    | none =>
      simp only [hsnap] at h
      split_ifs at h
      exact .inr ⟨.inr rfl, (Option.some.inj h).symm⟩
  · rw [if_neg hnext] at h
    dsimp only at h
    split_ifs at h
    exact .inr ⟨.inl (not_le.mp hnext), (Option.some.inj h).symm⟩

namespace RaftNode

def standing (nd : RaftNode) (order : List ℕ) (caller : Option (ℕ × TimeoutNowRequest)) :
    RaftNode :=
  let s := nd.state.becomeCandidate nd.id
  { nd with
    state := s
    elections := nd.elections ++
      [⟨⟨s.currentTerm, nd.id, s.lastLogIndex, s.lastLogTerm⟩, order, 1, caller⟩] }

def voteRequests (nd : RaftNode) (order : List ℕ) : List (ℕ × Message) :=
  let s := nd.state.becomeCandidate nd.id
  order.map fun p => (p, .voteRequest ⟨s.currentTerm, nd.id, s.lastLogIndex, s.lastLogTerm⟩)

def winning (nd : RaftNode) (e : Election) : RaftState :=
  { nd.state with votesReceived := e.voteCount }.becomeLeader nd.id nd.peers

inductive Transition (lib : WireLib) (nd : RaftNode) : Event → Effect → Prop where
  | voteRequest {task src : ℕ} {req : VoteRequest} :
      Transition lib nd (.deliver task src (.voteRequest req)) (nd.handleVoteRequest src req)
  | voteStepDown {task src : ℕ} {req : VoteRequest} {resp : VoteResponse} {e : Election}
      (he : nd.elections[task]? = some e) (hreq : e.request = req)
      (hsrc : e.pending.head? = some src) (hterm : req.term < resp.term) :
      Transition lib nd (.deliver task src (.voteReply req resp))
        (nd.endElection task e (nd.state.becomeFollower resp.term) [])
  | voteCounted {task src : ℕ} {req : VoteRequest} {resp : VoteResponse} {e : Election}
      (he : nd.elections[task]? = some e) (hreq : e.request = req)
      (hsrc : e.pending.head? = some src) (hterm : resp.term ≤ req.term) :
      Transition lib nd (.deliver task src (.voteReply req resp))
        ⟨nd.setElection task (e.count resp.voteGranted), [], []⟩
  | appendEntries {task src : ℕ} {kind : AppendKind} {req : AppendEntriesRequest} :
      Transition lib nd (.deliver task src (.appendEntries kind req))
        (nd.handleAppendEntries lib src kind req)
  | heartbeatStepDown {task src : ℕ} {req : AppendEntriesRequest} {resp : AppendEntriesResponse}
      (hterm : req.term < resp.term) :
      Transition lib nd (.deliver task src (.appendReply .heartbeat req resp))
        ⟨nd.withState (nd.state.becomeFollower resp.term), [], []⟩
  | heartbeatIgnored {task src : ℕ} {req : AppendEntriesRequest} {resp : AppendEntriesResponse}
      (hterm : resp.term ≤ req.term) :
      Transition lib nd (.deliver task src (.appendReply .heartbeat req resp)) ⟨nd, [], []⟩
  | appendStepDown {task src : ℕ} {req : AppendEntriesRequest} {resp : AppendEntriesResponse}
      (hterm : nd.state.currentTerm < resp.term) :
      Transition lib nd (.deliver task src (.appendReply .replication req resp))
        ⟨nd.withState (nd.state.becomeFollower resp.term), [], []⟩
  | appendCommitted {task src : ℕ} {req : AppendEntriesRequest} {resp : AppendEntriesResponse}
      {s : RaftState} (hterm : resp.term ≤ nd.state.currentTerm) (hrole : nd.state.role = .leader)
      (hsuccess : resp.success = true) (hs : s = nd.state.recordMatch src resp.matchIndex)
      (hmay : s.mayCommit s.majorityIndex) :
      Transition lib nd (.deliver task src (.appendReply .replication req resp))
        ⟨(nd.withState { s with commitIndex := s.majorityIndex }).notifyCommit, [],
          [.advancedCommit { s with commitIndex := s.majorityIndex }]⟩
  | appendMatched {task src : ℕ} {req : AppendEntriesRequest} {resp : AppendEntriesResponse}
      (hterm : resp.term ≤ nd.state.currentTerm) (hrole : nd.state.role = .leader)
      (hsuccess : resp.success = true) :
      Transition lib nd (.deliver task src (.appendReply .replication req resp))
        ⟨nd.withState (nd.state.recordMatch src resp.matchIndex), [], []⟩
  | appendRejected {task src : ℕ} {req : AppendEntriesRequest} {resp : AppendEntriesResponse}
      (hterm : resp.term ≤ nd.state.currentTerm) (hrole : nd.state.role = .leader)
      (hsuccess : ¬ resp.success = true) :
      Transition lib nd (.deliver task src (.appendReply .replication req resp))
        ⟨nd.withState (nd.state.decrementNext src), [], []⟩
  | appendIgnored {task src : ℕ} {req : AppendEntriesRequest} {resp : AppendEntriesResponse}
      (hterm : resp.term ≤ nd.state.currentTerm) (hrole : nd.state.role ≠ .leader) :
      Transition lib nd (.deliver task src (.appendReply .replication req resp)) ⟨nd, [], []⟩
  | installSnapshot {task src : ℕ} {req : InstallSnapshotRequest} :
      Transition lib nd (.deliver task src (.installSnapshot req))
        (nd.handleInstallSnapshot lib src req)
  | snapshotStepDown {task src : ℕ} {req : InstallSnapshotRequest}
      {resp : InstallSnapshotResponse} (hterm : nd.state.currentTerm < resp.term) :
      Transition lib nd (.deliver task src (.snapshotReply req resp))
        ⟨nd.withState (nd.state.becomeFollower resp.term), [], []⟩
  | snapshotMatched {task src : ℕ} {req : InstallSnapshotRequest} {resp : InstallSnapshotResponse}
      (hterm : resp.term ≤ nd.state.currentTerm) :
      Transition lib nd (.deliver task src (.snapshotReply req resp))
        ⟨nd.withState (nd.state.recordMatch src req.lastIncludedIndex), [], []⟩
  | timeoutNowRefused {task src : ℕ} {req : TimeoutNowRequest}
      (hterm : req.term < nd.state.currentTerm) :
      Transition lib nd (.deliver task src (.timeoutNow req))
        ⟨nd, [(src, .timeoutNowReply req ⟨nd.state.currentTerm, false⟩)], []⟩
  | timeoutNowTaken {task src : ℕ} {req : TimeoutNowRequest}
      (hterm : nd.state.currentTerm ≤ req.term) :
      Transition lib nd (.deliver task src (.timeoutNow req))
        ⟨{ nd with timeoutNows := nd.timeoutNows ++ [(src, req)] }, [], []⟩
  | transferDone {task src : ℕ} {req : TimeoutNowRequest} {resp : TimeoutNowResponse}
      {tr : Transfer} (htr : nd.transfer = some tr) (hsent : tr.sent = true)
      (hsrc : tr.target = src) (hreq : req = ⟨tr.term, nd.id⟩) (hsuccess : resp.success = true) :
      Transition lib nd (.deliver task src (.timeoutNowReply req resp))
        ⟨{ nd with state := nd.state.becomeFollower tr.term, transfer := none }, [], []⟩
  | transferRefused {task src : ℕ} {req : TimeoutNowRequest} {resp : TimeoutNowResponse}
      (hsuccess : ¬ resp.success = true) :
      Transition lib nd (.deliver task src (.timeoutNowReply req resp))
        ⟨{ nd with transfer := none }, [], []⟩
  | electionTimeout {order : List ℕ} (hnodup : order.Nodup) (hpeers : ∀ p ∈ order, p ∈ nd.peers) :
      Transition lib nd (.electionTimeout order) ⟨nd.standing order none, nd.voteRequests order, []⟩
  | timeoutNowElection {task : ℕ} {order : List ℕ} {caller : ℕ × TimeoutNowRequest}
      (hcaller : nd.timeoutNows[task]? = some caller) (hnodup : order.Nodup)
      (hpeers : ∀ p ∈ order, p ∈ nd.peers) :
      Transition lib nd (.timeoutNowElection task order)
        ⟨{ nd with timeoutNows := nd.timeoutNows.eraseIdx task }.standing order (some caller),
          nd.voteRequests order, []⟩
  | voteFailed {task : ℕ} {e : Election} (he : nd.elections[task]? = some e)
      (hne : e.pending ≠ []) :
      Transition lib nd (.voteFailed task) ⟨nd.setElection task (e.count false), [], []⟩
  | electionWon {task : ℕ} {e : Election} (he : nd.elections[task]? = some e)
      (hdone : e.pending = []) (hrole : nd.state.role = .candidate)
      (hterm : nd.state.currentTerm = e.request.term) (hmaj : nd.majority ≤ e.voteCount) :
      Transition lib nd (.finishElection task)
        (nd.endElection task e (nd.winning e) [.becameLeader (nd.winning e)])
  | electionLost {task : ℕ} {e : Election} (he : nd.elections[task]? = some e)
      (hdone : e.pending = []) (votes : ℕ) :
      Transition lib nd (.finishElection task)
        (nd.endElection task e { nd.state with votesReceived := votes } [])
  | heartbeatTick (hrole : nd.state.role = .leader) :
      Transition lib nd .heartbeatTick
        ⟨nd, nd.peers.map fun p =>
          (p, .appendEntries .heartbeat (nd.state.heartbeatRequest nd.id)), []⟩
  | replicateTick (hrole : nd.state.role = .leader) :
      Transition lib nd .replicateTick
        ⟨nd, nd.peers.filterMap fun p =>
          (nd.state.replicationMessage lib nd.id p).map fun msg => (p, msg), []⟩
  | appendCommand {command : Command} (hrole : nd.state.role = .leader) :
      Transition lib nd (.appendCommand command)
        ⟨nd.withState (nd.state.appendEntry command), [], []⟩
  | startTransfer {targetId : Option ℕ} {choice : ℕ} (hrole : nd.state.role = .leader)
      (tr : Transfer) (hterm : tr.term = nd.state.currentTerm) :
      Transition lib nd (.startTransfer targetId choice) ⟨{ nd with transfer := some tr }, [], []⟩
  | transferPoll {tr : Transfer} (htr : nd.transfer = some tr) :
      Transition lib nd .transferPoll
        ⟨{ nd with transfer := some { tr with sent := true } },
          [(tr.target, .timeoutNow ⟨tr.term, nd.id⟩)], []⟩
  | transferFailed : Transition lib nd .transferFailed ⟨{ nd with transfer := none }, [], []⟩
  | getCommittedEntries : Transition lib nd .getCommittedEntries nd.getCommittedEntries
  | beginCompaction (c : Compaction) :
      Transition lib nd .beginCompaction ⟨{ nd with compaction := some c }, [], []⟩
  | finishCompaction {jobs : List SnapshotJob} {workers : List ℕ} {c : Compaction}
      (hc : nd.compaction = some c) :
      Transition lib nd (.finishCompaction jobs workers)
        ⟨{ nd with
          state := nd.state.compactLog ⟨c.lastApplied, c.lastAppliedTerm, jobs, workers⟩
          compaction := none }, [], []⟩

variable {lib : WireLib} {nd : RaftNode} {eff : Effect}

theorem handleAppendEntries_state (nd : RaftNode) (src : ℕ) (kind : AppendKind)
    (req : AppendEntriesRequest) :
    (nd.handleAppendEntries lib src kind req).node.state =
      (NomadLite.handleAppendEntries lib nd.state req).1 := by
  simp only [handleAppendEntries]
  split_ifs <;> rfl

theorem handleInstallSnapshot_state (nd : RaftNode) (src : ℕ) (req : InstallSnapshotRequest) :
    (nd.handleInstallSnapshot lib src req).node.state =
      (NomadLite.handleInstallSnapshot lib nd.state req).1 := by
  simp only [handleInstallSnapshot]
  split_ifs <;> rfl

theorem startElection_eq_some {order : List ℕ} {caller : Option (ℕ × TimeoutNowRequest)}
    (h : nd.startElection order caller = some eff) :
    order.Nodup ∧ (∀ p ∈ order, p ∈ nd.peers) ∧
      eff = ⟨nd.standing order caller, nd.voteRequests order, []⟩ := by
  rw [startElection] at h
  split_ifs at h with hguard
  exact ⟨hguard.1, hguard.2, (Option.some.inj h).symm⟩

theorem transition_of_handleVoteReply {task src : ℕ} {req : VoteRequest} {resp : VoteResponse}
    (h : nd.handleVoteReply task src req resp = some eff) :
    Transition lib nd (.deliver task src (.voteReply req resp)) eff := by
  rw [handleVoteReply] at h
  cases he : nd.elections[task]? with
  | none =>
    rw [he] at h
    cases h
  | some e =>
    simp only [he] at h
    by_cases hguard : e.request = req ∧ e.pending.head? = some src
    · rw [if_pos hguard] at h
      by_cases hterm : req.term < resp.term
      · rw [if_pos hterm] at h
        obtain rfl := Option.some.inj h
        exact .voteStepDown he hguard.1 hguard.2 hterm
      · rw [if_neg hterm] at h
        obtain rfl := Option.some.inj h
        exact .voteCounted he hguard.1 hguard.2 (not_lt.mp hterm)
    · rw [if_neg hguard] at h
      cases h

theorem transition_of_finishElection {task : ℕ} (h : nd.finishElection task = some eff) :
    Transition lib nd (.finishElection task) eff := by
  rw [finishElection] at h
  cases he : nd.elections[task]? with
  | none =>
    rw [he] at h
    cases h
  | some e =>
    simp only [he] at h
    split_ifs at h with hdone hcur hmaj
    · obtain rfl := Option.some.inj h
      exact .electionWon he hdone hcur.1 hcur.2 hmaj
    · obtain rfl := Option.some.inj h
      exact .electionLost he hdone e.voteCount
    · obtain rfl := Option.some.inj h
      exact .electionLost he hdone nd.state.votesReceived

theorem transition_of_handleTimeoutNowReply {task src : ℕ} {req : TimeoutNowRequest}
    {resp : TimeoutNowResponse} (h : nd.handleTimeoutNowReply src req resp = some eff) :
    Transition lib nd (.deliver task src (.timeoutNowReply req resp)) eff := by
  rw [handleTimeoutNowReply] at h
  cases htr : nd.transfer with
  | none =>
    rw [htr] at h
    cases h
  | some tr =>
    simp only [htr] at h
    by_cases hguard : tr.sent = true ∧ tr.target = src ∧ req = ⟨tr.term, nd.id⟩
    · rw [if_pos hguard] at h
      obtain rfl := Option.some.inj h
      by_cases hsuccess : resp.success = true
      · simp only [if_pos hsuccess]
        exact .transferDone htr hguard.1 hguard.2.1 hguard.2.2 hsuccess
      · simp only [if_neg hsuccess]
        exact .transferRefused hsuccess
    · rw [if_neg hguard] at h
      cases h

theorem transition_handleHeartbeatReply (task src : ℕ) (req : AppendEntriesRequest)
    (resp : AppendEntriesResponse) :
    Transition lib nd (.deliver task src (.appendReply .heartbeat req resp))
      (nd.handleHeartbeatReply req resp) := by
  rw [handleHeartbeatReply]
  by_cases hterm : req.term < resp.term
  · rw [if_pos hterm]
    exact .heartbeatStepDown hterm
  · rw [if_neg hterm]
    exact .heartbeatIgnored (not_lt.mp hterm)

theorem transition_handleAppendReply (task src : ℕ) (req : AppendEntriesRequest)
    (resp : AppendEntriesResponse) :
    Transition lib nd (.deliver task src (.appendReply .replication req resp))
      (nd.handleAppendReply src resp) := by
  rw [handleAppendReply]
  by_cases hterm : nd.state.currentTerm < resp.term
  · rw [if_pos hterm]
    exact .appendStepDown hterm
  · rw [if_neg hterm]
    have hle := not_lt.mp hterm
    by_cases hrole : nd.state.role = .leader
    · by_cases hsuccess : resp.success = true
      · rw [if_pos ⟨hrole, hsuccess⟩]
        dsimp only
        split_ifs with hmay
        · exact .appendCommitted hle hrole hsuccess rfl hmay
        · exact .appendMatched hle hrole hsuccess
      · rw [if_neg fun h => hsuccess h.2, if_pos ⟨hrole, hsuccess⟩]
        exact .appendRejected hle hrole hsuccess
    · rw [if_neg fun h => hrole h.1, if_neg fun h => hrole h.1]
      exact .appendIgnored hle hrole

theorem transition_handleSnapshotReply (task src : ℕ) (req : InstallSnapshotRequest)
    (resp : InstallSnapshotResponse) :
    Transition lib nd (.deliver task src (.snapshotReply req resp))
      (nd.handleSnapshotReply src req resp) := by
  rw [handleSnapshotReply]
  split_ifs with hterm
  · exact .snapshotStepDown hterm
  · exact .snapshotMatched (not_lt.mp hterm)

theorem transition_handleTimeoutNow (task src : ℕ) (req : TimeoutNowRequest) :
    Transition lib nd (.deliver task src (.timeoutNow req)) (nd.handleTimeoutNow src req) := by
  rw [handleTimeoutNow]
  split_ifs with hterm
  · exact .timeoutNowRefused hterm
  · exact .timeoutNowTaken (not_lt.mp hterm)

theorem transition_of_deliver {task src : ℕ} {msg : Message}
    (h : nd.deliver lib task src msg = some eff) :
    Transition lib nd (.deliver task src msg) eff := by
  cases msg with
  | voteRequest req => exact Option.some.inj h ▸ .voteRequest
  | voteReply req resp => exact transition_of_handleVoteReply h
  | appendEntries kind req => exact Option.some.inj h ▸ .appendEntries
  | appendReply kind req resp =>
    cases kind with
    | heartbeat => exact Option.some.inj h ▸ transition_handleHeartbeatReply _ _ _ _
    | replication => exact Option.some.inj h ▸ transition_handleAppendReply _ _ _ _
  | installSnapshot req => exact Option.some.inj h ▸ .installSnapshot
  | snapshotReply req resp => exact Option.some.inj h ▸ transition_handleSnapshotReply _ _ _ _
  | timeoutNow req => exact Option.some.inj h ▸ transition_handleTimeoutNow _ _ _
  | timeoutNowReply req resp => exact transition_of_handleTimeoutNowReply h

theorem transition_of_step {ev : Event} (h : nd.step lib ev = some eff) :
    Transition lib nd ev eff := by
  cases ev with
  | deliver task src msg => exact transition_of_deliver h
  | electionTimeout order =>
    obtain ⟨hnodup, hpeers, rfl⟩ := startElection_eq_some h
    exact .electionTimeout hnodup hpeers
  | timeoutNowElection task order =>
    simp only [step] at h
    cases hcaller : nd.timeoutNows[task]? with
    | none =>
      rw [hcaller] at h
      cases h
    | some caller =>
      rw [hcaller] at h
      obtain ⟨hnodup, hpeers, rfl⟩ := startElection_eq_some h
      exact .timeoutNowElection hcaller hnodup hpeers
  | voteFailed task =>
    simp only [step, voteFailed] at h
    cases he : nd.elections[task]? with
    | none =>
      rw [he] at h
      cases h
    | some e =>
      simp only [he] at h
      split_ifs at h with hne
      obtain rfl := Option.some.inj h
      exact .voteFailed he hne
  | finishElection task => exact transition_of_finishElection h
  | heartbeatTick =>
    simp only [step, heartbeatTick] at h
    split_ifs at h with hrole
    exact Option.some.inj h ▸ .heartbeatTick hrole
  | replicateTick =>
    simp only [step, replicateToPeers] at h
    split_ifs at h with hrole
    exact Option.some.inj h ▸ .replicateTick hrole
  | appendCommand command =>
    simp only [step, handleAppendCommand] at h
    split_ifs at h with hrole
    exact Option.some.inj h ▸ .appendCommand hrole
  | startTransfer targetId choice =>
    simp only [step, startTransfer] at h
    split_ifs at h with hguard
    obtain ⟨target, -, rfl⟩ := Option.map_eq_some_iff.mp h
    exact .startTransfer hguard.1 _ rfl
  | transferPoll =>
    simp only [step, transferPoll] at h
    cases htr : nd.transfer with
    | none =>
      rw [htr] at h
      cases h
    | some tr =>
      simp only [htr] at h
      split_ifs at h
      exact Option.some.inj h ▸ .transferPoll htr
  | transferFailed =>
    simp only [step, transferFailed] at h
    split_ifs at h
    exact Option.some.inj h ▸ .transferFailed
  | getCommittedEntries => exact Option.some.inj h ▸ .getCommittedEntries
  | beginCompaction =>
    simp only [step, beginCompaction] at h
    split_ifs at h
    exact Option.some.inj h ▸ .beginCompaction _
  | finishCompaction jobs workers =>
    obtain ⟨c, hc, rfl⟩ := Option.map_eq_some_iff.mp h
    exact .finishCompaction hc

/-! ### What a step sends -/

/-- A message that a step sends to `dst`. Only ticks send requests for the log, and they leave the
node as it is; a reply goes back to the sender of its request. -/
inductive Sends (lib : WireLib) (nd : RaftNode) (ev : Event) (eff : Effect) (dst : ℕ) :
    Message → Prop where
  | voteRequest (req : VoteRequest) : Sends lib nd ev eff dst (.voteRequest req)
  | voteReply (req : VoteRequest) (resp : VoteResponse) :
      Sends lib nd ev eff dst (.voteReply req resp)
  | heartbeat (hnode : eff.node = nd) :
      Sends lib nd ev eff dst (.appendEntries .heartbeat (nd.state.heartbeatRequest nd.id))
  | append (next : ℕ) (hnode : eff.node = nd) :
      Sends lib nd ev eff dst (.appendEntries .replication (nd.state.appendRequest lib nd.id next))
  | snapshot {snap : Snapshot} (hsnap : nd.state.snapshot = some snap) :
      Sends lib nd ev eff dst
        (.installSnapshot (snap.toRequest lib nd.state.currentTerm nd.id))
  | appendReply {task : ℕ} {kind : AppendKind} {req : AppendEntriesRequest}
      (hev : ev = .deliver task dst (.appendEntries kind req)) :
      Sends lib nd ev eff dst
        (.appendReply kind req (NomadLite.handleAppendEntries lib nd.state req).2)
  | snapshotReply {task : ℕ} {req : InstallSnapshotRequest}
      (hev : ev = .deliver task dst (.installSnapshot req)) :
      Sends lib nd ev eff dst
        (.snapshotReply req (NomadLite.handleInstallSnapshot lib nd.state req).2)
  | timeoutNow (req : TimeoutNowRequest) : Sends lib nd ev eff dst (.timeoutNow req)
  | timeoutNowReply (req : TimeoutNowRequest) (resp : TimeoutNowResponse) :
      Sends lib nd ev eff dst (.timeoutNowReply req resp)

theorem Transition.sends {ev : Event} (h : Transition lib nd ev eff) {dst : ℕ} {msg : Message}
    (hsent : (dst, msg) ∈ eff.sent) : Sends lib nd ev eff dst msg := by
  cases h with
  | voteRequest =>
    obtain ⟨rfl, rfl⟩ := Prod.mk.inj (List.mem_singleton.mp hsent)
    exact .voteReply _ _
  | appendEntries =>
    obtain ⟨rfl, rfl⟩ := Prod.mk.inj (List.mem_singleton.mp hsent)
    exact .appendReply rfl
  | installSnapshot =>
    obtain ⟨rfl, rfl⟩ := Prod.mk.inj (List.mem_singleton.mp hsent)
    exact .snapshotReply rfl
  | timeoutNowRefused =>
    obtain ⟨rfl, rfl⟩ := Prod.mk.inj (List.mem_singleton.mp hsent)
    exact .timeoutNowReply _ _
  | transferPoll =>
    obtain ⟨rfl, rfl⟩ := Prod.mk.inj (List.mem_singleton.mp hsent)
    exact .timeoutNow _
  | voteStepDown | electionWon | electionLost =>
    obtain ⟨caller, -, heq⟩ := List.mem_map.mp hsent
    obtain ⟨rfl, rfl⟩ := Prod.mk.inj heq
    exact .timeoutNowReply _ _
  | electionTimeout | timeoutNowElection =>
    obtain ⟨p, -, heq⟩ := List.mem_map.mp hsent
    obtain ⟨rfl, rfl⟩ := Prod.mk.inj heq
    exact .voteRequest _
  | heartbeatTick =>
    obtain ⟨p, -, heq⟩ := List.mem_map.mp hsent
    obtain ⟨rfl, rfl⟩ := Prod.mk.inj heq
    exact .heartbeat rfl
  | replicateTick =>
    obtain ⟨p, -, hmsg⟩ := List.mem_filterMap.mp hsent
    obtain ⟨msg', hmsg', heq⟩ := Option.map_eq_some_iff.mp hmsg
    obtain ⟨rfl, rfl⟩ := Prod.mk.inj heq
    rcases RaftState.replicationMessage_cases hmsg' with ⟨snapshot, hsnap, -, rfl⟩ | ⟨-, rfl⟩
    · exact .snapshot hsnap
    · exact .append _ rfl
  | voteCounted | heartbeatStepDown | heartbeatIgnored | appendStepDown | appendCommitted
  | appendMatched | appendRejected | appendIgnored | snapshotStepDown | snapshotMatched
  | timeoutNowTaken | transferDone | transferRefused | voteFailed | appendCommand | startTransfer
  | transferFailed | getCommittedEntries | beginCompaction | finishCompaction => cases hsent

theorem Transition.config_eq {ev : Event} (h : Transition lib nd ev eff) :
    eff.node.id = nd.id ∧ eff.node.peers = nd.peers := by
  cases h with
  | appendEntries =>
    simp only [handleAppendEntries]
    split_ifs <;> exact ⟨rfl, rfl⟩
  | installSnapshot =>
    simp only [handleInstallSnapshot]
    split_ifs <;> exact ⟨rfl, rfl⟩
  | _ => exact ⟨rfl, rfl⟩

theorem Transition.id_eq {ev : Event} (h : Transition lib nd ev eff) : eff.node.id = nd.id :=
  h.config_eq.1

theorem Transition.peers_eq {ev : Event} (h : Transition lib nd ev eff) :
    eff.node.peers = nd.peers :=
  h.config_eq.2

end RaftNode
end NomadLite
