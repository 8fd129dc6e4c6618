import NomadLite.RaftState
import NomadLite.Wire

/-!
# The Raft RPC messages and their pure handlers

Each handler takes the state under the write lock and returns the state it leaves
and the reply. The handlers never fail, so the `Result` of the source is dropped.
-/

namespace NomadLite

structure VoteRequest where
  term : ℕ
  candidateId : ℕ
  lastLogIndex : ℕ
  lastLogTerm : ℕ
deriving DecidableEq

structure VoteResponse where
  term : ℕ
  voteGranted : Bool
deriving DecidableEq

structure AppendEntriesRequest where
  term : ℕ
  leaderId : ℕ
  prevLogIndex : ℕ
  prevLogTerm : ℕ
  entries : List Proto.LogEntry
  leaderCommit : ℕ
deriving DecidableEq

structure AppendEntriesResponse where
  term : ℕ
  success : Bool
  matchIndex : ℕ
deriving DecidableEq

structure InstallSnapshotRequest where
  term : ℕ
  leaderId : ℕ
  lastIncludedIndex : ℕ
  lastIncludedTerm : ℕ
  jobs : List Proto.SnapshotJob
  workers : List ℕ
deriving DecidableEq

structure InstallSnapshotResponse where
  term : ℕ
deriving DecidableEq

structure TimeoutNowRequest where
  term : ℕ
  leaderId : ℕ
deriving DecidableEq

structure TimeoutNowResponse where
  term : ℕ
  success : Bool
deriving DecidableEq

/-- The first lines of all three handlers: a greater term is adopted. -/
def RaftState.adoptTerm (s : RaftState) (term : ℕ) : RaftState :=
  if s.currentTerm < term then s.becomeFollower term else s

def RaftState.castVote (s : RaftState) (candidateId : ℕ) : RaftState :=
  { s with votedFor := some candidateId }

def handleRequestVote (s : RaftState) (req : VoteRequest) : RaftState × VoteResponse :=
  let s := s.adoptTerm req.term
  if req.term < s.currentTerm then (s, ⟨s.currentTerm, false⟩)
  else if s.votedFor.isSome ∧ s.votedFor ≠ some req.candidateId then (s, ⟨s.currentTerm, false⟩)
  else if ¬s.isLogUpToDate req.lastLogIndex req.lastLogTerm then (s, ⟨s.currentTerm, false⟩)
  else (s.castVote req.candidateId, ⟨s.currentTerm, true⟩)

inductive PrevLogCheck where
  | accept
  | reject
  | mismatch
deriving DecidableEq

def RaftState.checkPrevLog (s : RaftState) (prevLogIndex prevLogTerm : ℕ) : PrevLogCheck :=
  if 0 < prevLogIndex then
    if prevLogIndex < s.logOffset then .accept
    else if prevLogIndex = s.logOffset then
      match s.snapshot with
      | some snapshot => if snapshot.lastIncludedTerm ≠ prevLogTerm then .reject else .accept
      | none => .accept
    else
      match s.getEntry prevLogIndex with
      | none => .reject
      | some entry => if entry.term ≠ prevLogTerm then .mismatch else .accept
  else .accept

/-- A request of the current term ends a candidacy, or a leadership, and names the leader. -/
def RaftState.acceptLeader (s : RaftState) (term leaderId : ℕ) : RaftState :=
  { (if s.role ≠ .follower then s.becomeFollower term else s) with leaderId := some leaderId }

def RaftState.appendReply (s : RaftState) (success : Bool) : AppendEntriesResponse :=
  ⟨s.currentTerm, success, s.lastLogIndex⟩

section Handlers

variable (lib : WireLib)

/-- Malformed entries are skipped. -/
def decodeEntries (entries : List Proto.LogEntry) : List LogEntry :=
  entries.filterMap (protoToLogEntry lib)

def RaftState.appendNewEntries (s : RaftState) (req : AppendEntriesRequest) : RaftState :=
  if req.entries = [] then s
  else s.truncateAndAppend (req.prevLogIndex + 1) (decodeEntries lib req.entries)

def RaftState.updateCommitIndex (s : RaftState) (leaderCommit : ℕ) : RaftState :=
  if s.commitIndex < leaderCommit then { s with commitIndex := min leaderCommit s.lastLogIndex }
  else s

def handleAppendEntries (s : RaftState) (req : AppendEntriesRequest) :
    RaftState × AppendEntriesResponse :=
  let s := s.adoptTerm req.term
  if req.term < s.currentTerm then (s, s.appendReply false)
  else
    let s := s.acceptLeader req.term req.leaderId
    match s.checkPrevLog req.prevLogIndex req.prevLogTerm with
    | .reject => (s, s.appendReply false)
    | .mismatch =>
      let s := { s with log := s.log.take (req.prevLogIndex - s.logOffset - 1) }
      (s, s.appendReply false)
    | .accept =>
      let s := (s.appendNewEntries lib req).updateCommitIndex req.leaderCommit
      (s, s.appendReply true)

def InstallSnapshotRequest.toSnapshot (req : InstallSnapshotRequest) : Snapshot :=
  ⟨req.lastIncludedIndex, req.lastIncludedTerm, req.jobs.filterMap (protoToSnapshotJob lib),
    req.workers⟩

/-- At the current term the role is left as it is: only `leader_id` is set. -/
def handleInstallSnapshot (s : RaftState) (req : InstallSnapshotRequest) :
    RaftState × InstallSnapshotResponse :=
  let s := s.adoptTerm req.term
  if req.term < s.currentTerm then (s, ⟨s.currentTerm⟩)
  else
    let s := { s with leaderId := some req.leaderId }
    let s := (s.installSnapshot (req.toSnapshot lib)).1
    (s, ⟨s.currentTerm⟩)

end Handlers

/-! ## What the handlers do to each part of the state -/

namespace RaftState

variable {s : RaftState} {term leaderId : ℕ}

theorem adoptTerm_eq_self (h : term ≤ s.currentTerm) : s.adoptTerm term = s := if_neg (by omega)

theorem adoptTerm_eq_follower (h : s.currentTerm < term) :
    s.adoptTerm term = s.becomeFollower term := if_pos h

theorem adoptTerm_currentTerm : (s.adoptTerm term).currentTerm = max s.currentTerm term := by
  rw [adoptTerm]
  split_ifs with h
  · exact (max_eq_right h.le).symm
  · exact (max_eq_left (by omega)).symm

@[simp] theorem adoptTerm_log : (s.adoptTerm term).log = s.log := by
  rw [adoptTerm]; split_ifs <;> rfl

@[simp] theorem adoptTerm_logOffset : (s.adoptTerm term).logOffset = s.logOffset := by
  rw [adoptTerm]; split_ifs <;> rfl

@[simp] theorem adoptTerm_snapshot : (s.adoptTerm term).snapshot = s.snapshot := by
  rw [adoptTerm]; split_ifs <;> rfl

@[simp] theorem adoptTerm_commitIndex : (s.adoptTerm term).commitIndex = s.commitIndex := by
  rw [adoptTerm]; split_ifs <;> rfl

@[simp] theorem adoptTerm_lastApplied : (s.adoptTerm term).lastApplied = s.lastApplied := by
  rw [adoptTerm]; split_ifs <;> rfl

def follow (s : RaftState) (term leaderId : ℕ) : RaftState :=
  (s.adoptTerm term).acceptLeader term leaderId

theorem follow_currentTerm (s : RaftState) (leaderId : ℕ) (h : s.currentTerm ≤ term) :
    (s.follow term leaderId).currentTerm = term := by
  rw [follow, acceptLeader]
  split_ifs
  · rfl
  · exact adoptTerm_currentTerm.trans (max_eq_right h)

@[simp] theorem follow_role : (s.follow term leaderId).role = .follower := by
  rw [follow, acceptLeader]
  split_ifs with h
  · rfl
  · exact not_not.mp h

theorem follow_votedFor (s : RaftState) (leaderId : ℕ) (h : s.currentTerm ≤ term) :
    (s.follow term leaderId).votedFor =
      if s.currentTerm = term ∧ s.role = .follower then s.votedFor else none := by
  rcases h.lt_or_eq with hlt | rfl
  · rw [if_neg (by omega), follow, adoptTerm_eq_follower hlt]
    rfl
  · rw [follow, adoptTerm_eq_self le_rfl, acceptLeader]
    by_cases hr : s.role = .follower <;> simp [hr, becomeFollower]

@[simp] theorem follow_log : (s.follow term leaderId).log = s.log := by
  rw [follow, acceptLeader]; split_ifs <;> exact adoptTerm_log

@[simp] theorem follow_logOffset : (s.follow term leaderId).logOffset = s.logOffset := by
  rw [follow, acceptLeader]; split_ifs <;> exact adoptTerm_logOffset

@[simp] theorem follow_snapshot : (s.follow term leaderId).snapshot = s.snapshot := by
  rw [follow, acceptLeader]; split_ifs <;> exact adoptTerm_snapshot

@[simp] theorem follow_commitIndex : (s.follow term leaderId).commitIndex = s.commitIndex := by
  rw [follow, acceptLeader]; split_ifs <;> exact adoptTerm_commitIndex

@[simp] theorem follow_lastApplied : (s.follow term leaderId).lastApplied = s.lastApplied := by
  rw [follow, acceptLeader]; split_ifs <;> exact adoptTerm_lastApplied

@[simp] theorem follow_checkPrevLog (prevLogIndex prevLogTerm : ℕ) :
    (s.follow term leaderId).checkPrevLog prevLogIndex prevLogTerm =
      s.checkPrevLog prevLogIndex prevLogTerm := by
  simp only [checkPrevLog, getEntry, follow_log, follow_logOffset, follow_snapshot]

end RaftState

section Cases

variable {lib : WireLib} {s : RaftState}

/-- A vote is refused and only the term is adopted, or it is granted in the request's term to a
candidate whose log is up to date. -/
theorem handleRequestVote_cases (s : RaftState) (req : VoteRequest) :
    handleRequestVote s req = (s.adoptTerm req.term, ⟨(s.adoptTerm req.term).currentTerm, false⟩) ∨
      ((s.adoptTerm req.term).currentTerm = req.term ∧
        ((s.adoptTerm req.term).votedFor = none ∨
          (s.adoptTerm req.term).votedFor = some req.candidateId) ∧
        s.isLogUpToDate req.lastLogIndex req.lastLogTerm = true ∧
        handleRequestVote s req =
          ((s.adoptTerm req.term).castVote req.candidateId, ⟨req.term, true⟩)) := by
  have hlog : (s.adoptTerm req.term).isLogUpToDate req.lastLogIndex req.lastLogTerm =
      s.isLogUpToDate req.lastLogIndex req.lastLogTerm := by
    rw [RaftState.adoptTerm]
    split_ifs <;> rfl
  rw [handleRequestVote]
  split_ifs with hterm hvote huptodate
  · exact .inl rfl
  · exact .inl rfl
  · have hcur : (s.adoptTerm req.term).currentTerm = req.term := by
      have hmax : (s.adoptTerm req.term).currentTerm = max s.currentTerm req.term :=
        RaftState.adoptTerm_currentTerm
      omega
    refine .inr ⟨hcur, ?_, hlog ▸ huptodate, by rw [hcur]⟩
    cases hv : (s.adoptTerm req.term).votedFor with
    | none => exact .inl rfl
    | some c =>
      rw [hv] at hvote
      exact .inr (not_not.mp fun hne => hvote ⟨rfl, hne⟩)
  · exact .inl rfl

theorem handleAppendEntries_stale {req : AppendEntriesRequest} (h : req.term < s.currentTerm) :
    handleAppendEntries lib s req = (s, s.appendReply false) := by
  rw [handleAppendEntries, RaftState.adoptTerm_eq_self h.le]
  exact if_pos h

theorem handleAppendEntries_current {req : AppendEntriesRequest} (h : s.currentTerm ≤ req.term) :
    handleAppendEntries lib s req =
      let s' := s.follow req.term req.leaderId
      match s.checkPrevLog req.prevLogIndex req.prevLogTerm with
      | .reject => (s', s'.appendReply false)
      | .mismatch =>
        let t := { s' with log := s.log.take (req.prevLogIndex - s.logOffset - 1) }
        (t, t.appendReply false)
      | .accept =>
        let t := (s'.appendNewEntries lib req).updateCommitIndex req.leaderCommit
        (t, t.appendReply true) := by
  have hcur : ¬ req.term < (s.adoptTerm req.term).currentTerm := by
    rw [RaftState.adoptTerm_currentTerm, max_eq_right h]
    exact lt_irrefl _
  rw [handleAppendEntries]
  simp only [if_neg hcur]
  rw [← RaftState.follow, RaftState.follow_checkPrevLog, RaftState.follow_log,
    RaftState.follow_logOffset]

/-- The commit index only moves with an accepted request, to the sender's or to the end of the
log. -/
theorem handleAppendEntries_commitIndex (lib : WireLib) (s : RaftState)
    (req : AppendEntriesRequest) :
    (handleAppendEntries lib s req).1.commitIndex = s.commitIndex ∨
      (s.currentTerm ≤ req.term ∧ s.checkPrevLog req.prevLogIndex req.prevLogTerm = .accept ∧
        s.commitIndex < req.leaderCommit ∧ (handleAppendEntries lib s req).2.success = true ∧
        (handleAppendEntries lib s req).1.commitIndex =
          min req.leaderCommit (handleAppendEntries lib s req).1.lastLogIndex) := by
  rcases lt_or_ge req.term s.currentTerm with hlt | hge
  · rw [handleAppendEntries_stale hlt]
    exact .inl rfl
  · have hfollow : (s.follow req.term req.leaderId).commitIndex = s.commitIndex :=
      RaftState.follow_commitIndex
    rw [handleAppendEntries_current hge]
    cases hcheck : s.checkPrevLog req.prevLogIndex req.prevLogTerm with
    | reject => exact .inl hfollow
    | mismatch => exact .inl hfollow
    | accept =>
      have happend : ((s.follow req.term req.leaderId).appendNewEntries lib req).commitIndex =
          s.commitIndex := by
        rw [RaftState.appendNewEntries, RaftState.truncateAndAppend]
        split_ifs <;> exact hfollow
      simp only [RaftState.updateCommitIndex, happend]
      split_ifs with hlt
      · exact .inr ⟨hge, trivial, hlt, rfl, rfl⟩
      · exact .inl happend

/-- An accepted request leaves a commit index at least the sender's, as far as the log reaches. -/
theorem min_leaderCommit_le_commitIndex (lib : WireLib) {req : AppendEntriesRequest}
    (h : s.currentTerm ≤ req.term)
    (hcheck : s.checkPrevLog req.prevLogIndex req.prevLogTerm = .accept) :
    min req.leaderCommit (handleAppendEntries lib s req).1.lastLogIndex ≤
      (handleAppendEntries lib s req).1.commitIndex := by
  rw [handleAppendEntries_current h, hcheck]
  simp only [RaftState.updateCommitIndex]
  split_ifs with hlt
  · exact le_rfl
  · exact (min_le_left _ _).trans (not_lt.mp hlt)

end Cases
end NomadLite
