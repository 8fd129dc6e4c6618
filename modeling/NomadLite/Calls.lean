import NomadLite.Rpc

/-!
# Calls on one Raft state

The operations that the node's tasks run on the state they share, one call at a
time under the write lock. `KeepsVote` says what such a call may do to a vote: it
lasts until the term grows.
-/

namespace NomadLite

inductive Call where
  | appendEntry (command : Command)
  | getCommittedEntries
  | compactLog (lastIncludedTerm : ℕ) (jobs : List SnapshotJob) (workers : List ℕ)
  | requestVote (req : VoteRequest)
  | appendEntries (req : AppendEntriesRequest)
  | installSnapshot (req : InstallSnapshotRequest)
  | becomeCandidate (myId : ℕ)
deriving DecidableEq

/-- Compaction is at `last_applied`, with the state machines of that index. -/
def Call.exec (lib : WireLib) (s : RaftState) : Call → RaftState
  | .appendEntry command => s.appendEntry command
  | .getCommittedEntries => s.getCommittedEntries.1
  | .compactLog term jobs workers => s.compactLog ⟨s.lastApplied, term, jobs, workers⟩
  | .requestVote req => (handleRequestVote s req).1
  | .appendEntries req => (handleAppendEntries lib s req).1
  | .installSnapshot req => (handleInstallSnapshot lib s req).1
  | .becomeCandidate myId => s.becomeCandidate myId

def RaftState.KeepsVote (s s' : RaftState) : Prop :=
  s.currentTerm < s'.currentTerm ∨
    (s'.currentTerm = s.currentTerm ∧ (s.votedFor = none ∨ s'.votedFor = s.votedFor))

namespace RaftState

variable {s s' : RaftState}

theorem KeepsVote.of_eq (hterm : s'.currentTerm = s.currentTerm)
    (hvote : s'.votedFor = s.votedFor) : s.KeepsVote s' := .inr ⟨hterm, .inr hvote⟩

theorem KeepsVote.refl (s : RaftState) : s.KeepsVote s := .of_eq rfl rfl

theorem KeepsVote.votedFor_eq {c : ℕ} (h : s.KeepsVote s') (hterm : s'.currentTerm ≤ s.currentTerm)
    (hvote : s.votedFor = some c) : s'.votedFor = some c := by
  rcases h with h | ⟨-, h | h⟩
  · omega
  · rw [hvote] at h
    cases h
  · exact h.trans hvote

theorem KeepsVote.currentTerm_le (h : s.KeepsVote s') : s.currentTerm ≤ s'.currentTerm := by
  rcases h with h | ⟨h, -⟩ <;> omega

theorem keepsVote_adoptTerm (s : RaftState) (term : ℕ) : s.KeepsVote (s.adoptTerm term) := by
  rw [adoptTerm]
  split_ifs with h
  · exact .inl h
  · exact .refl s

theorem compactLog_currentTerm (s : RaftState) (snapshot : Snapshot) :
    (s.compactLog snapshot).currentTerm = s.currentTerm := by
  obtain ⟨log, logOffset, snap, hcompact⟩ := s.compactLog_eq snapshot
  rw [hcompact]

theorem keepsVote_compactLog (s : RaftState) (snapshot : Snapshot) :
    s.KeepsVote (s.compactLog snapshot) := by
  obtain ⟨log, logOffset, snap, hcompact⟩ := s.compactLog_eq snapshot
  rw [hcompact]
  exact .of_eq rfl rfl

def setLog (s : RaftState) (log : List LogEntry) (commitIndex : ℕ) : RaftState :=
  { s with log := log, commitIndex := commitIndex }

theorem appendNewEntries_eq (lib : WireLib) (s : RaftState) (req : AppendEntriesRequest) :
    ∃ log, s.appendNewEntries lib req = s.setLog log s.commitIndex := by
  rw [appendNewEntries, truncateAndAppend]
  split_ifs
  · exact ⟨s.log, rfl⟩
  · exact ⟨_, rfl⟩
  · exact ⟨_, rfl⟩

theorem updateCommitIndex_eq (s : RaftState) (leaderCommit : ℕ) :
    ∃ commitIndex, s.updateCommitIndex leaderCommit = s.setLog s.log commitIndex := by
  rw [updateCommitIndex]
  split_ifs
  · exact ⟨_, rfl⟩
  · exact ⟨s.commitIndex, rfl⟩

end RaftState

section Handlers

variable (lib : WireLib) {s : RaftState}

/-- Apart from the log and the commit index an accepted request only names its leader. -/
theorem handleAppendEntries_eq_setLog {req : AppendEntriesRequest} (h : s.currentTerm ≤ req.term) :
    ∃ log commitIndex, (handleAppendEntries lib s req).1 =
      (s.follow req.term req.leaderId).setLog log commitIndex := by
  rw [handleAppendEntries_current h]
  cases s.checkPrevLog req.prevLogIndex req.prevLogTerm with
  | reject => exact ⟨_, _, rfl⟩
  | mismatch => exact ⟨_, _, rfl⟩
  | accept =>
    obtain ⟨log, hlog⟩ := (s.follow req.term req.leaderId).appendNewEntries_eq lib req
    obtain ⟨commitIndex, hcommit⟩ :=
      ((s.follow req.term req.leaderId).appendNewEntries lib req).updateCommitIndex_eq
        req.leaderCommit
    refine ⟨log, commitIndex, hcommit.trans ?_⟩
    rw [hlog]
    rfl

theorem handleAppendEntries_follower {req : AppendEntriesRequest} (h : s.currentTerm ≤ req.term) :
    (handleAppendEntries lib s req).1.currentTerm = req.term ∧
      (handleAppendEntries lib s req).1.role = .follower ∧
      (handleAppendEntries lib s req).1.logOffset = s.logOffset ∧
      (handleAppendEntries lib s req).1.snapshot = s.snapshot := by
  obtain ⟨log, commitIndex, heq⟩ := handleAppendEntries_eq_setLog lib h
  have hrole : (s.follow req.term req.leaderId).role = .follower := RaftState.follow_role
  have hoff : (s.follow req.term req.leaderId).logOffset = s.logOffset :=
    RaftState.follow_logOffset
  have hsnap : (s.follow req.term req.leaderId).snapshot = s.snapshot := RaftState.follow_snapshot
  rw [heq]
  exact ⟨s.follow_currentTerm req.leaderId h, hrole, hoff, hsnap⟩

theorem keepsVote_handleRequestVote (s : RaftState) (req : VoteRequest) :
    s.KeepsVote (handleRequestVote s req).1 := by
  have hadopt := s.keepsVote_adoptTerm req.term
  rw [handleRequestVote]
  split_ifs with h₁ h₂ h₃
  · exact hadopt
  · exact hadopt
  · rcases hadopt with h | ⟨hterm, h | h⟩
    · exact .inl h
    · exact .inr ⟨hterm, .inl h⟩
    · refine .inr ⟨hterm, ?_⟩
      cases hv : s.votedFor with
      | none => exact .inl rfl
      | some c =>
        rw [h, hv] at h₂
        exact .inr (not_not.mp fun hne => h₂ ⟨rfl, fun heq => hne heq.symm⟩)
  · exact hadopt

theorem keepsVote_handleAppendEntries {req : AppendEntriesRequest}
    (h : req.term = s.currentTerm → s.role = .follower ∨ s.votedFor = none) :
    s.KeepsVote (handleAppendEntries lib s req).1 := by
  rcases lt_or_ge req.term s.currentTerm with hlt | hge
  · rw [handleAppendEntries_stale hlt]
    exact .refl s
  · obtain ⟨log, commitIndex, heq⟩ := handleAppendEntries_eq_setLog lib hge
    have hnew := s.follow_currentTerm req.leaderId hge
    rw [heq]
    rcases hge.lt_or_eq with hlt | hterm
    · exact .inl (hlt.trans_eq hnew.symm)
    · refine .inr ⟨hnew.trans hterm.symm, ?_⟩
      rcases h hterm.symm with hrole | hnone
      · exact .inr ((s.follow_votedFor req.leaderId hge).trans (if_pos ⟨hterm, hrole⟩))
      · exact .inl hnone

/-- Installing a snapshot changes neither the term, the vote nor the role that the adopted term
leaves. -/
theorem handleInstallSnapshot_ballot (s : RaftState) (req : InstallSnapshotRequest) :
    (handleInstallSnapshot lib s req).1.currentTerm = (s.adoptTerm req.term).currentTerm ∧
      (handleInstallSnapshot lib s req).1.votedFor = (s.adoptTerm req.term).votedFor ∧
      (handleInstallSnapshot lib s req).1.role = (s.adoptTerm req.term).role := by
  rw [handleInstallSnapshot]
  split_ifs
  · exact ⟨rfl, rfl, rfl⟩
  · simp only [RaftState.installSnapshot]
    split_ifs <;> exact ⟨rfl, rfl, rfl⟩

theorem keepsVote_handleInstallSnapshot (s : RaftState) (req : InstallSnapshotRequest) :
    s.KeepsVote (handleInstallSnapshot lib s req).1 := by
  obtain ⟨hterm, hvote, -⟩ := handleInstallSnapshot_ballot lib s req
  rw [RaftState.KeepsVote, hterm, hvote]
  exact s.keepsVote_adoptTerm req.term

end Handlers
end NomadLite
