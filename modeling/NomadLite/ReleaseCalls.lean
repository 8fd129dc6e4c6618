import NomadLite.Calls
import NomadLite.MachineWord
import NomadLite.Runs

/-!
# Calls on 64-bit words

Indices and terms are `u64`s, and four calls add one to such a word: to the last index
of the log, to `prev_log_index`, to `last_included_index` and to `current_term`. A
release build wraps there. `Release.exec` computes as that build does. It is the
arithmetic of the natural numbers as long as the word `2 ^ 64 - 1` is never counted on.
-/

namespace NomadLite

open MachineWord

namespace Release

def appendEntry (s : RaftState) (command : Command) : RaftState :=
  { s with log := s.log ++ [⟨s.currentTerm, wrappingAdd u64 s.lastLogIndex 1, command⟩] }

def installSnapshot (s : RaftState) (snapshot : Snapshot) : RaftState × Bool :=
  if snapshot.lastIncludedIndex ≤ s.logOffset then (s, false)
  else
    ({ s with
      log := s.log.filter (fun e => wrappingAdd u64 snapshot.lastIncludedIndex 1 ≤ e.index)
      logOffset := snapshot.lastIncludedIndex
      commitIndex := max s.commitIndex snapshot.lastIncludedIndex
      lastApplied := max s.lastApplied snapshot.lastIncludedIndex
      snapshot := some snapshot }, true)

def becomeCandidate (s : RaftState) (myId : ℕ) : RaftState :=
  { s with
    role := .candidate
    currentTerm := wrappingAdd u64 s.currentTerm 1
    votedFor := some myId
    votesReceived := 1
    leaderId := none }

section Handlers

variable (lib : WireLib)

def appendNewEntries (s : RaftState) (req : AppendEntriesRequest) : RaftState :=
  if req.entries = [] then s
  else s.truncateAndAppend (wrappingAdd u64 req.prevLogIndex 1) (decodeEntries lib req.entries)

def handleAppendEntries (s : RaftState) (req : AppendEntriesRequest) :
    RaftState × AppendEntriesResponse :=
  let s := s.adoptTerm req.term
  if req.term < s.currentTerm then (s, s.appendReply false)
  else
    let s := s.acceptLeader req.term req.leaderId
    match s.checkPrevLog req.prevLogIndex req.prevLogTerm with
    | .reject => (s, s.appendReply false)
    | .mismatch =>
      let s := { s with log := s.log.take (req.prevLogIndex - s.logOffset - 1) }
      (s, s.appendReply false)
    | .accept =>
      let s := (appendNewEntries lib s req).updateCommitIndex req.leaderCommit
      (s, s.appendReply true)

def handleInstallSnapshot (s : RaftState) (req : InstallSnapshotRequest) :
    RaftState × InstallSnapshotResponse :=
  let s := s.adoptTerm req.term
  if req.term < s.currentTerm then (s, ⟨s.currentTerm⟩)
  else
    let s := { s with leaderId := some req.leaderId }
    let s := (installSnapshot s (req.toSnapshot lib)).1
    (s, ⟨s.currentTerm⟩)

def exec (s : RaftState) : Call → RaftState
  | .appendEntry command => appendEntry s command
  | .getCommittedEntries => s.getCommittedEntries.1
  | .compactLog term jobs workers => s.compactLog ⟨s.lastApplied, term, jobs, workers⟩
  | .requestVote req => (handleRequestVote s req).1
  | .appendEntries req => (handleAppendEntries lib s req).1
  | .installSnapshot req => (handleInstallSnapshot lib s req).1
  | .becomeCandidate myId => becomeCandidate s myId

end Handlers
end Release

def Call.step (lib : WireLib) (s : RaftState) (call : Call) : Option RaftState :=
  some (Release.exec lib s call)

/-- The word that the call counts on from, if it does. -/
def Call.counter (s : RaftState) : Call → Option ℕ
  | .appendEntry _ => s.lastLogIndex
  | .appendEntries req => req.prevLogIndex
  | .installSnapshot req => req.lastIncludedIndex
  | .becomeCandidate _ => s.currentTerm
  | .getCommittedEntries | .compactLog .. | .requestVote _ => none

def Call.Fits (s : RaftState) (call : Call) : Prop := ∀ n ∈ call.counter s, n + 1 < u64

instance (s : RaftState) (call : Call) : Decidable (call.Fits s) :=
  inferInstanceAs (Decidable (∀ n ∈ call.counter s, _))

namespace Release

variable {lib : WireLib} {s : RaftState}

theorem handleAppendEntries_eq {req : AppendEntriesRequest} (h : req.prevLogIndex + 1 < u64) :
    handleAppendEntries lib s req = NomadLite.handleAppendEntries lib s req := by
  have happend : ∀ t : RaftState, appendNewEntries lib t req = t.appendNewEntries lib req :=
    fun t => by rw [appendNewEntries, RaftState.appendNewEntries, wrappingAdd_eq u64 h]
  simp only [handleAppendEntries, happend]
  rfl

theorem installSnapshot_eq {snapshot : Snapshot} (h : snapshot.lastIncludedIndex + 1 < u64) :
    installSnapshot s snapshot = s.installSnapshot snapshot := by
  rw [installSnapshot, RaftState.installSnapshot, wrappingAdd_eq u64 h]

theorem handleInstallSnapshot_eq {req : InstallSnapshotRequest}
    (h : req.lastIncludedIndex + 1 < u64) :
    handleInstallSnapshot lib s req = NomadLite.handleInstallSnapshot lib s req := by
  have hfits : (req.toSnapshot lib).lastIncludedIndex + 1 < u64 := h
  simp only [handleInstallSnapshot, installSnapshot_eq hfits]
  rfl

/-- Where the counted word fits, the build computes as the natural numbers do. -/
theorem exec_eq {call : Call} (h : call.Fits s) : exec lib s call = call.exec lib s := by
  cases call with
  | appendEntry command =>
    rw [exec, appendEntry, wrappingAdd_eq u64 (h _ rfl)]
    rfl
  | becomeCandidate myId =>
    rw [exec, becomeCandidate, wrappingAdd_eq u64 (h _ rfl)]
    rfl
  | appendEntries req => exact congrArg Prod.fst (handleAppendEntries_eq (h _ rfl))
  | installSnapshot req => exact congrArg Prod.fst (handleInstallSnapshot_eq (h _ rfl))
  | getCommittedEntries | compactLog | requestVote => rfl

theorem updateCommitIndex_ballot (s : RaftState) (leaderCommit : ℕ) :
    (s.updateCommitIndex leaderCommit).currentTerm = s.currentTerm ∧
      (s.updateCommitIndex leaderCommit).votedFor = s.votedFor := by
  rw [RaftState.updateCommitIndex]
  split_ifs <;> exact ⟨rfl, rfl⟩

theorem truncateAndAppend_ballot (s : RaftState) (fromIndex : ℕ) (entries : List LogEntry) :
    (s.truncateAndAppend fromIndex entries).currentTerm = s.currentTerm ∧
      (s.truncateAndAppend fromIndex entries).votedFor = s.votedFor := by
  rw [RaftState.truncateAndAppend]
  split_ifs <;> exact ⟨rfl, rfl⟩

/-- Only a candidacy counts on from the term: a wrapped index has no effect on term and vote. -/
theorem exec_ballot (lib : WireLib) (s : RaftState) {call : Call}
    (h : ∀ myId, call ≠ .becomeCandidate myId) :
    (exec lib s call).currentTerm = (call.exec lib s).currentTerm ∧
      (exec lib s call).votedFor = (call.exec lib s).votedFor := by
  cases call with
  | becomeCandidate myId => exact absurd rfl (h myId)
  | appendEntries req =>
    simp only [exec, Call.exec, handleAppendEntries, NomadLite.handleAppendEntries]
    split_ifs
    · exact ⟨rfl, rfl⟩
    · cases ((s.adoptTerm req.term).acceptLeader req.term req.leaderId).checkPrevLog
        req.prevLogIndex req.prevLogTerm with
      | reject => exact ⟨rfl, rfl⟩
      | mismatch => exact ⟨rfl, rfl⟩
      | accept =>
        simp only [updateCommitIndex_ballot, appendNewEntries, RaftState.appendNewEntries]
        split_ifs
        · exact ⟨rfl, rfl⟩
        · simp only [truncateAndAppend_ballot, and_self]
  | installSnapshot req =>
    simp only [exec, Call.exec, handleInstallSnapshot, NomadLite.handleInstallSnapshot,
      installSnapshot, RaftState.installSnapshot]
    split_ifs <;> exact ⟨rfl, rfl⟩
  | appendEntry | getCommittedEntries | compactLog | requestVote => exact ⟨rfl, rfl⟩

end Release
end NomadLite
