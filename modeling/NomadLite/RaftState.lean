import NomadLite.RaftLog

/-!
# The Raft state and its log operations

Every index is a `u64` of the source read as a natural number. The subtractions
of `logOffset` below only happen after the comparison that makes them exact.
-/

namespace NomadLite

inductive RaftRole where
  | follower
  | candidate
  | leader
deriving DecidableEq

/-- A `HashMap<u64, u64>` of the leader, keyed by peer. -/
abbrev IndexMap := Finmap (fun _ : ℕ => ℕ)

structure RaftState where
  currentTerm : ℕ
  votedFor : Option ℕ
  log : List LogEntry
  commitIndex : ℕ
  lastApplied : ℕ
  nextIndex : IndexMap
  matchIndex : IndexMap
  role : RaftRole
  leaderId : Option ℕ
  votesReceived : ℕ
  logOffset : ℕ
  snapshot : Option Snapshot
deriving DecidableEq

namespace RaftState

def new : RaftState where
  currentTerm := 0
  votedFor := none
  log := []
  commitIndex := 0
  lastApplied := 0
  nextIndex := ∅
  matchIndex := ∅
  role := .follower
  leaderId := none
  votesReceived := 0
  logOffset := 0
  snapshot := none

def lastLogIndex (s : RaftState) : ℕ :=
  (s.log.getLast?.map LogEntry.index).getD s.logOffset

def lastLogTerm (s : RaftState) : ℕ :=
  (s.log.getLast?.map LogEntry.term).getD ((s.snapshot.map Snapshot.lastIncludedTerm).getD 0)

def getEntry (s : RaftState) (index : ℕ) : Option LogEntry :=
  if index = 0 ∨ index ≤ s.logOffset then none else s.log[index - s.logOffset - 1]?

def getEntriesFrom (s : RaftState) (startIndex : ℕ) : List LogEntry :=
  let effectiveStart := if startIndex = 0 then s.logOffset + 1 else max startIndex (s.logOffset + 1)
  if s.lastLogIndex < effectiveStart then []
  else if s.log.length ≤ effectiveStart - s.logOffset - 1 then []
  else s.log.drop (effectiveStart - s.logOffset - 1)

def newEntry (s : RaftState) (command : Command) : LogEntry :=
  ⟨s.currentTerm, s.lastLogIndex + 1, command⟩

def appendEntry (s : RaftState) (command : Command) : RaftState :=
  { s with log := s.log ++ [s.newEntry command] }

def truncateAndAppend (s : RaftState) (fromIndex : ℕ) (entries : List LogEntry) : RaftState :=
  if fromIndex ≤ s.logOffset then { s with log := entries }
  else { s with log := s.log.take (fromIndex - s.logOffset - 1) ++ entries }

/-- Drops by count: the entries up to the snapshot's index are not looked at. -/
def compactLog (s : RaftState) (snapshot : Snapshot) : RaftState :=
  if snapshot.lastIncludedIndex ≤ s.logOffset then s
  else
    { s with
      log := s.log.drop (snapshot.lastIncludedIndex - s.logOffset)
      logOffset := snapshot.lastIncludedIndex
      snapshot := some snapshot }

theorem compactLog_eq (s : RaftState) (snap : Snapshot) : ∃ log logOffset snapshot,
    s.compactLog snap =
      { s with log := log, logOffset := logOffset, snapshot := snapshot } := by
  rw [compactLog]
  split_ifs
  · exact ⟨s.log, s.logOffset, s.snapshot, rfl⟩
  · exact ⟨_, _, _, rfl⟩

/-- Drops by index, and reports whether the snapshot was newer than the state. -/
def installSnapshot (s : RaftState) (snapshot : Snapshot) : RaftState × Bool :=
  if snapshot.lastIncludedIndex ≤ s.logOffset then (s, false)
  else
    ({ s with
      log := s.log.filter (fun e => snapshot.lastIncludedIndex + 1 ≤ e.index)
      logOffset := snapshot.lastIncludedIndex
      commitIndex := max s.commitIndex snapshot.lastIncludedIndex
      lastApplied := max s.lastApplied snapshot.lastIncludedIndex
      snapshot := some snapshot }, true)

def isLogUpToDate (s : RaftState) (lastLogIndex lastLogTerm : ℕ) : Bool :=
  s.lastLogTerm < lastLogTerm ∨ (lastLogTerm = s.lastLogTerm ∧ s.lastLogIndex ≤ lastLogIndex)

def becomeFollower (s : RaftState) (term : ℕ) : RaftState :=
  { s with role := .follower, currentTerm := term, votedFor := none, votesReceived := 0 }

def becomeCandidate (s : RaftState) (myId : ℕ) : RaftState :=
  { s with
    role := .candidate
    currentTerm := s.currentTerm + 1
    votedFor := some myId
    votesReceived := 1
    leaderId := none }

def becomeLeader (s : RaftState) (myId : ℕ) (peerIds : List ℕ) : RaftState :=
  { s with
    role := .leader
    leaderId := some myId
    nextIndex := peerIds.foldl (fun m p => m.insert p (s.lastLogIndex + 1)) ∅
    matchIndex := peerIds.foldl (fun m p => m.insert p 0) ∅ }

/-- Moves `lastApplied` up to `commitIndex` one index at a time and collects the entries
found on the way; an index without an entry is passed over. -/
def getCommittedEntries (s : RaftState) : RaftState × List LogEntry :=
  ({ s with lastApplied := max s.lastApplied s.commitIndex },
    (List.range' (s.lastApplied + 1) (s.commitIndex - s.lastApplied)).filterMap s.getEntry)

end RaftState
end NomadLite
