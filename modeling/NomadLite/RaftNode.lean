import NomadLite.Rpc
import Mathlib.Data.List.Sort

/-!
# One Raft node and its tasks

The raft loop, the heartbeat task, the spawned reply handlers and the RPC server
share one `RaftState` behind a lock and release it while they await a reply. An
`Event` is what happens under one acquisition of that lock; what a task keeps
across an await is a field of the node. Messages are handed to the network, so a
request and its reply may be delayed, lost or seen again.
-/

namespace NomadLite

/-- Empty keep-alives and log replication use the same RPC but handle its reply differently. -/
inductive AppendKind where
  | heartbeat
  | replication
deriving DecidableEq

/-- A reply travels with the request it answers: the task that sent it still holds the request. -/
inductive Message where
  | voteRequest (req : VoteRequest)
  | voteReply (req : VoteRequest) (resp : VoteResponse)
  | appendEntries (kind : AppendKind) (req : AppendEntriesRequest)
  | appendReply (kind : AppendKind) (req : AppendEntriesRequest) (resp : AppendEntriesResponse)
  | installSnapshot (req : InstallSnapshotRequest)
  | snapshotReply (req : InstallSnapshotRequest) (resp : InstallSnapshotResponse)
  | timeoutNow (req : TimeoutNowRequest)
  | timeoutNowReply (req : TimeoutNowRequest) (resp : TimeoutNowResponse)
deriving DecidableEq

/-- A running `start_election`: the peers not asked yet, the awaited one first, and the
`TimeoutNow` call that waits for its end. -/
structure Election where
  request : VoteRequest
  pending : List ℕ
  voteCount : ℕ
  caller : Option (ℕ × TimeoutNowRequest)
deriving DecidableEq

/-- A running `handle_transfer_leadership`, with the term and last index it started from. -/
structure Transfer where
  target : ℕ
  term : ℕ
  leaderLastIndex : ℕ
  sent : Bool
deriving DecidableEq

structure Compaction where
  lastApplied : ℕ
  lastAppliedTerm : ℕ
deriving DecidableEq

structure RaftNode where
  id : ℕ
  peers : List ℕ
  state : RaftState
  elections : List Election
  timeoutNows : List (ℕ × TimeoutNowRequest)
  transfer : Option Transfer
  compaction : Option Compaction
  pendingSnapshot : Option Snapshot
  commitNotify : ℕ
deriving DecidableEq

/-- What a step leaves on record: a won election, a commit by the majority rule, and the
entries handed to the apply loop. -/
inductive Note where
  | becameLeader (s : RaftState)
  | advancedCommit (s : RaftState)
  | applied (entries : List LogEntry)
deriving DecidableEq

inductive Event where
  | deliver (task src : ℕ) (msg : Message)
  | electionTimeout (order : List ℕ)
  | timeoutNowElection (task : ℕ) (order : List ℕ)
  | voteFailed (task : ℕ)
  | finishElection (task : ℕ)
  | heartbeatTick
  | replicateTick
  | appendCommand (command : Command)
  | startTransfer (targetId : Option ℕ) (choice : ℕ)
  | transferPoll
  | transferFailed
  | getCommittedEntries
  | beginCompaction
  | finishCompaction (jobs : List SnapshotJob) (workers : List ℕ)
deriving DecidableEq

structure Effect where
  node : RaftNode
  sent : List (ℕ × Message)
  notes : List Note
deriving DecidableEq

/-- The values of the map in increasing order; the source sorts them or takes their minimum. -/
def IndexMap.sortedValues (m : IndexMap) : List ℕ :=
  m.liftOn (fun al => (al.entries.map Sigma.snd).insertionSort (· ≤ ·)) fun _ _ h =>
    List.Perm.eq_of_pairwise' (r := (· ≤ ·)) (List.pairwise_insertionSort _ _)
      (List.pairwise_insertionSort _ _)
      ((List.perm_insertionSort _ _).trans
        ((h.map Sigma.snd).trans (List.perm_insertionSort _ _).symm))

namespace RaftState

/-- The entry in the middle of the sorted match indices, the leader's own last index included. -/
def majorityIndex (s : RaftState) : ℕ :=
  let matchIndices := (s.matchIndex.sortedValues ++ [s.lastLogIndex]).insertionSort (· ≤ ·)
  matchIndices.getD (matchIndices.length / 2) 0

def mayCommit (s : RaftState) (index : ℕ) : Prop :=
  s.commitIndex < index ∧ (s.getEntry index).map LogEntry.term = some s.currentTerm

instance (s : RaftState) (index : ℕ) : Decidable (s.mayCommit index) :=
  inferInstanceAs (Decidable (_ ∧ _))

def recordMatch (s : RaftState) (peer matchIndex : ℕ) : RaftState :=
  { s with
    matchIndex := s.matchIndex.insert peer matchIndex
    nextIndex := s.nextIndex.insert peer (matchIndex + 1) }

def decrementNext (s : RaftState) (peer : ℕ) : RaftState :=
  let current := (s.nextIndex.lookup peer).getD 1
  if 1 < current then { s with nextIndex := s.nextIndex.insert peer (current - 1) } else s

theorem decrementNext_eq (s : RaftState) (peer : ℕ) :
    ∃ nextIndex, s.decrementNext peer = { s with nextIndex := nextIndex } := by
  simp only [decrementNext]
  split_ifs
  · exact ⟨_, rfl⟩
  · exact ⟨s.nextIndex, rfl⟩

def prevLogTerm (s : RaftState) (logEntries : List LogEntry) (prevLogIndex : ℕ) : ℕ :=
  if prevLogIndex = 0 then 0
  else if prevLogIndex = s.logOffset then (s.snapshot.map Snapshot.lastIncludedTerm).getD 0
  else ((logEntries.find? (fun e => e.index = prevLogIndex)).map LogEntry.term).getD 0

end RaftState

section Replication

variable (lib : WireLib)

def Snapshot.toRequest (snapshot : Snapshot) (term leaderId : ℕ) : InstallSnapshotRequest :=
  ⟨term, leaderId, snapshot.lastIncludedIndex, snapshot.lastIncludedTerm,
    snapshot.jobs.map (snapshotJobToProto lib), snapshot.workers⟩

namespace RaftState

def replicationEntries (s : RaftState) : List LogEntry :=
  let minNextIndex := s.nextIndex.sortedValues.head?.getD 1
  s.getEntriesFrom (max (minNextIndex - 1) (s.logOffset + 1))

def appendRequest (s : RaftState) (myId peerNextIndex : ℕ) : AppendEntriesRequest where
  term := s.currentTerm
  leaderId := myId
  prevLogIndex := peerNextIndex - 1
  prevLogTerm := s.prevLogTerm s.replicationEntries (peerNextIndex - 1)
  entries := (s.replicationEntries.filter (fun e => peerNextIndex ≤ e.index)).map
    (logEntryToProto lib)
  leaderCommit := s.commitIndex

def replicationMessage (s : RaftState) (myId peer : ℕ) : Option Message :=
  let peerNextIndex := (s.nextIndex.lookup peer).getD 1
  match if peerNextIndex ≤ s.logOffset then s.snapshot else none with
  | some snapshot => some (.installSnapshot (snapshot.toRequest lib s.currentTerm myId))
  | none =>
    let req := s.appendRequest lib myId peerNextIndex
    if req.entries = [] ∧ s.commitIndex ≤ (s.matchIndex.lookup peer).getD 0 then none
    else some (.appendEntries .replication req)

def heartbeatRequest (s : RaftState) (myId : ℕ) : AppendEntriesRequest :=
  ⟨s.currentTerm, myId, 0, 0, [], s.commitIndex⟩

end RaftState
end Replication

end NomadLite
