import NomadLite.LogRequests
import NomadLite.Storage

/-!
# A node that persists its state

Every operation changes the state in memory and then writes what changed by a recipe
of its own: the hard state, a truncation followed by the entries from there on, a
truncation alone, one entry, or a snapshot. `Mirrors` relates the two after each
completed operation, as long as the entries stand at the positions of their indices.
-/

namespace NomadLite

open OrderedScan

namespace RaftState

def persisted (s : RaftState) : PersistedState :=
  ⟨s.currentTerm, s.votedFor, s.logOffset, s.snapshot, s.log⟩

def newWithStorage : Option PersistedState → RaftState
  | some p =>
    { RaftState.new with
      currentTerm := p.currentTerm
      votedFor := p.votedFor
      logOffset := p.logOffset
      log := p.log
      snapshot := p.snapshot
      commitIndex := (p.snapshot.map Snapshot.lastIncludedIndex).getD 0
      lastApplied := (p.snapshot.map Snapshot.lastIncludedIndex).getD 0 }
  | none => .new

def saveHardState (s : RaftState) : List DiskWrite :=
  Disk.saveHardState s.currentTerm s.votedFor s.logOffset

def saveSnapshot (s : RaftState) (d : Disk) : List DiskWrite :=
  match s.snapshot with
  | some snapshot => d.saveSnapshot snapshot s.logOffset
  | none => []

end RaftState

/-- The operations of a node on its state. `stepDown` is what a reply with a term above a captured
one, or a finished transfer of leadership, leads to, and `maybeCompactLog` the part of the function
behind its last lock, with the index and the term that the part before has read. -/
inductive DurableOp where
  | handleVoteRequest (req : VoteRequest)
  | handleAppendEntries (req : AppendEntriesRequest)
  | handleInstallSnapshot (req : InstallSnapshotRequest)
  | handleAppendCommand (command : Command)
  | startElection (myId : ℕ)
  | finishElection (myId : ℕ) (peerIds : List ℕ) (term voteCount : ℕ)
  | stepDown (term : ℕ)
  | handleAppendReply (peer : ℕ) (resp : AppendEntriesResponse)
  | handleSnapshotReply (peer lastIncludedIndex : ℕ) (resp : InstallSnapshotResponse)
  | getCommittedEntries
  | maybeCompactLog (lastApplied lastAppliedTerm : ℕ) (jobs : List SnapshotJob)
      (workers : List ℕ)
deriving DecidableEq

namespace RaftState

def finishElection (s : RaftState) (myId : ℕ) (peerIds : List ℕ) (term voteCount : ℕ) :
    RaftState :=
  if s.role = .candidate ∧ s.currentTerm = term then
    let s := { s with votesReceived := voteCount }
    if (peerIds.length + 1) / 2 + 1 ≤ voteCount then s.becomeLeader myId peerIds else s
  else s

def handleAppendReply (s : RaftState) (peer : ℕ) (resp : AppendEntriesResponse) : RaftState :=
  if s.currentTerm < resp.term then s.becomeFollower resp.term
  else if s.role = .leader ∧ resp.success then
    let s := s.recordMatch peer resp.matchIndex
    if s.mayCommit s.majorityIndex then { s with commitIndex := s.majorityIndex } else s
  else if s.role = .leader ∧ ¬resp.success then s.decrementNext peer
  else s

def handleSnapshotReply (s : RaftState) (peer lastIncludedIndex : ℕ)
    (resp : InstallSnapshotResponse) : RaftState :=
  if s.currentTerm < resp.term then s.becomeFollower resp.term
  else s.recordMatch peer lastIncludedIndex

end RaftState

def RaftState.cutFrom (s : RaftState) (req : AppendEntriesRequest) : Option ℕ :=
  if s.currentTerm ≤ req.term then
    match s.checkPrevLog req.prevLogIndex req.prevLogTerm with
    | .reject => none
    | .mismatch => some req.prevLogIndex
    | .accept => if req.entries = [] then none else some (req.prevLogIndex + 1)
  else none

namespace DurableOp

variable (lib : WireLib)

def exec (s : RaftState) : DurableOp → RaftState
  | handleVoteRequest req => (handleRequestVote s req).1
  | handleAppendEntries req => (NomadLite.handleAppendEntries lib s req).1
  | handleInstallSnapshot req => (NomadLite.handleInstallSnapshot lib s req).1
  | handleAppendCommand command => if s.role = .leader then s.appendEntry command else s
  | startElection myId => s.becomeCandidate myId
  | finishElection myId peerIds term voteCount => s.finishElection myId peerIds term voteCount
  | stepDown term => s.becomeFollower term
  | handleAppendReply peer resp => s.handleAppendReply peer resp
  | handleSnapshotReply peer lastIncludedIndex resp =>
    s.handleSnapshotReply peer lastIncludedIndex resp
  | getCommittedEntries => s.getCommittedEntries.1
  | maybeCompactLog lastApplied lastAppliedTerm jobs workers =>
    s.compactLog ⟨lastApplied, lastAppliedTerm, jobs, workers⟩

/-- Accepted entries: the log is written anew from their first index on. A request refused for a
conflict: the log is cut as in memory. -/
def appendEntriesWrites (s : RaftState) (d : Disk) (req : AppendEntriesRequest) :
    List DiskWrite :=
  let r := NomadLite.handleAppendEntries lib s req
  r.1.saveHardState ++
    if r.2.success = true ∧ req.entries ≠ [] then
      d.truncateFrom (req.prevLogIndex + 1) ++
        (r.1.getEntriesFrom (req.prevLogIndex + 1)).map .putEntry
    else if r.2.success = false ∧ r.1.lastLogIndex < s.lastLogIndex then
      d.truncateFrom (r.1.lastLogIndex + 1)
    else []

end DurableOp

/-- A write, or a truncation that has not yet collected the keys it deletes. -/
inductive StorageStep where
  | write (w : DiskWrite)
  | truncateFrom (fromIndex : ℕ)
deriving DecidableEq

/-- The storage calls of `handle_append_entries`, of which `appendEntriesWrites` is the outcome
when nothing else is written in between. -/
def appendEntriesSteps (lib : WireLib) (s : RaftState) (req : AppendEntriesRequest) :
    List StorageStep :=
  let r := handleAppendEntries lib s req
  r.1.saveHardState.map .write ++
    if r.2.success = true ∧ req.entries ≠ [] then
      .truncateFrom (req.prevLogIndex + 1) ::
        (r.1.getEntriesFrom (req.prevLogIndex + 1)).map fun e => .write (.putEntry e)
    else if r.2.success = false ∧ r.1.lastLogIndex < s.lastLogIndex then
      [.truncateFrom (r.1.lastLogIndex + 1)]
    else []

namespace DurableOp

variable (lib : WireLib)

def installSnapshotWrites (s : RaftState) (d : Disk) (req : InstallSnapshotRequest) :
    List DiskWrite :=
  let s' := (NomadLite.handleInstallSnapshot lib s req).1
  s'.saveHardState ++
    if req.lastIncludedIndex ≤ s'.logOffset then s'.saveSnapshot d else []

/-- A reply with a greater term is the only one that is written. -/
def replyWrites (s : RaftState) (term : ℕ) : List DiskWrite :=
  if s.currentTerm < term then (s.becomeFollower term).saveHardState else []

def writes (s : RaftState) (d : Disk) : DurableOp → List DiskWrite
  | handleVoteRequest req => (handleRequestVote s req).1.saveHardState
  | handleAppendEntries req => appendEntriesWrites lib s d req
  | handleInstallSnapshot req => installSnapshotWrites lib s d req
  | handleAppendCommand command =>
    if s.role = .leader then Disk.appendEntry (s.newEntry command) else []
  | startElection myId => (s.becomeCandidate myId).saveHardState
  | finishElection .. => []
  | stepDown term => (s.becomeFollower term).saveHardState
  | handleAppendReply _ resp => replyWrites s resp.term
  | handleSnapshotReply _ _ resp => replyWrites s resp.term
  | getCommittedEntries => []
  | maybeCompactLog lastApplied lastAppliedTerm jobs workers =>
    (s.compactLog ⟨lastApplied, lastAppliedTerm, jobs, workers⟩).saveSnapshot d

def savesHardState (s : RaftState) : DurableOp → Bool
  | handleVoteRequest _ | handleAppendEntries _ | handleInstallSnapshot _ | startElection _
  | stepDown _ => true
  | handleAppendReply _ resp => s.currentTerm < resp.term
  | handleSnapshotReply _ _ resp => s.currentTerm < resp.term
  | handleAppendCommand _ | finishElection .. | getCommittedEntries | maybeCompactLog .. => false

/-- The index that a compaction has read was the last applied one then or before. -/
def Enabled (s : RaftState) : DurableOp → Prop
  | maybeCompactLog lastApplied .. => lastApplied ≠ 0 ∧ lastApplied ≤ s.lastApplied
  | _ => True

/-- The word that the operation, or a key of its writes, counts on from. -/
def counter (s : RaftState) : DurableOp → Option ℕ
  | handleAppendEntries req => req.prevLogIndex
  | handleInstallSnapshot req => req.lastIncludedIndex
  | handleAppendCommand _ => s.lastLogIndex
  | startElection _ => s.currentTerm
  | maybeCompactLog lastApplied .. => lastApplied
  | handleVoteRequest _ | finishElection .. | stepDown _ | handleAppendReply ..
  | handleSnapshotReply .. | getCommittedEntries => none

def Fits (s : RaftState) (op : DurableOp) : Prop := ∀ n ∈ op.counter s, n + 1 < MachineWord.u64

instance (s : RaftState) : (op : DurableOp) → Decidable (op.Enabled s)
  | maybeCompactLog .. => inferInstanceAs (Decidable (_ ∧ _))
  | handleVoteRequest _ | handleAppendEntries _ | handleInstallSnapshot _ | handleAppendCommand _
  | startElection _ | finishElection .. | stepDown _ | handleAppendReply ..
  | handleSnapshotReply .. | getCommittedEntries => isTrue trivial

instance (s : RaftState) (op : DurableOp) : Decidable (op.Fits s) :=
  inferInstanceAs (Decidable (∀ n ∈ op.counter s, _))

end DurableOp

structure DurableNode where
  state : RaftState
  disk : Disk
deriving DecidableEq

namespace DurableNode

def start : DurableNode := ⟨.new, .empty⟩

def step (lib : WireLib) (nd : DurableNode) (op : DurableOp) : Option DurableNode :=
  if op.Enabled nd.state then
    some ⟨op.exec lib nd.state, nd.disk.writeAll (op.writes lib nd.state nd.disk)⟩
  else none

end DurableNode

/-! ### Disk and memory -/

structure MirrorsLog (s : RaftState) (d : Disk) : Prop where
  snapshot : d.snapshot = s.snapshot
  log : ∀ j, d.log.lookup (s.logOffset + 1 + j) = s.log[j]?

structure Mirrors (s : RaftState) (d : Disk) : Prop extends MirrorsLog s d where
  term : d.term = some s.currentTerm
  votedFor : d.votedFor.getD none = s.votedFor
  logOffset : d.logOffset.getD 0 = s.logOffset

theorem Mirrors.load {s : RaftState} {d : Disk} (h : Mirrors s d) : d.load = some s.persisted := by
  rw [Disk.load, h.term, Option.map_some, h.votedFor, h.logOffset, h.snapshot,
    scanFrom_eq h.log]
  rfl

namespace MirrorsLog

variable {s s' : RaftState} {d d' : Disk}

theorem of_eq (h : MirrorsLog s d) (hoff : s'.logOffset = s.logOffset) (hlog : s'.log = s.log)
    (hsnap : s'.snapshot = s.snapshot) : MirrorsLog s' d :=
  ⟨h.snapshot.trans hsnap.symm, by rw [hoff, hlog]; exact h.log⟩

theorem mirrors (h : MirrorsLog s' d') (hd : (d.writeAll s'.saveHardState).SameHead d') :
    Mirrors s' d' :=
  ⟨h, hd.term, by rw [hd.votedFor]; rfl, by rw [hd.logOffset]; rfl⟩

theorem saveHardState (h : MirrorsLog s d) (s' : RaftState) :
    MirrorsLog s (d.writeAll s'.saveHardState) :=
  ⟨h.snapshot, h.log⟩

theorem mirrors_of_eq (h : MirrorsLog s d) (hoff : s'.logOffset = s.logOffset)
    (hlog : s'.log = s.log) (hsnap : s'.snapshot = s.snapshot) :
    Mirrors s' (d.writeAll s'.saveHardState) :=
  ((h.of_eq hoff hlog hsnap).saveHardState s').mirrors (.refl _)

end MirrorsLog
end NomadLite
