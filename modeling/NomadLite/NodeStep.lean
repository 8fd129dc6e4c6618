import NomadLite.RaftNode

/-!
# The steps of a Raft node

One definition for each piece of a task that runs under the lock, and `step`, which
selects it by the event. A step that the code cannot take in a state is `none`.
-/

namespace NomadLite

namespace RaftNode

def new (id : ℕ) (peers : List ℕ) : RaftNode where
  id := id
  peers := peers
  state := .new
  elections := []
  timeoutNows := []
  transfer := none
  compaction := none
  pendingSnapshot := none
  commitNotify := 0

def withState (nd : RaftNode) (s : RaftState) : RaftNode := { nd with state := s }

def notifyCommit (nd : RaftNode) : RaftNode := { nd with commitNotify := nd.commitNotify + 1 }

/-! ### Elections -/

def majority (nd : RaftNode) : ℕ := (nd.peers.length + 1) / 2 + 1

/-- `start_election` up to its first await: `order` is the iteration order over the connected
peers. -/
def startElection (nd : RaftNode) (order : List ℕ) (caller : Option (ℕ × TimeoutNowRequest)) :
    Option Effect :=
  if order.Nodup ∧ ∀ p ∈ order, p ∈ nd.peers then
    let s := nd.state.becomeCandidate nd.id
    let req : VoteRequest := ⟨s.currentTerm, nd.id, s.lastLogIndex, s.lastLogTerm⟩
    some
      { node := { nd with state := s, elections := nd.elections ++ [⟨req, order, 1, caller⟩] }
        sent := order.map fun p => (p, .voteRequest req)
        notes := [] }
  else none

def endElection (nd : RaftNode) (task : ℕ) (election : Election) (s : RaftState)
    (notes : List Note) : Effect where
  node := { nd with state := s, elections := nd.elections.eraseIdx task }
  sent := election.caller.toList.map fun (src, req) =>
    (src, .timeoutNowReply req ⟨s.currentTerm, true⟩)
  notes := notes

def setElection (nd : RaftNode) (task : ℕ) (election : Election) : RaftNode :=
  { nd with elections := nd.elections.set task election }

def handleVoteReply (nd : RaftNode) (task src : ℕ) (req : VoteRequest) (resp : VoteResponse) :
    Option Effect :=
  match nd.elections[task]? with
  | none => none
  | some election =>
    if election.request = req ∧ election.pending.head? = some src then
      if req.term < resp.term then
        some (nd.endElection task election (nd.state.becomeFollower resp.term) [])
      else
        let voteCount := if resp.voteGranted then election.voteCount + 1 else election.voteCount
        let election := { election with pending := election.pending.tail, voteCount := voteCount }
        some ⟨nd.setElection task election, [], []⟩
    else none

def voteFailed (nd : RaftNode) (task : ℕ) : Option Effect :=
  match nd.elections[task]? with
  | none => none
  | some election =>
    if election.pending = [] then none
    else some ⟨nd.setElection task { election with pending := election.pending.tail }, [], []⟩

def finishElection (nd : RaftNode) (task : ℕ) : Option Effect :=
  match nd.elections[task]? with
  | none => none
  | some election =>
    if election.pending = [] then
      if nd.state.role = .candidate ∧ nd.state.currentTerm = election.request.term then
        let s := { nd.state with votesReceived := election.voteCount }
        if nd.majority ≤ election.voteCount then
          let s := s.becomeLeader nd.id nd.peers
          some (nd.endElection task election s [.becameLeader s])
        else some (nd.endElection task election s [])
      else some (nd.endElection task election nd.state [])
    else none

/-! ### Requests from other nodes -/

def handleVoteRequest (nd : RaftNode) (src : ℕ) (req : VoteRequest) : Effect :=
  let r := handleRequestVote nd.state req
  ⟨nd.withState r.1, [(src, .voteReply req r.2)], []⟩

def handleAppendEntries (lib : WireLib) (nd : RaftNode) (src : ℕ) (kind : AppendKind)
    (req : AppendEntriesRequest) : Effect :=
  let r := NomadLite.handleAppendEntries lib nd.state req
  let nd' := nd.withState r.1
  ⟨if r.2.success ∧ nd.state.commitIndex < r.1.commitIndex then nd'.notifyCommit else nd',
    [(src, .appendReply kind req r.2)], []⟩

/-- The stored snapshot is queued for the scheduler loop whenever the log offset has reached the
request's index, whether or not this request installed it. -/
def handleInstallSnapshot (lib : WireLib) (nd : RaftNode) (src : ℕ)
    (req : InstallSnapshotRequest) : Effect :=
  let r := NomadLite.handleInstallSnapshot lib nd.state req
  let nd' := nd.withState r.1
  ⟨if r.1.snapshot.isSome ∧ req.lastIncludedIndex ≤ r.1.logOffset then
      { nd' with pendingSnapshot := r.1.snapshot }.notifyCommit
    else nd',
    [(src, .snapshotReply req r.2)], []⟩

def handleTimeoutNow (nd : RaftNode) (src : ℕ) (req : TimeoutNowRequest) : Effect :=
  if req.term < nd.state.currentTerm then
    ⟨nd, [(src, .timeoutNowReply req ⟨nd.state.currentTerm, false⟩)], []⟩
  else ⟨{ nd with timeoutNows := nd.timeoutNows ++ [(src, req)] }, [], []⟩

/-! ### Replication -/

def heartbeatTick (nd : RaftNode) : Option Effect :=
  if nd.state.role = .leader then
    some ⟨nd, nd.peers.map fun p =>
      (p, .appendEntries .heartbeat (nd.state.heartbeatRequest nd.id)), []⟩
  else none

/-- The reply is compared with the term the heartbeat task captured. -/
def handleHeartbeatReply (nd : RaftNode) (req : AppendEntriesRequest)
    (resp : AppendEntriesResponse) : Effect :=
  ⟨if req.term < resp.term then nd.withState (nd.state.becomeFollower resp.term) else nd, [], []⟩

def replicateToPeers (lib : WireLib) (nd : RaftNode) : Option Effect :=
  if nd.state.role = .leader then
    some ⟨nd, nd.peers.filterMap fun p =>
      (nd.state.replicationMessage lib nd.id p).map fun msg => (p, msg), []⟩
  else none

def handleAppendReply (nd : RaftNode) (peer : ℕ) (resp : AppendEntriesResponse) : Effect :=
  if nd.state.currentTerm < resp.term then
    ⟨nd.withState (nd.state.becomeFollower resp.term), [], []⟩
  else if nd.state.role = .leader ∧ resp.success then
    let s := nd.state.recordMatch peer resp.matchIndex
    if s.mayCommit s.majorityIndex then
      let s := { s with commitIndex := s.majorityIndex }
      ⟨(nd.withState s).notifyCommit, [], [.advancedCommit s]⟩
    else ⟨nd.withState s, [], []⟩
  else if nd.state.role = .leader ∧ ¬resp.success then
    ⟨nd.withState (nd.state.decrementNext peer), [], []⟩
  else ⟨nd, [], []⟩

/-- Neither the role nor the term of the request is looked at. -/
def handleSnapshotReply (nd : RaftNode) (peer : ℕ) (req : InstallSnapshotRequest)
    (resp : InstallSnapshotResponse) : Effect :=
  if nd.state.currentTerm < resp.term then
    ⟨nd.withState (nd.state.becomeFollower resp.term), [], []⟩
  else ⟨nd.withState (nd.state.recordMatch peer req.lastIncludedIndex), [], []⟩

def handleAppendCommand (nd : RaftNode) (command : Command) : Option Effect :=
  if nd.state.role = .leader then some ⟨nd.withState (nd.state.appendEntry command), [], []⟩
  else none

/-! ### Leadership transfer -/

/-- Explicit targets must be configured; otherwise a peer of greatest match index is taken, and
`choice` says which. -/
def selectTarget (nd : RaftNode) (targetId : Option ℕ) (choice : ℕ) : Option ℕ :=
  match targetId with
  | some id => if id ∈ nd.peers then some id else none
  | none =>
    if nd.state.matchIndex.lookup choice = nd.state.matchIndex.sortedValues.getLast? ∧
      choice ∈ nd.state.matchIndex then some choice else none

/-- `handle_transfer_leadership` until it waits for the target to catch up. The raft loop runs it,
so there is one transfer at a time. -/
def startTransfer (nd : RaftNode) (targetId : Option ℕ) (choice : ℕ) : Option Effect :=
  if nd.state.role = .leader ∧ nd.transfer = none then
    (nd.selectTarget targetId choice).map fun target =>
      ⟨{ nd with transfer := some ⟨target, nd.state.currentTerm, nd.state.lastLogIndex, false⟩ },
        [], []⟩
  else none

def transferPoll (nd : RaftNode) : Option Effect :=
  match nd.transfer with
  | some transfer =>
    if transfer.sent = false ∧
        transfer.leaderLastIndex ≤ (nd.state.matchIndex.lookup transfer.target).getD 0 then
      some ⟨{ nd with transfer := some { transfer with sent := true } },
        [(transfer.target, .timeoutNow ⟨transfer.term, nd.id⟩)], []⟩
    else none
  | none => none

def transferFailed (nd : RaftNode) : Option Effect :=
  if nd.transfer = none then none else some ⟨{ nd with transfer := none }, [], []⟩

/-- A successful reply makes the node a follower in the captured term, whatever its term is now. -/
def handleTimeoutNowReply (nd : RaftNode) (src : ℕ) (req : TimeoutNowRequest)
    (resp : TimeoutNowResponse) : Option Effect :=
  match nd.transfer with
  | some transfer =>
    if transfer.sent = true ∧ transfer.target = src ∧ req = ⟨transfer.term, nd.id⟩ then
      let s := if resp.success then nd.state.becomeFollower transfer.term else nd.state
      some ⟨{ nd with state := s, transfer := none }, [], []⟩
    else none
  | none => none

/-! ### The scheduler's accesses -/

def getCommittedEntries (nd : RaftNode) : Effect :=
  let r := nd.state.getCommittedEntries
  ⟨nd.withState r.1, [], [.applied r.2]⟩

def takePendingSnapshot (nd : RaftNode) : RaftNode × Option Snapshot :=
  ({ nd with pendingSnapshot := none }, nd.pendingSnapshot)

def logCompactionThreshold : ℕ := 1000

def lastAppliedTerm (s : RaftState) : ℕ :=
  (((s.getEntry s.lastApplied).map LogEntry.term).or
    ((s.snapshot.filter (fun snap => snap.lastIncludedIndex = s.lastApplied)).map
      Snapshot.lastIncludedTerm)).getD 0

def beginCompaction (nd : RaftNode) : Option Effect :=
  if nd.compaction = none ∧ logCompactionThreshold ≤ nd.state.log.length ∧
      nd.state.lastApplied ≠ 0 then
    some ⟨{ nd with compaction := some ⟨nd.state.lastApplied, lastAppliedTerm nd.state⟩ }, [], []⟩
  else none

/-- The snapshot of the state machines is written at the index captured before it was built. -/
def finishCompaction (nd : RaftNode) (jobs : List SnapshotJob) (workers : List ℕ) :
    Option Effect :=
  nd.compaction.map fun c =>
    ⟨{ nd with
        state := nd.state.compactLog ⟨c.lastApplied, c.lastAppliedTerm, jobs, workers⟩
        compaction := none }, [], []⟩

/-! ### Steps -/

def deliver (lib : WireLib) (nd : RaftNode) (task src : ℕ) : Message → Option Effect
  | .voteRequest req => some (nd.handleVoteRequest src req)
  | .voteReply req resp => nd.handleVoteReply task src req resp
  | .appendEntries kind req => some (nd.handleAppendEntries lib src kind req)
  | .appendReply .heartbeat req resp => some (nd.handleHeartbeatReply req resp)
  | .appendReply .replication _ resp => some (nd.handleAppendReply src resp)
  | .installSnapshot req => some (nd.handleInstallSnapshot lib src req)
  | .snapshotReply req resp => some (nd.handleSnapshotReply src req resp)
  | .timeoutNow req => some (nd.handleTimeoutNow src req)
  | .timeoutNowReply req resp => nd.handleTimeoutNowReply src req resp

def step (lib : WireLib) (nd : RaftNode) : Event → Option Effect
  | .deliver task src msg => nd.deliver lib task src msg
  | .electionTimeout order => nd.startElection order none
  | .timeoutNowElection task order =>
    match nd.timeoutNows[task]? with
    | none => none
    | some caller =>
      { nd with timeoutNows := nd.timeoutNows.eraseIdx task }.startElection order (some caller)
  | .voteFailed task => nd.voteFailed task
  | .finishElection task => nd.finishElection task
  | .heartbeatTick => nd.heartbeatTick
  | .replicateTick => nd.replicateToPeers lib
  | .appendCommand command => nd.handleAppendCommand command
  | .startTransfer targetId choice => nd.startTransfer targetId choice
  | .transferPoll => nd.transferPoll
  | .transferFailed => nd.transferFailed
  | .getCommittedEntries => some nd.getCommittedEntries
  | .beginCompaction => nd.beginCompaction
  | .finishCompaction jobs workers => nd.finishCompaction jobs workers

end RaftNode

/-- The term installed by a step-down that was decided against a term captured before an await:
in the heartbeat task, in `start_election` and in `handle_transfer_leadership`. -/
def Event.capturedStepDown : Event → Option ℕ
  | .deliver _ _ (.voteReply req resp) => if req.term < resp.term then some resp.term else none
  | .deliver _ _ (.appendReply .heartbeat req resp) =>
    if req.term < resp.term then some resp.term else none
  | .deliver _ _ (.timeoutNowReply req resp) => if resp.success then some req.term else none
  | _ => none

end NomadLite
