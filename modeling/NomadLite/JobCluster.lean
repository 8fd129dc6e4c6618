import NomadLite.ClientCluster
import NomadLite.JobEffects
import NomadLite.WorkerLoop

/-!
# The cluster with all its loops

Raft nodes, client calls, scheduler loops and worker loops together. The histories say
which commands have been applied so far and in which order, which jobs have been
started and where, which entries leaders have appended, and which updates the
finished iterations of the worker loops had in their buffers.
-/

namespace NomadLite

def DirectWrite.ConfirmedBy (lib : WireLib) (id : Uuid) (command : Command) : DirectWrite → Prop
  | .submitted job =>
    command.onWire lib = (Command.submitJob id job.command job.createdAt job.image).onWire lib
  | .assigned workerId => command = .assignJob id workerId
  | .finished update =>
    (command.onWire lib).updates.filter (fun u => u.jobId = id) = [update.onWire lib]

instance (lib : WireLib) (id : Uuid) (command : Command) :
    (write : DirectWrite) → Decidable (write.ConfirmedBy lib id command)
  | .submitted _ => inferInstanceAs (Decidable (_ = _))
  | .assigned _ => inferInstanceAs (Decidable (_ = _))
  | .finished _ => inferInstanceAs (Decidable (_ = _))

structure JobCluster where
  service : Service
  sites : ℕ → Site
  forwards : List ForwardCall
  committed : List Command
  executed : List (ℕ × Uuid)
  appended : List (ℕ × LogEntry)
  reported : List (ℕ × List JobStatusUpdate)

inductive JobEvent where
  | service (ev : ServiceEvent)
  | schedule (x : ℕ) (ev : SchedulerEvent)
  | cleanup (x : ℕ) (now : DateTime)
  | drain (x : ℕ) (ev : DrainEvent)
  | work (x : ℕ) (ev : WorkerEvent)
  | workerHeartbeat (x workerId : ℕ) (now : Instant)
  | forwardJobStatus (x : ℕ) (updates : List Proto.JobStatusUpdate)
  | forward (c : ℕ)

def Event.isSchedulers : Event → Bool
  | .getCommittedEntries | .beginCompaction | .finishCompaction .. => true
  | _ => false

/-- What the services and the raft loops do: everything but the parts of the other loops. -/
def ServiceEvent.isServices : ServiceEvent → Bool
  | .raft a => !a.event.isSchedulers
  | .sendMessage _ (.appendCommand ..) | .changeQueue .. => false
  | _ => true

/-- The scheduler loop's own pieces; it waits for a commit only when no jobs are left to assign. -/
def SchedulerEvent.isLoops (drain : DrainStage) : SchedulerEvent → Bool
  | .appendEntries .. | .installSnapshot .. => false
  | .changed => drain = .idle
  | _ => true

def jobHistoryRetentionSecs : ℕ := 3600

namespace JobCluster

def start (ids : List ℕ) (peers : ℕ → List PeerConfig) : JobCluster where
  service := .start ids peers
  sites _ := .new
  forwards := []
  committed := []
  executed := []
  appended := []
  reported := []

def node (jc : JobCluster) (x : ℕ) : RaftNode := jc.service.cluster.nodes x

def host (jc : JobCluster) (x : ℕ) : Host := jc.service.hosts x

def queue (jc : JobCluster) (x : ℕ) : JobQueue := (jc.host x).queue

def set (jc : JobCluster) (x : ℕ) (r : Host × Site) : JobCluster :=
  { jc with service := jc.service.setHost x r.1, sites := Function.update jc.sites x r.2 }

/-! ### Client calls and the raft loop -/

def handled (jc : JobCluster) (x : ℕ) : List (ℕ × LogEntry) :=
  match (jc.host x).mailbox with
  | .appendCommand command _ :: _ =>
    if (jc.node x).state.role = .leader then [(x, (jc.node x).state.newEntry command)] else []
  | _ => []

def submitting (jc : JobCluster) (c : ℕ) : ℕ → Site :=
  match jc.service.calls[c]? with
  | some call =>
    match call.stage with
    | .adding job => Function.update jc.sites call.node
        ((jc.sites call.node).record job.id (.submitted job)
          (!(jc.queue call.node).isFull && ((jc.queue call.node).getJob job.id).isNone))
    | _ => jc.sites
  | none => jc.sites

def serve (jc : JobCluster) (ev : ServiceEvent) (service : Service) : JobCluster :=
  { jc with
    service := service
    sites := match ev with
      | .call c .addJob => jc.submitting c
      | _ => jc.sites
    appended := jc.appended ++ match ev with
      | .handleMessage x => jc.handled x
      | _ => [] }

/-! ### The scheduler loop -/

def scheduler (jc : JobCluster) (x : ℕ) : Scheduler :=
  ⟨jc.node x, jc.queue x, (jc.sites x).assigner, (jc.sites x).phase, (jc.sites x).seen⟩

def scheduled (lib : WireLib) (site : Site) (sc : Scheduler) (ev : SchedulerEvent) : Site :=
  let site' := { site with assigner := sc.assigner, phase := sc.phase, seen := sc.seen }
  match ev, site.phase with
  | .applyEntry _, .applying (e :: _) =>
    { site' with
      applied := site.applied + 1
      outstanding := site.outstanding.filter fun p => ¬ p.2.ConfirmedBy lib p.1 e.command }
  | .rebuildFromSnapshot _, .rebuilding snapshot =>
    { site' with applied := snapshot.lastIncludedIndex, outstanding := [] }
  | _, _ => site'

/-- The first node to apply an entry adds its command to the history. -/
def committing (lib : WireLib) (jc : JobCluster) (site : Site) (ev : SchedulerEvent) :
    List Command :=
  match ev, site.phase with
  | .applyEntry _, .applying (e :: _) =>
    if site.applied < jc.committed.length then jc.committed
    else jc.committed ++ [e.command.onWire lib]
  | _, _ => jc.committed

def schedule (lib : WireLib) (jc : JobCluster) (x : ℕ) (ev : SchedulerEvent) (sc : Scheduler) :
    JobCluster :=
  { jc with
    service :=
      { jc.service with
        cluster := { jc.service.cluster with
          nodes := Function.update jc.service.cluster.nodes x sc.node }
        hosts := Function.update jc.service.hosts x { jc.host x with queue := sc.queue } }
    sites := Function.update jc.sites x (scheduled lib (jc.sites x) sc ev)
    committed := jc.committing lib (jc.sites x) ev }

/-! ### The worker loop -/

def starting (jc : JobCluster) (x : ℕ) : WorkerEvent → List (ℕ × Uuid)
  | .execute =>
    match (jc.sites x).worker with
    | .running ⟨job :: _, _⟩ => [(x, job.id)]
    | _ => []
  | _ => []

def dropping (jc : JobCluster) (x : ℕ) : WorkerEvent → List (ℕ × List JobStatusUpdate)
  | .endIteration =>
    match (jc.sites x).worker with
    | .ending updates => [(x, updates)]
    | _ => []
  | _ => []

def forwarding (lib : WireLib) (jc : JobCluster) (x : ℕ) : WorkerEvent → List ForwardCall
  | .forward =>
    match (jc.sites x).worker with
    | .forwarding leaderId updates =>
      [⟨leaderId, updates.map (statusUpdateToProto lib), .received⟩]
    | _ => []
  | _ => []

def work (lib : WireLib) (jc : JobCluster) (x : ℕ) (ev : WorkerEvent) (r : Host × Site) :
    JobCluster :=
  { jc.set x r with
    executed := jc.executed ++ jc.starting x ev
    reported := jc.reported ++ jc.dropping x ev
    forwards := jc.forwards ++ jc.forwarding lib x ev }

/-! ### Steps -/

def step (lib : WireLib) (ids : List ℕ) (jc : JobCluster) : JobEvent → Option JobCluster
  | .service ev =>
    if ev.isServices then (jc.service.step lib ids ev).map (jc.serve ev) else none
  | .schedule x ev =>
    if x ∈ ids ∧ ev.isLoops (jc.sites x).drain then
      ((jc.scheduler x).step lib ev).map (jc.schedule lib x ev)
    else none
  | .cleanup x now =>
    if x ∈ ids ∧ (jc.sites x).phase = .waiting ∧ (jc.sites x).drain = .idle then
      let queue := ((jc.queue x).cleanupFinishedJobs now jobHistoryRetentionSecs).1
      some (jc.set x ({ jc.host x with queue := queue }, jc.sites x))
    else none
  | .drain x ev =>
    if x ∈ ids then ((jc.sites x).drainStep (jc.node x) (jc.host x) ev).map (jc.set x) else none
  | .work x ev =>
    if x ∈ ids then
      ((jc.sites x).workStep x (jc.node x) jc.forwards (jc.host x) ev).map (jc.work lib x ev)
    else none
  | .workerHeartbeat x workerId now =>
    some (jc.set x (jc.host x, { jc.sites x with
      assigner := (jc.sites x).assigner.workerHeartbeat now workerId }))
  | .forwardJobStatus x updates =>
    some { jc with forwards := jc.forwards ++ [⟨x, updates, .received⟩] }
  | .forward c =>
    match jc.forwards[c]? with
    | some call => (call.step lib (jc.host call.receiver)).map fun (host, call') =>
        { jc.set call.receiver (host, jc.sites call.receiver) with
          forwards := jc.forwards.set c call' }
    | none => none

end JobCluster
end NomadLite
