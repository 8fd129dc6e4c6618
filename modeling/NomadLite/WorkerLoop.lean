import NomadLite.ClientService
import NomadLite.SchedulerLoop

/-!
# Assignment, execution and reports

Three more tasks write to the queue of a node without waiting for a commit. The
scheduler loop of a leader marks a pending job as running before it proposes the
assignment, `submit_job` adds its job when the raft loop has answered, and the worker
loop stores the result of a job before it reports it. Each is cut where it gives up a
lock or awaits something. `outstanding` keeps such writes on record until their own
entry is applied; `applied` counts the entries the queue has taken in. The code has
neither.
-/

namespace NomadLite

/-! ### More of the queue and the assigner -/

structure JobToRun where
  id : Uuid
  command : String
  image : Option String
deriving DecidableEq

structure ExecutionResult where
  status : JobStatus
  exitCode : Option ℤ
  output : Option String
  error : Option String
deriving DecidableEq

/-- `execute` returns one of these two, whatever goes wrong. -/
def ExecutionResult.Ended (result : ExecutionResult) : Prop :=
  result.status = .completed ∨ result.status = .failed

instance (result : ExecutionResult) : Decidable result.Ended := inferInstanceAs (Decidable (_ ∨ _))

namespace JobQueue

def JobsAssignedTo (q : JobQueue) (workerId : ℕ) (jobs : List JobToRun) : Prop :=
  (jobs : Multiset JobToRun) =
    (q.jobs.entries.filter fun entry =>
      entry.2.assignedWorker = some workerId ∧ entry.2.status = .running).map
        fun entry => ⟨entry.2.id, entry.2.command, entry.2.image⟩

instance (q : JobQueue) (workerId : ℕ) (jobs : List JobToRun) :
    Decidable (q.JobsAssignedTo workerId jobs) := inferInstanceAs (Decidable (_ = _))

/-- The executing node stores the whole result, whatever the status was. -/
def updateJobResult (q : JobQueue) (id : Uuid) (result : ExecutionResult) (executedBy : ℕ)
    (completedAt : DateTime) : JobQueue × Bool :=
  q.modifyJob id fun job =>
    { job with
      status := result.status
      executedBy := some executedBy
      exitCode := result.exitCode
      output := result.output
      error := result.error
      completedAt := some completedAt }

def NonePending (q : JobQueue) : Prop := ∀ entry ∈ q.jobs.entries, entry.2.status ≠ .pending

instance (q : JobQueue) : Decidable q.NonePending :=
  inferInstanceAs (Decidable (∀ entry ∈ q.jobs.entries, _))

end JobQueue

def workerTimeoutMs : ℕ := 5000

def WorkerState.isAlive (w : WorkerState) (now : Instant) : Bool :=
  now - w.lastHeartbeat < workerTimeoutMs

namespace JobAssigner

def LeastLoaded (a : JobAssigner) (now : Instant) (workerId : ℕ) : Prop :=
  ∃ w ∈ a.workers.lookup workerId, w.isAlive now = true ∧
    ∀ entry ∈ a.workers.entries, entry.2.isAlive now = true →
      w.runningJobs.card ≤ entry.2.runningJobs.card

instance (a : JobAssigner) (now : Instant) (workerId : ℕ) :
    Decidable (a.LeastLoaded now workerId) :=
  inferInstanceAs (Decidable (∃ w ∈ a.workers.lookup workerId, _ ∧ ∀ entry ∈ a.workers.entries, _))

def NoneAvailable (a : JobAssigner) (now : Instant) : Prop :=
  ∀ entry ∈ a.workers.entries, entry.2.isAlive now = false

instance (a : JobAssigner) (now : Instant) : Decidable (a.NoneAvailable now) :=
  inferInstanceAs (Decidable (∀ entry ∈ a.workers.entries, _))

def modifyWorker (a : JobAssigner) (workerId : ℕ) (f : Finset Uuid → Finset Uuid) : JobAssigner :=
  match a.workers.lookup workerId with
  | some w => ⟨a.workers.insert workerId { w with runningJobs := f w.runningJobs }⟩
  | none => a

def countJob (a : JobAssigner) (workerId : ℕ) (jobId : Uuid) : JobAssigner :=
  a.modifyWorker workerId (insert jobId)

def jobCompleted (a : JobAssigner) (workerId : ℕ) (jobId : Uuid) : JobAssigner :=
  a.modifyWorker workerId (·.erase jobId)

end JobAssigner

/-! ### The state of the loops -/

/-- A write to the queue that does not come from a committed entry. -/
inductive DirectWrite where
  | submitted (job : Job)
  | assigned (workerId : ℕ)
  | finished (update : JobStatusUpdate)
deriving DecidableEq

inductive DrainStage where
  | idle
  | choosing
  | chosen (jobId : Uuid) (workerId : ℕ)
  | marked (jobId : Uuid) (workerId : ℕ)
  | counted (jobId : Uuid) (workerId : ℕ)
deriving DecidableEq

structure Batch where
  todo : List JobToRun
  updates : List JobStatusUpdate
deriving DecidableEq

inductive WorkerStage where
  | starting
  | registered
  | waiting
  | polling
  | running (batch : Batch)
  | executing (job : JobToRun) (batch : Batch)
  | releasing (job : JobToRun) (batch : Batch)
  | storing (job : JobToRun) (result : ExecutionResult) (batch : Batch)
  | stored (update : JobStatusUpdate) (batch : Batch)
  | sending (updates : List JobStatusUpdate)
  | forwarding (leaderId : ℕ) (updates : List JobStatusUpdate)
  | awaiting (call : ℕ) (updates : List JobStatusUpdate)
  | ending (updates : List JobStatusUpdate)
deriving DecidableEq

/-- What the loops of a node keep besides its queue and its mailbox; the last two fields are
history. -/
structure Site where
  assigner : JobAssigner
  phase : Phase
  seen : ℕ
  drain : DrainStage
  worker : WorkerStage
  cachedLeader : Option ℕ
  applied : ℕ
  outstanding : List (Uuid × DirectWrite)
deriving DecidableEq

namespace Site

def new : Site where
  assigner := .new
  phase := .waiting
  seen := 0
  drain := .idle
  worker := .starting
  cachedLeader := none
  applied := 0
  outstanding := []

def record (site : Site) (id : Uuid) (write : DirectWrite) (found : Bool) : Site :=
  { site with outstanding := site.outstanding ++ if found then [(id, write)] else [] }

end Site

/-- `send` on the mailbox of the raft loop: it waits for room, and fails once the loop is gone. -/
def Host.send (host : Host) (command : Command) : Option Host :=
  if host.running = false then some host
  else if host.hasRoom then some (host.push (.appendCommand command none))
  else none

/-! ### The assignment of pending jobs -/

inductive DrainEvent where
  | checkLeader
  | choose (jobId : Uuid) (workerId : ℕ) (now : Instant)
  | chooseNone (now : Instant)
  | mark
  | count
  | send
deriving DecidableEq

/-- One piece of the branch for new jobs. The choice is made under read locks that are released
before the job is marked. -/
def Site.drainStep (nd : RaftNode) (host : Host) (site : Site) (ev : DrainEvent) :
    Option (Host × Site) :=
  match ev, site.drain with
  | .checkLeader, .idle =>
    if site.phase = .waiting then
      some (host, { site with drain := if nd.isLeader then .choosing else .idle })
    else none
  | .choose jobId workerId now, .choosing =>
    if (host.queue.getJob jobId).map Job.status = some .pending ∧
        site.assigner.LeastLoaded now workerId then
      some (host, { site with drain := .chosen jobId workerId })
    else none
  | .chooseNone now, .choosing =>
    if host.queue.NonePending ∨ site.assigner.NoneAvailable now then
      some (host, { site with drain := .idle })
    else none
  | .mark, .chosen jobId workerId =>
    let (queue, found) := host.queue.assignJob jobId workerId
    some ({ host with queue := queue },
      { site.record jobId (.assigned workerId) found with drain := .marked jobId workerId })
  | .count, .marked jobId workerId =>
    some (host, { site with
      assigner := site.assigner.countJob workerId jobId
      drain := .counted jobId workerId })
  | .send, .counted jobId workerId =>
    (host.send (.assignJob jobId workerId)).map fun host => (host, { site with drain := .choosing })
  | _, _ => none

/-! ### The RPC for reports -/

/-- A single update is proposed on its own, any other number of them as a batch. -/
def reportCommand : List JobStatusUpdate → Command
  | [u] => .updateJobStatus u.jobId u.status u.executedBy u.exitCode u.completedAt
  | updates => .batchUpdateJobStatus updates

inductive ForwardStage where
  | received
  | sent
  | answered (success : Bool)
deriving DecidableEq

structure ForwardCall where
  receiver : ℕ
  updates : List Proto.JobStatusUpdate
  stage : ForwardStage
deriving DecidableEq

namespace ForwardCall

/-- Updates whose id cannot be parsed are skipped. -/
def command (lib : WireLib) (call : ForwardCall) : Command :=
  reportCommand (call.updates.filterMap (protoToStatusUpdate lib))

/-- One piece of `forward_job_status`. The answer of the raft loop is not waited for. -/
def step (lib : WireLib) (host : Host) (call : ForwardCall) : Option (Host × ForwardCall) :=
  match call.stage with
  | .received =>
    if call.updates = [] then some (host, { call with stage := .answered true })
    else (host.send (call.command lib)).map fun host' =>
      (host', { call with stage := if host.running then .sent else .answered false })
  | .sent => some (host, { call with stage := .answered true })
  | .answered _ => none

end ForwardCall

/-! ### The worker loop -/

inductive WorkerEvent where
  | register (now : Instant)
  | sendRegister
  | heartbeat (connected : Bool) (now : Instant)
  | poll (jobs : List JobToRun)
  | execute
  | finish (result : ExecutionResult)
  | release
  | storeResult (now : DateTime)
  | completeJob
  | flush
  | send
  | forward
  | forwardReturned
  | forwardFailed
  | endIteration
deriving DecidableEq

namespace Site

/-- The leader the worker loop talks to: the connection is made anew when the leader has changed
and its address is known. -/
def reconnect (nd : RaftNode) (host : Host) (site : Site) (connected : Bool) : Option ℕ :=
  match nd.getLeaderId with
  | some leaderId =>
    if site.cachedLeader ≠ some leaderId ∧ connected ∧
        (host.peers.any fun p => p.nodeId = leaderId) then some leaderId
    else site.cachedLeader
  | none => site.cachedLeader

def workStep (x : ℕ) (nd : RaftNode) (calls : List ForwardCall) (host : Host) (site : Site)
    (ev : WorkerEvent) : Option (Host × Site) :=
  match ev, site.worker with
  | .register now, .starting =>
    some (host, { site with assigner := site.assigner.registerWorker now x, worker := .registered })
  | .sendRegister, .registered =>
    (host.send (.registerWorker x)).map fun host => (host, { site with worker := .waiting })
  | .heartbeat connected now, .waiting =>
    some (host,
      if nd.isLeader then
        { site with assigner := site.assigner.workerHeartbeat now x, worker := .polling }
      else { site with cachedLeader := site.reconnect nd host connected, worker := .polling })
  | .poll jobs, .polling =>
    if host.queue.JobsAssignedTo x jobs then some (host, { site with worker := .running ⟨jobs, []⟩ })
    else none
  | .execute, .running ⟨job :: todo, updates⟩ =>
    some (host, { site with worker := .executing job ⟨todo, updates⟩ })
  | .finish result, .executing job batch =>
    if result.Ended then
      some (host, { site with
        worker := if (host.queue.getJob job.id).map Job.status = some .cancelled then
            .releasing job batch
          else .storing job result batch })
    else none
  | .release, .releasing job batch =>
    some (host, { site with
      assigner := site.assigner.jobCompleted x job.id
      worker := .running batch })
  | .storeResult now, .storing job result batch =>
    let (queue, found) := host.queue.updateJobResult job.id result x now
    let update : JobStatusUpdate := ⟨job.id, result.status, x, result.exitCode, some now⟩
    some ({ host with queue := queue },
      { site.record job.id (.finished update) found with worker := .stored update batch })
  | .completeJob, .stored update batch =>
    some (host, { site with
      assigner := site.assigner.jobCompleted x update.jobId
      worker := .running ⟨batch.todo, batch.updates ++ [update]⟩ })
  | .flush, .running ⟨[], updates⟩ =>
    some (host, { site with
      worker := if updates = [] then .waiting
        else if nd.isLeader then .sending updates
        else match site.cachedLeader with
          | some leaderId => .forwarding leaderId updates
          | none => .ending updates })
  | .send, .sending updates =>
    (host.send (reportCommand updates)).map fun host => (host, { site with worker := .ending updates })
  | .forward, .forwarding _ updates =>
    some (host, { site with worker := .awaiting calls.length updates })
  | .forwardReturned, .awaiting call updates =>
    match calls[call]?.map ForwardCall.stage with
    | some (.answered _) => some (host, { site with worker := .ending updates })
    | _ => none
  | .forwardFailed, .awaiting _ updates => some (host, { site with worker := .ending updates })
  | .endIteration, .ending _ => some (host, { site with worker := .waiting })
  | _, _ => none

end Site
end NomadLite
