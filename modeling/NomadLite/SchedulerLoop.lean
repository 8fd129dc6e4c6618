import NomadLite.JobQueue
import NomadLite.NodeStep
import NomadLite.Runs

/-!
# The scheduler loop of a node

The loop waits on the commit watch channel, takes a pending snapshot or the committed
entries out of the Raft node, and changes the job queue and the assigner accordingly.
It holds no lock between these pieces, so `Phase` says where it stands and the RPC
handlers run in between. The watch channel coalesces: `seen` is the version the loop
read last, and any number of sends after it wake the loop once.
-/

namespace NomadLite

abbrev Instant := ℕ

structure WorkerState where
  id : ℕ
  lastHeartbeat : Instant
  runningJobs : Finset Uuid
deriving DecidableEq

structure JobAssigner where
  workers : Finmap (fun _ : ℕ => WorkerState)
deriving DecidableEq

namespace JobAssigner

def new : JobAssigner := ⟨∅⟩

def registerWorker (a : JobAssigner) (now : Instant) (workerId : ℕ) : JobAssigner :=
  ⟨a.workers.insert workerId ⟨workerId, now, ∅⟩⟩

def workerHeartbeat (a : JobAssigner) (now : Instant) (workerId : ℕ) : JobAssigner :=
  match a.workers.lookup workerId with
  | some worker => ⟨a.workers.insert workerId { worker with lastHeartbeat := now }⟩
  | none => a.registerWorker now workerId

/-- The assigner's part of a committed command; `q` is the queue before it. -/
def applyCommand (now : Instant) (q : JobQueue) (a : JobAssigner) : Command → JobAssigner
  | .registerWorker workerId => a.registerWorker now workerId
  | .assignJob jobId workerId =>
    if (q.getJob jobId).map Job.status = some .pending then a.workerHeartbeat now workerId else a
  | _ => a

def rebuildFromSnapshot (now : Instant) (snapshot : Snapshot) : JobAssigner :=
  snapshot.workers.foldl (fun a workerId => a.registerWorker now workerId) new

end JobAssigner

/-! ### Snapshots of the state machines -/

def Job.toSnapshot (job : Job) : SnapshotJob where
  id := job.id
  command := job.command
  status := job.status
  assignedWorker := job.assignedWorker.getD 0
  executedBy := job.executedBy.getD 0
  exitCode := job.exitCode
  createdAt := job.createdAt
  completedAt := job.completedAt
  image := job.image

/-- A result of `all_jobs`: every job once, by creation time. Jobs created at the same time stand
in the order of the hash map. -/
def JobQueue.AllJobs (q : JobQueue) (jobs : List Job) : Prop :=
  ((jobs.map fun job => (⟨job.id, job⟩ : (_ : Uuid) × Job) : List _) : Multiset _) =
    q.jobs.entries ∧ jobs.Pairwise fun a b => a.createdAt.le b.createdAt

instance (q : JobQueue) (jobs : List Job) : Decidable (q.AllJobs jobs) :=
  inferInstanceAs (Decidable (_ ∧ _))

def JobAssigner.AllWorkers (a : JobAssigner) (workers : List ℕ) : Prop :=
  (workers : Multiset ℕ) = a.workers.entries.map fun entry => entry.2.id

instance (a : JobAssigner) (workers : List ℕ) : Decidable (a.AllWorkers workers) :=
  inferInstanceAs (Decidable (_ = _))

/-! ### The loop -/

/-- Where the loop stands between two of its lock acquisitions. -/
inductive Phase where
  | waiting
  | woken
  | rebuilding (snapshot : Snapshot)
  | fetching
  | applying (entries : List LogEntry)
  | compacting
deriving DecidableEq

structure Scheduler where
  node : RaftNode
  queue : JobQueue
  assigner : JobAssigner
  phase : Phase
  seen : ℕ
deriving DecidableEq

structure Clock where
  utc : DateTime
  instant : Instant
deriving DecidableEq

inductive SchedulerEvent where
  | appendEntries (src : ℕ) (kind : AppendKind) (req : AppendEntriesRequest)
  | installSnapshot (src : ℕ) (req : InstallSnapshotRequest)
  | changed
  | takePendingSnapshot
  | rebuildFromSnapshot (now : Clock)
  | getCommittedEntries
  | applyEntry (now : Clock)
  | beginCompaction
  | finishCompaction (jobs : List Job) (workers : List ℕ)
deriving DecidableEq

namespace Scheduler

def new (id : ℕ) (peers : List ℕ) (maxJobs : ℕ) : Scheduler where
  node := .new id peers
  queue := .withCapacity maxJobs
  assigner := .new
  phase := .waiting
  seen := 0

def withNode (sc : Scheduler) (nd : RaftNode) : Scheduler := { sc with node := nd }

def Unseen (sc : Scheduler) : Prop := sc.seen < sc.node.commitNotify

instance (sc : Scheduler) : Decidable sc.Unseen := inferInstanceAs (Decidable (_ < _))

def Idle (sc : Scheduler) : Prop :=
  sc.phase = .waiting ∧ ¬sc.Unseen ∧ sc.node.pendingSnapshot = none

instance (sc : Scheduler) : Decidable sc.Idle := inferInstanceAs (Decidable (_ ∧ _))

def handleAppendEntries (lib : WireLib) (sc : Scheduler) (src : ℕ) (kind : AppendKind)
    (req : AppendEntriesRequest) : Scheduler :=
  sc.withNode (sc.node.handleAppendEntries lib src kind req).node

def handleInstallSnapshot (lib : WireLib) (sc : Scheduler) (src : ℕ)
    (req : InstallSnapshotRequest) : Scheduler :=
  sc.withNode (sc.node.handleInstallSnapshot lib src req).node

def changed (sc : Scheduler) : Scheduler :=
  { sc with phase := .woken, seen := sc.node.commitNotify }

def takePendingSnapshot (sc : Scheduler) : Scheduler :=
  let r := sc.node.takePendingSnapshot
  match r.2 with
  | some snapshot => { sc with node := r.1, phase := .rebuilding snapshot }
  | none => { sc with node := r.1, phase := .fetching }

/-- After a rebuild the loop continues with its next `select!`: the committed entries are not
looked at. -/
def rebuildFromSnapshot (sc : Scheduler) (now : Clock) (snapshot : Snapshot) : Scheduler :=
  { sc with
    queue := sc.queue.rebuildFromSnapshot snapshot
    assigner := .rebuildFromSnapshot now.instant snapshot
    phase := .waiting }

def getCommittedEntries (sc : Scheduler) : Scheduler :=
  { sc with
    node := sc.node.getCommittedEntries.node
    phase := .applying sc.node.state.getCommittedEntries.2 }

def applyEntry (sc : Scheduler) (now : Clock) (entry : LogEntry) (rest : List LogEntry) :
    Scheduler :=
  { sc with
    queue := sc.queue.applyCommand now.utc entry.command
    assigner := sc.assigner.applyCommand now.instant sc.queue entry.command
    phase := .applying rest }

def beginCompaction (sc : Scheduler) : Scheduler :=
  match sc.node.beginCompaction with
  | some effect => { sc with node := effect.node, phase := .compacting }
  | none => { sc with phase := .waiting }

def step (lib : WireLib) (sc : Scheduler) : SchedulerEvent → Option Scheduler
  | .appendEntries src kind req => some (sc.handleAppendEntries lib src kind req)
  | .installSnapshot src req => some (sc.handleInstallSnapshot lib src req)
  | .changed => if sc.phase = .waiting ∧ sc.Unseen then some sc.changed else none
  | .takePendingSnapshot => if sc.phase = .woken then some sc.takePendingSnapshot else none
  | .rebuildFromSnapshot now =>
    match sc.phase with
    | .rebuilding snapshot => some (sc.rebuildFromSnapshot now snapshot)
    | _ => none
  | .getCommittedEntries => if sc.phase = .fetching then some sc.getCommittedEntries else none
  | .applyEntry now =>
    match sc.phase with
    | .applying (entry :: rest) => some (sc.applyEntry now entry rest)
    | _ => none
  | .beginCompaction => if sc.phase = .applying [] then some sc.beginCompaction else none
  | .finishCompaction jobs workers =>
    if sc.phase = .compacting ∧ sc.queue.AllJobs jobs ∧ sc.assigner.AllWorkers workers then
      (sc.node.finishCompaction (jobs.map Job.toSnapshot) workers).map fun effect =>
        { sc with node := effect.node, phase := .waiting }
    else none

inductive Stepped (lib : WireLib) (sc : Scheduler) : SchedulerEvent → Scheduler → Prop where
  | appendEntries (src : ℕ) (kind : AppendKind) (req : AppendEntriesRequest) :
      Stepped lib sc (.appendEntries src kind req) (sc.handleAppendEntries lib src kind req)
  | installSnapshot (src : ℕ) (req : InstallSnapshotRequest) :
      Stepped lib sc (.installSnapshot src req) (sc.handleInstallSnapshot lib src req)
  | changed (hphase : sc.phase = .waiting) (hunseen : sc.Unseen) :
      Stepped lib sc .changed sc.changed
  | takePendingSnapshot (hphase : sc.phase = .woken) :
      Stepped lib sc .takePendingSnapshot sc.takePendingSnapshot
  | rebuildFromSnapshot {snapshot : Snapshot} (hphase : sc.phase = .rebuilding snapshot)
      (now : Clock) :
      Stepped lib sc (.rebuildFromSnapshot now) (sc.rebuildFromSnapshot now snapshot)
  | getCommittedEntries (hphase : sc.phase = .fetching) :
      Stepped lib sc .getCommittedEntries sc.getCommittedEntries
  | applyEntry {entry : LogEntry} {rest : List LogEntry}
      (hphase : sc.phase = .applying (entry :: rest)) (now : Clock) :
      Stepped lib sc (.applyEntry now) (sc.applyEntry now entry rest)
  | beginCompaction (hphase : sc.phase = .applying []) :
      Stepped lib sc .beginCompaction sc.beginCompaction
  | finishCompaction {jobs : List Job} {workers : List ℕ} {effect : Effect}
      (hphase : sc.phase = .compacting) (hjobs : sc.queue.AllJobs jobs)
      (heff : sc.node.finishCompaction (jobs.map Job.toSnapshot) workers = some effect) :
      Stepped lib sc (.finishCompaction jobs workers)
        { sc with node := effect.node, phase := .waiting }

theorem stepped_of_step {lib : WireLib} {sc sc' : Scheduler} {event : SchedulerEvent}
    (h : sc.step lib event = some sc') : Stepped lib sc event sc' := by
  cases event with
  | appendEntries src kind req => exact Option.some.inj h ▸ .appendEntries src kind req
  | installSnapshot src req => exact Option.some.inj h ▸ .installSnapshot src req
  | changed =>
    rw [step] at h
    split_ifs at h with hphase
    exact Option.some.inj h ▸ .changed hphase.1 hphase.2
  | takePendingSnapshot =>
    rw [step] at h
    split_ifs at h with hphase
    exact Option.some.inj h ▸ .takePendingSnapshot hphase
  | rebuildFromSnapshot now =>
    rw [step] at h
    split at h
    · next snapshot hphase => exact Option.some.inj h ▸ .rebuildFromSnapshot hphase now
    · cases h
  | getCommittedEntries =>
    rw [step] at h
    split_ifs at h with hphase
    exact Option.some.inj h ▸ .getCommittedEntries hphase
  | applyEntry now =>
    rw [step] at h
    split at h
    · next entry rest hphase => exact Option.some.inj h ▸ .applyEntry hphase now
    · cases h
  | beginCompaction =>
    rw [step] at h
    split_ifs at h with hphase
    exact Option.some.inj h ▸ .beginCompaction hphase
  | finishCompaction jobs workers =>
    rw [step] at h
    split_ifs at h with hphase
    obtain ⟨effect, heff, rfl⟩ := Option.map_eq_some_iff.mp h
    exact .finishCompaction hphase.1 hphase.2.1 heff

/-! ### One pass without interruption -/

def applyEntries (sc : Scheduler) (clock : ℕ → Clock) : List LogEntry → Scheduler
  | [] => sc
  | entry :: rest => (sc.applyEntry (clock 0) entry rest).applyEntries (fun i => clock (i + 1)) rest

/-- The branch of the loop for a commit notification, up to the second half of a compaction. -/
def onCommit (sc : Scheduler) (clock : ℕ → Clock) : Scheduler :=
  let sc := sc.changed.takePendingSnapshot
  match sc.phase with
  | .rebuilding snapshot => sc.rebuildFromSnapshot (clock 0) snapshot
  | _ => (sc.getCommittedEntries.applyEntries clock
      sc.node.state.getCommittedEntries.2).beginCompaction

theorem reach_applyEntries (lib : WireLib) (sc : Scheduler) (clock : ℕ → Clock)
    (entries : List LogEntry) (hphase : sc.phase = .applying entries) :
    Runs.Reach (step lib) (fun _ _ => True) sc (sc.applyEntries clock entries) ∧
      (sc.applyEntries clock entries).phase = .applying [] := by
  induction entries generalizing sc clock with
  | nil => exact ⟨.init, hphase⟩
  | cons entry rest ih =>
    have hstep : step lib sc (.applyEntry (clock 0)) =
        some (sc.applyEntry (clock 0) entry rest) := by
      simp only [step, hphase]
    obtain ⟨hreach, hend⟩ := ih (sc.applyEntry (clock 0) entry rest) (fun i => clock (i + 1)) rfl
    exact ⟨(Runs.Reach.init.next trivial hstep).trans hreach, hend⟩

theorem onCommit_of_rebuilding (sc : Scheduler) (clock : ℕ → Clock) {snapshot : Snapshot}
    (h : sc.changed.takePendingSnapshot.phase = .rebuilding snapshot) :
    sc.onCommit clock =
      sc.changed.takePendingSnapshot.rebuildFromSnapshot (clock 0) snapshot := by
  simp only [onCommit, h]

theorem onCommit_of_fetching (sc : Scheduler) (clock : ℕ → Clock)
    (h : sc.changed.takePendingSnapshot.phase = .fetching) :
    sc.onCommit clock =
      (sc.changed.takePendingSnapshot.getCommittedEntries.applyEntries clock
        sc.changed.takePendingSnapshot.node.state.getCommittedEntries.2).beginCompaction := by
  simp only [onCommit, h]

/-- A woken loop takes the steps of `onCommit` when nothing else happens. -/
theorem reach_onCommit (lib : WireLib) (sc : Scheduler) (clock : ℕ → Clock)
    (hphase : sc.phase = .waiting) (hunseen : sc.Unseen) :
    Runs.Reach (step lib) (fun _ _ => True) sc (sc.onCommit clock) := by
  have hchanged : step lib sc .changed = some sc.changed := if_pos ⟨hphase, hunseen⟩
  have htake : step lib sc.changed .takePendingSnapshot =
      some sc.changed.takePendingSnapshot := by
    rw [step, if_pos]
    rfl
  have hreach := (Runs.Reach.init.next trivial hchanged).next (Q := fun _ _ => True) trivial htake
  refine hreach.trans ?_
  cases hpending : sc.node.pendingSnapshot with
  | some snapshot =>
    have hsc : sc.changed.takePendingSnapshot.phase = .rebuilding snapshot := by
      simp only [takePendingSnapshot, changed, RaftNode.takePendingSnapshot, hpending]
    have hrebuild : step lib sc.changed.takePendingSnapshot (.rebuildFromSnapshot (clock 0)) =
        some (sc.changed.takePendingSnapshot.rebuildFromSnapshot (clock 0) snapshot) := by
      simp only [step, hsc]
    rw [sc.onCommit_of_rebuilding clock hsc]
    exact Runs.Reach.init.next trivial hrebuild
  | none =>
    have hsc : sc.changed.takePendingSnapshot.phase = .fetching := by
      simp only [takePendingSnapshot, changed, RaftNode.takePendingSnapshot, hpending]
    have hfetch : step lib sc.changed.takePendingSnapshot .getCommittedEntries =
        some sc.changed.takePendingSnapshot.getCommittedEntries := if_pos hsc
    obtain ⟨happly, hend⟩ := reach_applyEntries lib
      sc.changed.takePendingSnapshot.getCommittedEntries clock _ rfl
    rw [sc.onCommit_of_fetching clock hsc]
    refine ((Runs.Reach.init.next trivial hfetch).trans happly).next trivial
      (show step lib _ .beginCompaction = _ from ?_)
    rw [step, if_pos hend]

end Scheduler
end NomadLite
