import NomadLite.Cancellation
import NomadLite.SnapshotRebuild
import NomadLite.Tally

/-!
# The load counter

The assigner counts a job for a worker when the branch for new jobs has marked it, and
the worker loop discounts the jobs that it runs itself. Everything else that starts or
ends the run of a job in the queue passes the assigner by: the entries that are applied,
above all the reports of other nodes, and snapshots. Registering a worker empties its
set, whatever the worker runs.
-/

namespace NomadLite

open Runs Tally

/-! ### Where a job runs -/

def Job.runsOn (job : Job) : Option ℕ := if job.status = .running then job.assignedWorker else none

theorem Job.runsOn_eq_some {job : Job} {w : ℕ} :
    job.runsOn = some w ↔ job.status = .running ∧ job.assignedWorker = some w := by
  rw [runsOn]
  split_ifs with hrunning
  · simp [hrunning]
  · simp [hrunning]

theorem Job.runsOn_of_ne {job : Job} (h : job.status ≠ .running) : job.runsOn = none := if_neg h

namespace JobQueue

def runsOn (q : JobQueue) (id : Uuid) : Option ℕ := (q.getJob id).bind Job.runsOn

def Vacant (q : JobQueue) (w : ℕ) : Prop := ∀ entry ∈ q.jobs.entries, entry.2.runsOn ≠ some w

instance (q : JobQueue) (w : ℕ) : Decidable (q.Vacant w) :=
  inferInstanceAs (Decidable (∀ entry ∈ q.jobs.entries, _))

variable (q : JobQueue)

theorem runsOn_eq_some {q : JobQueue} {id : Uuid} {w : ℕ} : q.runsOn id = some w ↔
    ∃ job, q.getJob id = some job ∧ job.status = .running ∧ job.assignedWorker = some w := by
  simp only [runsOn, Option.bind_eq_some_iff, Job.runsOn_eq_some]

theorem Vacant.runsOn_ne {q : JobQueue} {w : ℕ} (h : q.Vacant w) (id : Uuid) :
    q.runsOn id ≠ some w := by
  intro hid
  obtain ⟨job, hjob, hruns⟩ := Option.bind_eq_some_iff.mp hid
  exact h ⟨id, job⟩ (Finmap.lookup_eq_some_iff.mp hjob) hruns

theorem runsOn_modifyJob (id : Uuid) {f : Job → Job} (hf : ∀ job, (f job).id = job.id) :
    (q.modifyJob id f).1.runsOn =
      Function.update q.runsOn id ((q.getJob id).bind fun job => (f job).runsOn) := by
  funext id'
  rw [runsOn, getJob_modifyJob q id' id hf, Option.bind_map]
  by_cases hid : id' = id
  · subst hid
    rw [Function.update_self]
    refine Option.bind_congr fun job hjob => ?_
    rw [Function.comp_apply, if_pos (id_of_getJob hjob)]
  · rw [Function.update_of_ne hid]
    refine Option.bind_congr fun job hjob => ?_
    rw [Function.comp_apply, if_neg fun heq => hid ((id_of_getJob hjob).symm.trans heq)]

theorem runsOn_updateJobResult (id : Uuid) {result : ExecutionResult} (h : result.Ended)
    (executedBy : ℕ) (completedAt : DateTime) :
    (q.updateJobResult id result executedBy completedAt).1.runsOn =
      Function.update q.runsOn id none := by
  have hne : result.status ≠ .running := by
    rcases h with h | h <;> rw [h] <;> decide
  rw [updateJobResult, runsOn_modifyJob]
  · congr 1
    exact Option.bind_eq_none_iff.mpr fun job _ => Job.runsOn_of_ne hne
  · exact fun _ => rfl

theorem runsOn_assignJob (id : Uuid) (w : ℕ) :
    (q.assignJob id w).1.runsOn = Function.update q.runsOn id ((q.getJob id).map fun _ => w) := by
  rw [assignJob, runsOn_modifyJob]
  · congr 1
    cases q.getJob id <;> rfl
  · exact fun _ => rfl

theorem runsOn_addJob {job : Job} (h : job.runsOn = none)
    (hold : q.isFull = false → q.runsOn job.id = none) : (q.addJob job).1.runsOn = q.runsOn := by
  funext id
  rw [runsOn, getJob_addJob]
  split_ifs with hadded
  · rw [hadded.2, hold hadded.1, Option.bind_some, h]
  · rfl

theorem runsOn_cleanupFinishedJobs (now : DateTime) (retentionSecs : ℕ) :
    (q.cleanupFinishedJobs now retentionSecs).1.runsOn = q.runsOn := by
  funext id
  change (q.retain _).runsOn id = _
  rw [runsOn, getJob_retain, runsOn]
  cases hjob : q.getJob id with
  | none => rfl
  | some job =>
    rw [Option.filter_some]
    split_ifs with hkept
    · rfl
    · have hne : job.status ≠ .running := by
        intro heq
        simp [keptAfter, heq, JobStatus.isActive] at hkept
      exact (Job.runsOn_of_ne hne).symm

end JobQueue

/-! ### Commands that start or end the run of a job -/

def Job.reportedStatus (job : Job) (updates : List JobStatusUpdate) : JobStatus :=
  updates.foldl
    (fun status u => if job.id = u.jobId ∧ status ≠ .cancelled then u.status else status) job.status

theorem Job.runsOn_foldl_applyStatus (job : Job) (updates : List JobStatusUpdate) :
    (updates.foldl (fun job u => job.applyStatus u) job).runsOn =
      if job.reportedStatus updates = .running then job.assignedWorker else none := by
  induction updates generalizing job with
  | nil => rfl
  | cons u updates ih =>
    rw [List.foldl_cons, ih, reportedStatus, reportedStatus, List.foldl_cons, applyStatus]
    split_ifs <;> rfl

def Command.movesJob (job : Job) : Command → Bool
  | .assignJob .. => job.status = .pending
  | .cancelJob _ => job.runsOn.isSome
  | c => job.assignedWorker.isSome &&
    decide (job.reportedStatus c.updates = .running) != decide (job.status = .running)

def Command.movesLoad (q : JobQueue) (c : Command) : Bool :=
  c.jobIds.any fun id => (q.getJob id).any c.movesJob

namespace Command

variable {q : JobQueue} {c : Command} {job : Job} (now : DateTime)

theorem movesJob_eq_false_iff (hid : job.id ∈ c.jobIds) :
    c.movesJob job = false ↔ (job.applyCommand now c).runsOn = job.runsOn := by
  -- Updates leave the worker of the job alone.
  have hupdates : ∀ updates : List JobStatusUpdate,
      (job.assignedWorker.isSome && decide (job.reportedStatus updates = .running) !=
        decide (job.status = .running)) = false ↔
      (updates.foldl (fun job u => job.applyStatus u) job).runsOn = job.runsOn := by
    intro updates
    rw [Job.runsOn_foldl_applyStatus, Job.runsOn]
    cases job.assignedWorker with
    | none => simp
    | some w => by_cases h : job.reportedStatus updates = .running <;>
        by_cases h' : job.status = .running <;> simp [h, h']
  cases c with
  | submitJob | registerWorker | noop => exact hupdates []
  | updateJobStatus => exact hupdates [_]
  | batchUpdateJobStatus updates => exact hupdates updates
  | assignJob jobId workerId =>
    by_cases hpending : job.status = .pending
    · have hrun : job.applyCommand now (.assignJob jobId workerId) =
          { job with assignedWorker := some workerId, status := .running } :=
        if_pos ⟨List.mem_singleton.mp hid, hpending⟩
      simp [movesJob, hrun, Job.runsOn, hpending]
    · have hsame : job.applyCommand now (.assignJob jobId workerId) = job :=
        if_neg fun h => hpending h.2
      simp [movesJob, hsame, hpending]
  | cancelJob jobId =>
    by_cases hactive : job.status.isActive = true
    · have hcancel : job.applyCommand now (.cancelJob jobId) =
          { job with status := .cancelled, completedAt := some now } :=
        if_pos ⟨List.mem_singleton.mp hid, hactive⟩
      have hnone : (job.applyCommand now (.cancelJob jobId)).runsOn = none := by
        rw [hcancel, Job.runsOn_of_ne fun h => JobStatus.noConfusion h]
      rw [hnone, movesJob]
      cases job.runsOn <;> simp
    · have hsame : job.applyCommand now (.cancelJob jobId) = job :=
        if_neg fun h => hactive h.2
      have hne : job.status ≠ .running := fun h => hactive (by rw [h]; rfl)
      simp [movesJob, hsame, Job.runsOn_of_ne hne]

theorem runsOn_applyCommand (id : Uuid) : (q.applyCommand now c).runsOn id =
    (q.getJob id).bind fun job => (job.applyCommand now c).runsOn := by
  by_cases hsub : c.submitted = some id
  · cases c with
    | submitJob jobId command createdAt image =>
      obtain rfl : jobId = id := Option.some.inj hsub
      rw [JobQueue.runsOn, q.getJob_submitJob]
      split_ifs with hnew
      · rw [hnew.1]
        rfl
      · rfl
    | _ => cases hsub
  · rw [JobQueue.runsOn, q.getJob_applyCommand_of_ne now id hsub, Option.bind_map]
    rfl

theorem movesLoad_eq_false_iff :
    c.movesLoad q = false ↔ (q.applyCommand now c).runsOn = q.runsOn := by
  have hjobs : c.movesLoad q = false ↔ ∀ id ∈ c.jobIds, ∀ job, q.getJob id = some job →
      c.movesJob job = false := by
    simp [movesLoad, List.any_eq_false, Option.any_eq_false]
  rw [hjobs]
  constructor
  · intro h
    funext id
    rw [runsOn_applyCommand, JobQueue.runsOn]
    refine Option.bind_congr fun job hjob => ?_
    have hid := JobQueue.id_of_getJob hjob
    by_cases hmem : id ∈ c.jobIds
    · exact (movesJob_eq_false_iff now (hid ▸ hmem)).mp (h id hmem job hjob)
    · rw [Job.applyCommand_of_not_mem (hid ▸ hmem)]
  · intro h id hmem job hjob
    have hsame := congrFun h id
    rw [runsOn_applyCommand, JobQueue.runsOn, hjob] at hsame
    have hid := JobQueue.id_of_getJob hjob
    exact (movesJob_eq_false_iff now (hid ▸ hmem)).mpr hsame

end Command

def Command.registered : Command → Option ℕ
  | .registerWorker w => some w
  | _ => none

/-! ### What the assigner counts -/

namespace JobAssigner

def runningJobs (a : JobAssigner) (w : ℕ) : Option (Finset Uuid) :=
  (a.workers.lookup w).map WorkerState.runningJobs

variable (a : JobAssigner)

theorem runningJobs_insert {workers : Finmap (fun _ : ℕ => WorkerState)} (w : ℕ)
    (state : WorkerState) : (JobAssigner.mk (workers.insert w state)).runningJobs =
      Function.update (JobAssigner.mk workers).runningJobs w (some state.runningJobs) := by
  funext w'
  rw [runningJobs]
  by_cases hw : w' = w
  · rw [hw, Function.update_self, Finmap.lookup_insert, Option.map_some]
  · rw [Function.update_of_ne hw, Finmap.lookup_insert_of_ne _ hw, runningJobs]

theorem runningJobs_registerWorker (now : Instant) (w : ℕ) :
    (a.registerWorker now w).runningJobs = Function.update a.runningJobs w (some ∅) :=
  runningJobs_insert w _

theorem runningJobs_workerHeartbeat (now : Instant) (w : ℕ) :
    (a.workerHeartbeat now w).runningJobs =
      if a.workers.lookup w = none then Function.update a.runningJobs w (some ∅)
      else a.runningJobs := by
  rw [workerHeartbeat]
  cases hw : a.workers.lookup w with
  | none => rw [if_pos rfl, runningJobs_registerWorker]
  | some state =>
    rw [if_neg (by simp), runningJobs_insert]
    refine Function.update_eq_self_iff.mpr ?_
    rw [runningJobs, hw]
    rfl

theorem lookup_modifyWorker (w : ℕ) (f : Finset Uuid → Finset Uuid) (w' : ℕ) :
    (a.modifyWorker w f).workers.lookup w' = (a.workers.lookup w').map fun state =>
      if w' = w then { state with runningJobs := f state.runningJobs } else state := by
  rw [modifyWorker]
  cases hw : a.workers.lookup w with
  | none =>
    by_cases heq : w' = w
    · rw [heq, hw, Option.map_none]
    · simp only [heq, if_false, Option.map_id']
  | some state =>
    by_cases heq : w' = w
    · rw [heq, Finmap.lookup_insert, hw, Option.map_some, if_pos rfl]
    · simp only [Finmap.lookup_insert_of_ne _ heq, heq, if_false, Option.map_id']

theorem runningJobs_modifyWorker (w : ℕ) (f : Finset Uuid → Finset Uuid) :
    (a.modifyWorker w f).runningJobs =
      Function.update a.runningJobs w ((a.runningJobs w).map f) := by
  funext w'
  rw [runningJobs, lookup_modifyWorker, Option.map_map]
  by_cases heq : w' = w
  · subst heq
    rw [Function.update_self, runningJobs, Option.map_map]
    simp only [Function.comp_def, if_true]
  · rw [Function.update_of_ne heq, runningJobs]
    simp only [Function.comp_def, heq, if_false]

/-- The entries that reach the assigner without moving a load register a worker. -/
theorem runningJobs_applyCommand {now : Clock} {q : JobQueue} {c : Command}
    (h : c.movesLoad q = false) :
    (a.applyCommand now.instant q c).runningJobs = a.runningJobs ∨
      ∃ w, c.registered = some w ∧
        (a.applyCommand now.instant q c).runningJobs =
          Function.update a.runningJobs w (some ∅) := by
  cases c with
  | registerWorker w => exact .inr ⟨w, rfl, a.runningJobs_registerWorker _ w⟩
  | assignJob id w =>
    left
    rw [applyCommand]
    split_ifs with hpending
    · -- A pending job would be running now.
      obtain ⟨job, hjob, hstatus⟩ := Option.map_eq_some_iff.mp hpending
      have hmoves : (Command.assignJob id w).movesLoad q = true := by
        simp [Command.movesLoad, Command.jobIds, Command.movesJob, hjob, hstatus]
      rw [hmoves] at h
      cases h
    · rfl
  | _ => exact .inl rfl

theorem runningJobs_rebuildFromSnapshot (now : Instant) (snapshot : Snapshot) (w : ℕ) :
    (rebuildFromSnapshot now snapshot).runningJobs w =
      if w ∈ snapshot.workers then some ∅ else none := by
  rw [runningJobs, lookup_rebuildFromSnapshot]
  split_ifs <;> rfl

end JobAssigner

/-! ### One node -/

def DrainStage.markedJob : DrainStage → Option (Uuid × ℕ)
  | .marked jobId workerId => some (jobId, workerId)
  | _ => none

def WorkerStage.releasingJob : WorkerStage → Option Uuid
  | .releasing job _ => some job.id
  | _ => none

def WorkerStage.storedJob : WorkerStage → Option Uuid
  | .stored update _ => some update.jobId
  | _ => none

theorem WorkerStage.Plain.storedJob {stage : WorkerStage} (h : stage.Plain) :
    stage.storedJob = none := by
  cases stage with
  | stored => cases h
  | _ => rfl

namespace NodeView

/-- What the loops of node `x` have written to the queue and not yet to the assigner. -/
def unsettled (v : NodeView) (x : ℕ) : Set (Uuid × ℕ) :=
  { p | v.drain.markedJob = some p ∨ p.2 = x ∧ v.worker.storedJob = some p.1 }

def Balanced (v : NodeView) (x : ℕ) : Prop :=
  Agrees (v.unsettled x) v.queue.runsOn v.assigner.runningJobs

variable {v v' : NodeView} {x : ℕ}

theorem unsettled_subset (hdrain : ∀ p, v.drain.markedJob = some p → v'.drain.markedJob = some p)
    (hworker : ∀ id, v.worker.storedJob = some id → v'.worker.storedJob = some id) :
    v.unsettled x ⊆ v'.unsettled x :=
  fun p hp => hp.imp (hdrain p) (And.imp_right (hworker p.1))

namespace Balanced

theorem congr (h : v.Balanced x) (hqueue : v'.queue.runsOn = v.queue.runsOn)
    (hassigner : v'.assigner.runningJobs = v.assigner.runningJobs) (hdrain : v'.drain = v.drain)
    (hworker : v'.worker.storedJob = v.worker.storedJob) : v'.Balanced x := by
  rw [Balanced, hqueue, hassigner]
  exact h.mono (unsettled_subset (fun p hp => hdrain ▸ hp) fun id hid => hworker ▸ hid)

theorem register (h : v.Balanced x) {w : ℕ} (hvacant : v.queue.Vacant w)
    (hqueue : v'.queue.runsOn = v.queue.runsOn)
    (hassigner : v'.assigner.runningJobs = Function.update v.assigner.runningJobs w (some ∅))
    (hdrain : v'.drain = v.drain) (hworker : v'.worker.storedJob = v.worker.storedJob) :
    v'.Balanced x := by
  rw [Balanced, hqueue, hassigner]
  refine Agrees.mono (h.reset hvacant.runsOn_ne) ?_
  exact unsettled_subset (fun p hp => hdrain ▸ hp) fun id hid => hworker ▸ hid

/-- A heartbeat registers a worker that is not known. -/
theorem heartbeat (h : v.Balanced x) {w : ℕ} {now : Instant}
    (hvacant : v.assigner.workers.lookup w = none → v.queue.Vacant w)
    (hqueue : v'.queue = v.queue) (hassigner : v'.assigner = v.assigner.workerHeartbeat now w)
    (hdrain : v'.drain = v.drain) (hworker : v'.worker.storedJob = v.worker.storedJob) :
    v'.Balanced x := by
  have hruns : v'.queue.runsOn = v.queue.runsOn := by rw [hqueue]
  have hjobs := v.assigner.runningJobs_workerHeartbeat now w
  rw [← hassigner] at hjobs
  split_ifs at hjobs with hnew
  · exact h.register (hvacant hnew) hruns hjobs hdrain hworker
  · exact h.congr hruns hjobs hdrain hworker

theorem rebuild (v : NodeView) (x : ℕ) (now : Instant) {snapshot : Snapshot}
    (h : ∀ job ∈ snapshot.jobs, ∀ w, (Job.fromSnapshot job).runsOn = some w →
      w ∉ snapshot.workers) :
    ({ v with
      queue := v.queue.rebuildFromSnapshot snapshot
      assigner := .rebuildFromSnapshot now snapshot
      phase := .waiting } : NodeView).Balanced x := by
  intro w keys hkeys id _
  change (JobAssigner.rebuildFromSnapshot _ _).runningJobs w = some keys at hkeys
  rw [JobAssigner.runningJobs_rebuildFromSnapshot] at hkeys
  split_ifs at hkeys with hw
  obtain rfl := Option.some.inj hkeys
  refine iff_of_false (Finset.notMem_empty id) fun hruns => ?_
  obtain ⟨job, hjob, hon⟩ := Option.bind_eq_some_iff.mp hruns
  obtain ⟨job', hmem, rfl⟩ := JobQueue.mem_of_getJob_rebuildFromSnapshot hjob
  exact h job' hmem w hon hw

/-- The branch for new jobs goes on; no job is left marked behind it. -/
theorem drain (h : v.Balanced x) (drain : DrainStage) (hold : v.drain.markedJob = none) :
    ({ v with drain := drain } : NodeView).Balanced x := by
  refine h.mono (unsettled_subset (fun p hp => ?_) fun id hid => hid)
  rw [hold] at hp
  cases hp

theorem mark (h : v.Balanced x) (hspares : v.SparesOthers) {id : Uuid} {w : ℕ}
    (hdrain : v.drain = .chosen id w) :
    ({ v with
      queue := (v.queue.assignJob id w).1
      drain := .marked id w } : NodeView).Balanced x := by
  have hnone : v.queue.runsOn id = none := by
    refine Option.bind_eq_none_iff.mpr fun job hjob => Job.runsOn_of_ne ?_
    exact (hspares id (by rw [hdrain]; rfl) job hjob).2
  have hplaced : Agrees (insert (id, w) (v.unsettled x)) (v.queue.assignJob id w).1.runsOn
      v.assigner.runningJobs := by
    rw [JobQueue.runsOn_assignJob]
    cases v.queue.getJob id with
    | none =>
      rw [Option.map_none, Function.update_eq_self_iff.mpr hnone.symm]
      exact h.mono (Set.subset_insert ..)
    | some job => exact h.place_some hnone w
  refine hplaced.mono (Set.insert_subset (.inl rfl) (unsettled_subset (fun p hp => ?_) ?_))
  · rw [hdrain] at hp
    cases hp
  · exact fun id hid => hid

theorem count (h : v.Balanced x) {id : Uuid} {w : ℕ} (hdrain : v.drain = .marked id w)
    (hruns : v.queue.runsOn id = some w) :
    ({ v with
      assigner := v.assigner.countJob w id
      drain := .counted id w } : NodeView).Balanced x := by
  have hskip : v.unsettled x ⊆ insert (id, w) (({ v with
      assigner := v.assigner.countJob w id
      drain := .counted id w } : NodeView).unsettled x) := by
    rintro p (hp | hp)
    · rw [hdrain] at hp
      exact .inl (Option.some.inj hp).symm
    · exact .inr (.inr hp)
  have hcounted := (h.mono hskip).insert hruns
  rwa [← JobAssigner.runningJobs_modifyWorker] at hcounted

theorem store (h : v.Balanced x) {job : JobToRun} {result : ExecutionResult} {batch : Batch}
    (hworker : v.worker = .storing job result batch) (hended : result.Ended)
    (hruns : ∀ w ∈ v.queue.runsOn job.id, w = x) (now : DateTime) (update : JobStatusUpdate)
    (hupdate : update.jobId = job.id) :
    ({ v with
      queue := (v.queue.updateJobResult job.id result x now).1
      worker := .stored update batch } : NodeView).Balanced x := by
  have hplaced := h.place_none hruns
  rw [← JobQueue.runsOn_updateJobResult _ _ hended x now] at hplaced
  refine hplaced.mono (Set.insert_subset (.inr ⟨rfl, congrArg some hupdate⟩)
    (unsettled_subset (fun p hp => hp) fun id hid => ?_))
  rw [hworker] at hid
  cases hid

/-- The worker loop discounts a job that it does not run any more. -/
theorem discount (h : v.Balanced x) {id : Uuid} {worker : WorkerStage}
    (hold : ∀ id' ∈ v.worker.storedJob, id' = id) (hruns : v.queue.runsOn id ≠ some x) :
    ({ v with
      assigner := v.assigner.jobCompleted x id
      worker := worker } : NodeView).Balanced x := by
  have hskip : v.unsettled x ⊆ insert (id, x) (({ v with
      assigner := v.assigner.jobCompleted x id
      worker := worker } : NodeView).unsettled x) := by
    rintro ⟨id', w⟩ (hp | ⟨rfl, hp⟩)
    · exact .inr (.inl hp)
    · rw [hold id' hp]
      exact .inl rfl
  have hdiscounted := (h.mono hskip).erase hruns
  rwa [← JobAssigner.runningJobs_modifyWorker] at hdiscounted

end Balanced
end NodeView

namespace JobCluster

def skewsLoad (jc : JobCluster) (x : ℕ) : JobEvent → Bool
  -- An entry starts or ends the run of a job, or registers a worker that runs one.
  | .schedule y (.applyEntry _) => y = x && (jc.sites x).phase.next.any fun e =>
    e.command.movesLoad (jc.queue x) ||
      e.command.registered.any fun w => ¬ (jc.queue x).Vacant w
  -- The sets are empty afterwards.
  | .schedule y (.rebuildFromSnapshot _) => y = x && (jc.sites x).phase.snapshot.any fun snapshot =>
    snapshot.jobs.any fun job => (Job.fromSnapshot job).runsOn.any fun w => w ∈ snapshot.workers
  -- The job is running already.
  | .service (.call c .addJob) => (jc.service.calls[c]?).any fun call => call.node = x &&
    call.stage.job.any fun job => !(jc.queue x).isFull && ((jc.queue x).runsOn job.id).isSome
  -- The job has ended since it was marked.
  | .drain y .count => y = x && (jc.sites x).drain.markedJob.any fun p =>
    (jc.queue x).runsOn p.1 ≠ some p.2
  | .work y (.register _) => y = x && ¬ (jc.queue x).Vacant x
  | .work y (.heartbeat ..) => y = x && (jc.node x).isLeader &&
    (jc.sites x).assigner.workers.lookup x = none && ¬ (jc.queue x).Vacant x
  | .workerHeartbeat y w _ => y = x && (jc.sites x).assigner.workers.lookup w = none &&
    ¬ (jc.queue x).Vacant w
  -- The job runs elsewhere by now.
  | .work y (.storeResult _) => y = x && (jc.sites x).worker.storingJob.any fun id =>
    ((jc.queue x).runsOn id).any fun w => w ≠ x
  -- The job runs here again.
  | .work y .release => y = x && (jc.sites x).worker.releasingJob.any fun id =>
    (jc.queue x).runsOn id = some x
  | .work y .completeJob => y = x && (jc.sites x).worker.storedJob.any fun id =>
    (jc.queue x).runsOn id = some x
  | _ => false

variable {lib : WireLib} {ids : List ℕ} {jc jc' : JobCluster} {ev : JobEvent} {x : ℕ}
  {v : NodeView}

theorem balanced_start (ids : List ℕ) (peers : ℕ → List PeerConfig) (x : ℕ) :
    ((start ids peers).view x).Balanced x := by
  intro w keys hkeys
  have hnone : ((start ids peers).view x).assigner.runningJobs w = none :=
    Option.map_eq_none_iff.mpr (Finmap.lookup_empty w)
  rw [hnone] at hkeys
  cases hkeys

theorem ViewStep.balanced (h : ViewStep jc x ev v) (hcareful : jc.Careful x)
    (hskew : jc.skewsLoad x ev = false) (hb : (jc.view x).Balanced x) : v.Balanced x := by
  cases h with
  | same => exact hb
  | woken | moved => exact hb.congr rfl rfl rfl rfl
  | @added c call job hcall hnode hstage =>
    have hnew := hcareful.fresh call (List.mem_of_getElem? hcall) job (by rw [hstage]; rfl)
    have hpending : job.status = .pending := congrArg JobCore.status hnew.1
    have hruns : ((jc.queue x).addJob job).1.runsOn = (jc.queue x).runsOn := by
      refine JobQueue.runsOn_addJob _ (Job.runsOn_of_ne (by rw [hpending]; decide)) fun hroom => ?_
      simpa [skewsLoad, hcall, hnode, hstage, Stage.job, hroom] using hskew
    exact hb.congr hruns rfl rfl rfl
  | @rebuilt now snapshot hphase =>
    refine .rebuild _ x now.instant ?_
    simpa [skewsLoad, hphase, Phase.snapshot, Option.any_eq_false] using hskew
  | @applied now e rest hphase =>
    have hcond : e.command.movesLoad (jc.queue x) = false ∧
        ∀ w, e.command.registered = some w → (jc.queue x).Vacant w := by
      simpa [skewsLoad, hphase, Phase.next, Option.any_eq_false] using hskew
    have hruns := (Command.movesLoad_eq_false_iff now.utc).mp hcond.1
    rcases (jc.sites x).assigner.runningJobs_applyCommand hcond.1 with hsame | ⟨w, hw, hnew⟩
    · exact hb.congr hruns hsame rfl rfl
    · exact hb.register (hcond.2 w hw) hruns hnew rfl rfl
  | cleaned hdrain => exact hb.congr (JobQueue.runsOn_cleanupFinishedJobs ..) rfl rfl rfl
  | leaderChecked hdrain | chosen hdrain | chosenNone hdrain | sent hdrain =>
    exact hb.drain _ (congrArg DrainStage.markedJob hdrain)
  | marked hdrain => exact hb.mark hcareful.spares hdrain
  | @counted id w hdrain =>
    have hruns : (jc.queue x).runsOn id = some w := by
      simpa [skewsLoad, hdrain, DrainStage.markedJob] using hskew
    exact hb.count hdrain hruns
  | registered hworker =>
    have hvacant : (jc.queue x).Vacant x := by simpa [skewsLoad] using hskew
    exact hb.register hvacant rfl (JobAssigner.runningJobs_registerWorker ..) rfl
      hworker.storedJob.symm
  | @beaten connected now assigner hworker hassigner =>
    by_cases hleader : (jc.node x).isLeader = true
    · have hvacant : (jc.sites x).assigner.workers.lookup x = none → (jc.queue x).Vacant x := by
        simpa [skewsLoad, hleader] using hskew
      rw [if_pos hleader] at hassigner
      exact hb.heartbeat hvacant rfl hassigner rfl hworker.storedJob.symm
    · rw [if_neg hleader] at hassigner
      exact hb.congr rfl (congrArg JobAssigner.runningJobs hassigner) rfl hworker.storedJob.symm
  | worked hold hnew => exact hb.congr rfl rfl rfl (hnew.storedJob.trans hold.storedJob.symm)
  | foundCancelled hworker hstatus | finished hworker hended =>
    exact hb.congr rfl rfl rfl (congrArg WorkerStage.storedJob hworker).symm
  | @released job batch hworker =>
    have hruns : (jc.queue x).runsOn job.id ≠ some x := by
      simpa [skewsLoad, hworker, WorkerStage.releasingJob] using hskew
    refine hb.discount (fun id hid => ?_) hruns
    cases (congrArg WorkerStage.storedJob hworker).symm.trans hid
  | @stored now job result batch hworker =>
    have hended : (jc.sites x).worker.Ended := hcareful.steady.ended
    rw [hworker] at hended
    have hruns : ∀ w, (jc.queue x).runsOn job.id = some w → w = x := by
      simpa [skewsLoad, hworker, WorkerStage.storingJob, Option.any_eq_false] using hskew
    exact hb.store hworker hended hruns now _ rfl
  | @completed update batch hworker =>
    have hruns : (jc.queue x).runsOn update.jobId ≠ some x := by
      simpa [skewsLoad, hworker, WorkerStage.storedJob] using hskew
    refine hb.discount (fun id hid => ?_) hruns
    exact (Option.some.inj ((congrArg WorkerStage.storedJob hworker).symm.trans hid)).symm
  | @heard w now =>
    have hvacant : (jc.sites x).assigner.workers.lookup w = none → (jc.queue x).Vacant w := by
      simpa [skewsLoad] using hskew
    exact hb.heartbeat hvacant rfl rfl rfl rfl

/-- In runs that only move the load of node `x` through its own loops, and that register no worker
that runs a job, every registered worker has exactly its running jobs counted, whenever the loops
of the node have finished what they began. -/
theorem load_counter_exact {peers : ℕ → List PeerConfig}
    (h : Reach (step lib ids) (fun jc ev => jc.skewsLoad x ev = false) (start ids peers) jc)
    (hdrain : ∀ id w, (jc.sites x).drain ≠ .marked id w)
    (hworker : ∀ update batch, (jc.sites x).worker ≠ .stored update batch)
    {w : ℕ} {state : WorkerState} (hstate : (jc.sites x).assigner.workers.lookup w = some state)
    (id : Uuid) : id ∈ state.runningJobs ↔ ∃ job, (jc.queue x).getJob id = some job ∧
      job.status = .running ∧ job.assignedWorker = some w := by
  have hinv : jc.Careful x ∧ (jc.view x).Balanced x := by
    refine h.invariant (P := fun jc => jc.Careful x ∧ (jc.view x).Balanced x)
      ⟨careful_start ids peers x, balanced_start ids peers x⟩ ?_
    rintro s s' ev ⟨hcareful, hb⟩ hskew hstep
    exact ⟨hcareful.step hstep, (viewStep_of_step hstep x).balanced hcareful hskew hb⟩
  have hsettled : (id, w) ∉ (jc.view x).unsettled x := by
    rintro (hmarked | ⟨-, hstored⟩)
    · change (jc.sites x).drain.markedJob = _ at hmarked
      cases hd : (jc.sites x).drain with
      | marked id w => exact hdrain id w hd
      | _ =>
        rw [hd] at hmarked
        cases hmarked
    · change (jc.sites x).worker.storedJob = _ at hstored
      cases hw : (jc.sites x).worker with
      | stored update batch => exact hworker update batch hw
      | _ =>
        rw [hw] at hstored
        cases hstored
  have hkeys : (jc.sites x).assigner.runningJobs w = some state.runningJobs :=
    congrArg (Option.map WorkerState.runningJobs) hstate
  exact (hinv.2 w _ hkeys id hsettled).trans JobQueue.runsOn_eq_some

theorem own_job_counted : ∃ jc state,
    Reach (step .standard [1, 2]) (fun jc ev => jc.skewsLoad 1 ev = false)
      (start [1, 2] fun _ => []) jc ∧
      (jc.node 1).isLeader = true ∧ (jc.sites 1).assigner.workers.lookup 1 = some state ∧
      state.runningJobs = {7} ∧ ∀ id, id ∈ state.runningJobs ↔
        ∃ job, (jc.queue 1).getJob id = some job ∧ job.status = .running ∧
          job.assignedWorker = some 1 := by
  obtain ⟨jc, hreach, hleader, hdrain, hworker, hjobs⟩ := exists_reach_of_guardedRun
    (step .standard [1, 2]) (fun jc ev => jc.skewsLoad 1 ev = false)
    (fun jc => (jc.node 1).isLeader = true ∧ (jc.sites 1).drain = .counted 7 1 ∧
      (jc.sites 1).worker = .waiting ∧
      ((jc.sites 1).assigner.workers.lookup 1).map WorkerState.runningJobs = some {7})
    (start [1, 2] fun _ => [])
    (registration 1 ++ raftSteps (Cluster.electedBy 1 2 1 0 0) ++ submission 1 0 7 ++ marking 1 7)
    (by decide +kernel)
  obtain ⟨state, hstate, hseven⟩ := Option.map_eq_some_iff.mp hjobs
  refine ⟨jc, state, hreach, hleader, hstate, hseven, load_counter_exact hreach ?_ ?_ hstate⟩
  · simp [hdrain]
  · simp [hworker]

def laterReplication (x y term prev : ℕ) (entries : List LogEntry) : List JobEvent :=
  let req : AppendEntriesRequest :=
    ⟨term, x, prev, term, entries.map (logEntryToProto .standard), prev⟩
  raftSteps [⟨x, .replicateTick⟩, ⟨y, .deliver 0 x (.appendEntries .replication req)⟩,
    ⟨x, .deliver 0 y (.appendReply .replication req ⟨term, true, prev + entries.length⟩)⟩,
    ⟨x, .heartbeatTick⟩,
    ⟨y, .deliver 0 x (.appendEntries .heartbeat ⟨term, x, 0, 0, [], prev + entries.length⟩)⟩]

def remoteAssignment : List JobEvent :=
  bothApplied ++ [.workerHeartbeat 1 2 0, .drain 1 .checkLeader, .drain 1 (.choose 7 2 0),
    .drain 1 .mark, .drain 1 .count, .drain 1 .send, .service (.handleMessage 1),
    .drain 1 (.chooseNone 0)] ++
    laterReplication 1 2 1 1 [⟨1, 2, .assignJob 7 2⟩] ++ application 2

def remoteExecution : List JobEvent :=
  registration 2 ++
    [.work 2 (.heartbeat true 0), .work 2 (.poll [⟨7, "true", none⟩]), .work 2 .execute,
      .work 2 (.finish success), .work 2 (.storeResult .epoch), .work 2 .completeJob,
      .work 2 .flush, .work 2 .forward, .forward 0, .service (.handleMessage 1)] ++
    laterReplication 1 2 1 2 [⟨1, 3, .updateJobStatus 7 .completed 2 (some 0) (some .epoch)⟩] ++
    application 1 ++ [.schedule 1 (.applyEntry ⟨.epoch, 0⟩), .schedule 1 .beginCompaction]

/-- The job is completed in the queue of the leader and stays counted for worker 2. -/
theorem remote_job_stays_counted : ∃ jc,
    Reach (step .standard [1, 2]) (fun _ _ => True) (start [1, 2] fun _ => [⟨1, ""⟩]) jc ∧
      (jc.node 1).isLeader = true ∧ (jc.sites 1).phase = .waiting ∧ (jc.sites 1).drain = .idle ∧
      (jc.sites 1).worker = .starting ∧
      ((jc.sites 1).assigner.workers.lookup 2).map WorkerState.runningJobs = some {7} ∧
      jc.jobAt 1 7 = some (.completed, some 2) :=
  exists_reach_of_guardedRun (step .standard [1, 2]) (fun _ _ => True)
    (fun jc => (jc.node 1).isLeader = true ∧ (jc.sites 1).phase = .waiting ∧
      (jc.sites 1).drain = .idle ∧ (jc.sites 1).worker = .starting ∧
      ((jc.sites 1).assigner.workers.lookup 2).map WorkerState.runningJobs = some {7} ∧
      jc.jobAt 1 7 = some (.completed, some 2))
    (start [1, 2] fun _ => [⟨1, ""⟩]) (remoteAssignment ++ remoteExecution) (by decide +kernel)

end JobCluster
end NomadLite
