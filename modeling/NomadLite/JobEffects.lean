import NomadLite.JobQueue

/-!
# What a committed command does to one job

Apart from a submission, a command changes the jobs of a queue one by one, and how it
changes a job depends on that job and the clock alone. `getJob_applyCommand` says so;
what the replicas have in common is then a question about single jobs.
-/

namespace NomadLite

def Command.updates : Command → List JobStatusUpdate
  | .updateJobStatus jobId status executedBy exitCode completedAt =>
    [⟨jobId, status, executedBy, exitCode, completedAt⟩]
  | .batchUpdateJobStatus updates => updates
  | _ => []

namespace Job

def applyStatus (u : JobStatusUpdate) (job : Job) : Job :=
  if job.id = u.jobId ∧ job.status ≠ .cancelled then
    { job with
      status := u.status
      executedBy := some u.executedBy
      exitCode := u.exitCode
      completedAt := u.completedAt }
  else job

def applyCommand (now : DateTime) (job : Job) : Command → Job
  | .submitJob .. | .registerWorker _ | .noop => job
  | .updateJobStatus jobId status executedBy exitCode completedAt =>
    job.applyStatus ⟨jobId, status, executedBy, exitCode, completedAt⟩
  | .batchUpdateJobStatus updates => updates.foldl (fun job u => job.applyStatus u) job
  | .assignJob jobId workerId =>
    if job.id = jobId ∧ job.status = .pending then
      { job with assignedWorker := some workerId, status := .running }
    else job
  | .cancelJob jobId =>
    if job.id = jobId ∧ job.status.isActive = true then
      { job with status := .cancelled, completedAt := some now }
    else job

/-- A command assigns a pending job, cancels an active one, or applies the updates it carries, one
after the other. -/
theorem applyCommand_induction {P : Job → Prop} {job : Job} {now : DateTime} {command : Command}
    (h : P job) (hstatus : ∀ u ∈ command.updates, ∀ job, P job → P (job.applyStatus u))
    (hassign : ∀ jobId workerId, command = .assignJob jobId workerId → job.status = .pending →
      P { job with assignedWorker := some workerId, status := .running })
    (hcancel : job.status.isActive = true →
      P { job with status := .cancelled, completedAt := some now }) :
    P (job.applyCommand now command) := by
  cases command with
  | submitJob | registerWorker | noop => exact h
  | updateJobStatus => exact hstatus _ (List.mem_singleton_self _) job h
  | batchUpdateJobStatus updates =>
    exact List.foldlRecOn updates _ h fun job hjob u hu => hstatus u hu job hjob
  | assignJob jobId workerId =>
    rw [applyCommand]
    split_ifs with hpending
    · exact hassign jobId workerId rfl hpending.2
    · exact h
  | cancelJob jobId =>
    rw [applyCommand]
    split_ifs with hactive
    · exact hcancel hactive.2
    · exact h

end Job

def Command.submitted : Command → Option Uuid
  | .submitJob jobId .. => some jobId
  | _ => none

namespace JobQueue

variable (q : JobQueue) (now : DateTime) (id : Uuid)

theorem getJob_insertJob (job : Job) :
    (q.insertJob job).getJob id = if id = job.id then some job else q.getJob id := by
  split_ifs with h
  · rw [h]
    exact Finmap.lookup_insert _
  · exact Finmap.lookup_insert_of_ne _ h

theorem id_of_getJob {q : JobQueue} {id : Uuid} {job : Job} (h : q.getJob id = some job) :
    job.id = id := q.id_eq id job h

/-- A queue that changes one job, and only if the job meets `p`, changes every job on its own. -/
theorem getJob_of_modifyJob {q q' : JobQueue} (target : Uuid) {f : Job → Job} (p : Job → Prop)
    [DecidablePred p] (hf : ∀ job, (f job).id = job.id) (hnone : q.getJob target = none → q' = q)
    (hsome : ∀ job, q.getJob target = some job →
      q' = if p job then (q.modifyJob target f).1 else q) :
    q'.getJob id = (q.getJob id).map fun job => if job.id = target ∧ p job then f job else job := by
  by_cases hid : id = target
  · subst hid
    cases hq : q.getJob id with
    | none =>
      rw [hnone hq, hq]
      rfl
    | some job =>
      rw [hsome job hq, Option.map_some]
      split_ifs with hp hboth hboth
      · have hid : id = (f job).id := (id_of_getJob hq).symm.trans (hf job).symm
        simp only [modifyJob, hq, getJob_insertJob, id_of_getJob hq, if_true]
        rw [hid]
      · exact absurd ⟨id_of_getJob hq, hp⟩ hboth
      · exact absurd hboth.2 hp
      · exact hq
  · have hsame : q'.getJob id = q.getJob id := by
      cases ht : q.getJob target with
      | none => rw [hnone ht]
      | some job =>
        rw [hsome job ht]
        split_ifs
        · simp only [modifyJob, ht, getJob_insertJob, id_of_getJob ht, if_neg hid]
        · rfl
    rw [hsame]
    cases hq : q.getJob id with
    | none => rfl
    | some job =>
      have hne : job.id ≠ target := id_of_getJob hq ▸ hid
      rw [Option.map_some, if_neg fun h => hne h.1]

theorem getJob_applyStatus (u : JobStatusUpdate) :
    (q.applyStatus u).getJob id = (q.getJob id).map fun job => job.applyStatus u := by
  refine getJob_of_modifyJob id u.jobId (fun job => job.status ≠ .cancelled)
    (fun _ => rfl) ?_ ?_
  · intro h
    simp only [applyStatus, updateStatusMetadata, modifyJob, h, ite_self]
  · intro job h
    simp only [applyStatus, updateStatusMetadata, h, Option.map_some, Option.some.injEq, ne_eq,
      ite_not]

theorem getJob_foldl_applyStatus (updates : List JobStatusUpdate) :
    (updates.foldl applyStatus q).getJob id = (q.getJob id).map fun job =>
      updates.foldl (fun job u => job.applyStatus u) job := by
  induction updates generalizing q with
  | nil => exact Option.map_id'.symm
  | cons u updates ih =>
    rw [List.foldl_cons, ih, getJob_applyStatus, Option.map_map]
    rfl

theorem getJob_cancelJob (jobId : Uuid) :
    (q.cancelJob now jobId).1.getJob id =
      (q.getJob id).map fun job => job.applyCommand now (.cancelJob jobId) := by
  refine getJob_of_modifyJob id jobId (fun job => job.status.isActive = true)
    (fun _ => rfl) ?_ ?_
  · intro h
    simp only [cancelJob, h]
  · intro job h
    simp only [cancelJob, h]
    split_ifs <;> rfl

theorem getJob_applyCommand {command : Command} (h : command.submitted = none) :
    (q.applyCommand now command).getJob id =
      (q.getJob id).map fun job => job.applyCommand now command := by
  cases command with
  | submitJob jobId command createdAt image => cases h
  | updateJobStatus jobId status executedBy exitCode completedAt => exact q.getJob_applyStatus id _
  | batchUpdateJobStatus updates => exact q.getJob_foldl_applyStatus id updates
  | registerWorker workerId => exact Option.map_id'.symm
  | noop => exact Option.map_id'.symm
  | assignJob jobId workerId =>
    refine getJob_of_modifyJob id jobId (fun job => job.status = .pending)
      (fun _ => rfl) ?_ ?_
    · intro hq
      simp only [applyCommand, hq, Option.map_none, reduceCtorEq, if_false]
    · intro job hq
      simp only [applyCommand, hq, Option.map_some, Option.some.injEq, assignJob]
  | cancelJob jobId =>
    rw [← getJob_cancelJob]
    cases hq : q.getJob jobId with
    | none => simp only [applyCommand, cancelJob, hq]
    | some job =>
      simp only [applyCommand, cancelJob, hq]
      split_ifs <;> rfl

theorem getJob_addJob (job : Job) :
    (q.addJob job).1.getJob id =
      if q.isFull = false ∧ id = job.id then some job else q.getJob id := by
  by_cases hfull : q.maxJobs ≤ q.activeJobCount
  · rw [addJob, if_pos hfull, isFull, decide_eq_true hfull]
    rfl
  · rw [addJob, if_neg hfull, isFull, decide_eq_false hfull, getJob_insertJob]
    simp only [true_and]

/-- A submission adds its job if the id is new and there is room. -/
theorem getJob_submitJob (jobId : Uuid) (command : String) (createdAt : DateTime)
    (image : Option String) :
    (q.applyCommand now (.submitJob jobId command createdAt image)).getJob id =
      if q.getJob jobId = none ∧ q.isFull = false ∧ id = jobId then
        some { Job.withId jobId command createdAt with image := image }
      else q.getJob id := by
  rw [applyCommand]
  by_cases hnone : q.getJob jobId = none
  · rw [if_pos hnone, getJob_addJob]
    simp only [hnone, true_and]
    rfl
  · rw [if_neg hnone, if_neg fun h => hnone h.1]

theorem getJob_applyCommand_of_ne {command : Command} (h : command.submitted ≠ some id) :
    (q.applyCommand now command).getJob id =
      (q.getJob id).map fun job => job.applyCommand now command := by
  cases hsub : command.submitted with
  | none => exact q.getJob_applyCommand now id hsub
  | some jobId =>
    cases command with
    | submitJob jobId' command createdAt image =>
      obtain rfl := Option.some.inj hsub
      have hne : id ≠ jobId' := fun heq => h (congrArg some heq.symm)
      rw [getJob_submitJob, if_neg fun hc => hne hc.2.2]
      exact Option.map_id'.symm
    | _ => cases hsub

theorem getJob_modifyJob (jobId : Uuid) {f : Job → Job} (hf : ∀ job, (f job).id = job.id) :
    (q.modifyJob jobId f).1.getJob id = (q.getJob id).map fun job =>
      if job.id = jobId then f job else job := by
  have hmodify : (q.modifyJob jobId f).1.getJob id = (q.getJob id).map fun job =>
      if job.id = jobId ∧ True then f job else job := by
    refine getJob_of_modifyJob id jobId (fun _ => True) hf (fun hnone => ?_)
      fun job _ => (if_pos trivial).symm
    simp only [modifyJob, hnone]
  simpa only [and_true] using hmodify

theorem getJob_assignJob (jobId : Uuid) (workerId : ℕ) :
    (q.assignJob jobId workerId).1.getJob id = (q.getJob id).map fun job =>
      if job.id = jobId then { job with assignedWorker := some workerId, status := .running }
      else job :=
  q.getJob_modifyJob id jobId fun _ => rfl

theorem getJob_foldl_addJob {q : JobQueue} {jobs : List Job} {id : Uuid} {job : Job}
    (h : (jobs.foldl (fun q job => (q.addJob job).1) q).getJob id = some job) :
    job ∈ jobs ∨ q.getJob id = some job := by
  induction jobs generalizing q with
  | nil => exact .inr h
  | cons added jobs ih =>
    rcases ih h with hmem | hadded
    · exact .inl (List.mem_cons_of_mem _ hmem)
    · rw [getJob_addJob] at hadded
      split_ifs at hadded
      · exact .inl (Option.some.inj hadded ▸ List.mem_cons_self ..)
      · exact .inr hadded

theorem mem_of_getJob_rebuildFromSnapshot {q : JobQueue} {snapshot : Snapshot} {id : Uuid}
    {job : Job} (h : (q.rebuildFromSnapshot snapshot).getJob id = some job) :
    ∃ job' ∈ snapshot.jobs, Job.fromSnapshot job' = job := by
  rcases getJob_foldl_addJob h with hmem | hclear
  · exact List.mem_map.mp hmem
  · rw [show q.clear.getJob id = none from Finmap.lookup_empty id] at hclear
    cases hclear

end JobQueue
end NomadLite
