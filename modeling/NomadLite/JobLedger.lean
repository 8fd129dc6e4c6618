import NomadLite.JobCluster
import NomadLite.Optimistic
import NomadLite.ReplicaConvergence

/-!
# A queue and the log it is ahead of

`JobCore` is what a command reads and writes of a job. The core under one id changes
with a command by `act`, on any queue. `Follows` compares the core of a queue with the
one that the applied commands and the outstanding writes lead to: they are equal, or
the job has finished and was evicted.
-/

namespace NomadLite

open Optimistic

/-- A job without its times and its output. -/
structure JobCore where
  id : Uuid
  command : String
  image : Option String
  status : JobStatus
  assignedWorker : Option ℕ
  executedBy : Option ℕ
  exitCode : Option ℤ
deriving DecidableEq

def Job.core (job : Job) : JobCore :=
  ⟨job.id, job.command, job.image, job.status, job.assignedWorker, job.executedBy, job.exitCode⟩

namespace JobCore

def fresh (id : Uuid) (command : String) (image : Option String) : JobCore :=
  ⟨id, command, image, .pending, none, none, none⟩

def applyStatus (u : JobStatusUpdate) (core : JobCore) : JobCore :=
  if core.id = u.jobId ∧ core.status ≠ .cancelled then
    { core with status := u.status, executedBy := some u.executedBy, exitCode := u.exitCode }
  else core

def assign (workerId : ℕ) (core : JobCore) : JobCore :=
  { core with assignedWorker := some workerId, status := .running }

def applyCommand (core : JobCore) : Command → JobCore
  | .submitJob .. | .registerWorker _ | .noop => core
  | .updateJobStatus jobId status executedBy exitCode completedAt =>
    core.applyStatus ⟨jobId, status, executedBy, exitCode, completedAt⟩
  | .batchUpdateJobStatus updates => updates.foldl (fun core u => core.applyStatus u) core
  | .assignJob jobId workerId =>
    if core.id = jobId ∧ core.status = .pending then core.assign workerId else core
  | .cancelJob jobId =>
    if core.id = jobId ∧ core.status.isActive = true then { core with status := .cancelled }
    else core

end JobCore

theorem Job.core_applyStatus (job : Job) (u : JobStatusUpdate) :
    (job.applyStatus u).core = job.core.applyStatus u := by
  unfold Job.applyStatus JobCore.applyStatus
  split_ifs with h h' h'
  · rfl
  · exact absurd h h'
  · exact absurd h' h
  · rfl

theorem Job.core_applyCommand (job : Job) (now : DateTime) (c : Command) :
    (job.applyCommand now c).core = job.core.applyCommand c := by
  cases c with
  | submitJob jobId command createdAt image => rfl
  | registerWorker workerId => rfl
  | noop => rfl
  | updateJobStatus jobId status executedBy exitCode completedAt => exact job.core_applyStatus _
  | batchUpdateJobStatus updates =>
    change (updates.foldl _ job).core = updates.foldl _ job.core
    induction updates generalizing job with
    | nil => rfl
    | cons u updates ih => rw [List.foldl_cons, List.foldl_cons, ih, job.core_applyStatus]
  | assignJob jobId workerId =>
    simp only [Job.applyCommand, JobCore.applyCommand]
    change _ = if job.id = jobId ∧ job.status = .pending then _ else _
    split_ifs <;> rfl
  | cancelJob jobId =>
    simp only [Job.applyCommand, JobCore.applyCommand]
    change _ = if job.id = jobId ∧ job.status.isActive = true then _ else _
    split_ifs <;> rfl

/-- What a command makes of the core under `id` in a queue with or without room. -/
def Command.act (room : Bool) (id : Uuid) (c : Command) (core : Option JobCore) :
    Option JobCore :=
  match c with
  | .submitJob jobId command _ image =>
    if jobId = id ∧ core = none ∧ room = true then some (.fresh id command image) else core
  | c => core.map fun core => core.applyCommand c

theorem Command.act_of_submitted_eq_none {c : Command} (h : c.submitted = none) (room : Bool)
    (id : Uuid) (core : Option JobCore) :
    c.act room id core = core.map fun core => core.applyCommand c := by
  cases c with
  | submitJob jobId command createdAt image => cases h
  | _ => rfl

theorem Command.act_some (c : Command) (room : Bool) (id : Uuid) (core : JobCore) :
    c.act room id (some core) = some (core.applyCommand c) := by
  cases c with
  | submitJob jobId command createdAt image =>
    exact if_neg fun h => Option.some_ne_none _ h.2.1
  | _ => rfl

theorem Command.act_none {c : Command} {id : Uuid} (h : c.submitted ≠ some id) (room : Bool) :
    c.act room id none = none := by
  cases c with
  | submitJob jobId command createdAt image =>
    exact if_neg fun hc => h (congrArg some hc.1)
  | _ => rfl

def JobQueue.core (q : JobQueue) (id : Uuid) : Option JobCore := (q.getJob id).map Job.core

namespace JobQueue

variable {q : JobQueue} {id : Uuid}

theorem core_eq_none : q.core id = none ↔ q.getJob id = none := Option.map_eq_none_iff

theorem core_id {core : JobCore} (h : q.core id = some core) : core.id = id := by
  obtain ⟨job, hjob, rfl⟩ := Option.map_eq_some_iff.mp h
  exact id_of_getJob hjob

theorem core_insertJob (q : JobQueue) (job : Job) (id : Uuid) :
    (q.insertJob job).core id = if id = job.id then some job.core else q.core id := by
  rw [core, getJob_insertJob]
  split_ifs <;> rfl

theorem core_applyCommand (q : JobQueue) (now : DateTime) (c : Command) (id : Uuid) :
    (q.applyCommand now c).core id = c.act (!q.isFull) id (q.core id) := by
  cases hsub : c.submitted with
  | none =>
    rw [core, getJob_applyCommand _ _ _ hsub, Command.act_of_submitted_eq_none hsub, core,
      Option.map_map, Option.map_map]
    exact congrArg (fun f => (q.getJob id).map f) (funext fun job => job.core_applyCommand now c)
  | some jobId =>
    cases c with
    | submitJob jobId command createdAt image =>
      have hiff : (q.getJob jobId = none ∧ q.isFull = false ∧ id = jobId) ↔
          jobId = id ∧ q.core id = none ∧ (!q.isFull) = true := by
        rw [core_eq_none, Bool.not_eq_true']
        constructor
        · rintro ⟨hnone, hroom, rfl⟩
          exact ⟨rfl, hnone, hroom⟩
        · rintro ⟨rfl, hnone, hroom⟩
          exact ⟨hnone, hroom, rfl⟩
      rw [core, getJob_submitJob, Command.act]
      simp only [hiff]
      split_ifs with hnew
      · rw [← hnew.1]
        rfl
      · rfl
    | _ => cases hsub

end JobQueue

/-! ### Commands on the wire and in snapshots -/

def Command.jobIds : Command → List Uuid
  | .submitJob jobId .. | .updateJobStatus jobId .. | .assignJob jobId _ | .cancelJob jobId =>
    [jobId]
  | .batchUpdateJobStatus updates => updates.map JobStatusUpdate.jobId
  | .registerWorker _ | .noop => []

theorem Job.applyCommand_of_not_mem {job : Job} {c : Command} (h : job.id ∉ c.jobIds)
    (now : DateTime) : job.applyCommand now c = job := by
  have hne : ∀ u : JobStatusUpdate, job.id ≠ u.jobId → job.applyStatus u = job := fun u hu =>
    if_neg fun hc => hu hc.1
  cases c with
  | submitJob | registerWorker | noop => rfl
  | updateJobStatus => exact hne _ fun heq => h (heq ▸ List.mem_singleton_self _)
  | batchUpdateJobStatus updates =>
    refine List.foldlRecOn (motive := fun job' => job' = job) updates _ rfl fun job' heq u hu => ?_
    rw [heq]
    exact hne u fun heq => h (heq ▸ List.mem_map_of_mem hu)
  | assignJob jobId workerId =>
    have hid : job.id ≠ jobId := fun heq => h (heq ▸ List.mem_singleton_self _)
    rw [applyCommand, if_neg fun hc => hid hc.1]
  | cancelJob jobId =>
    have hid : job.id ≠ jobId := fun heq => h (heq ▸ List.mem_singleton_self _)
    rw [applyCommand, if_neg fun hc => hid hc.1]

theorem JobQueue.getJob_applyCommand_of_not_mem (q : JobQueue) (now : DateTime) {c : Command}
    {id : Uuid} (h : id ∉ c.jobIds) : (q.applyCommand now c).getJob id = q.getJob id := by
  have hsub : c.submitted ≠ some id := by
    intro hsub
    cases c with
    | submitJob jobId command createdAt image =>
      exact h (List.mem_singleton.mpr (Option.some.inj hsub).symm)
    | _ => cases hsub
  rw [q.getJob_applyCommand_of_ne now id hsub]
  refine (Option.map_congr fun job hjob => ?_).trans Option.map_id'
  exact Job.applyCommand_of_not_mem (id_of_getJob hjob ▸ h) now

/-- An empty image and worker `0` mean on the wire and in a snapshot that there is none. -/
def Command.Portable : Command → Prop
  | .submitJob _ _ _ image => image ≠ some ""
  | .updateJobStatus _ _ executedBy .. => executedBy ≠ 0
  | .batchUpdateJobStatus updates => ∀ u ∈ updates, u.executedBy ≠ 0
  | .assignJob _ workerId => workerId ≠ 0
  | .registerWorker _ | .cancelJob _ | .noop => True

instance : DecidablePred Command.Portable
  | .submitJob _ _ _ image => inferInstanceAs (Decidable (image ≠ some ""))
  | .updateJobStatus _ _ executedBy .. => inferInstanceAs (Decidable (executedBy ≠ 0))
  | .batchUpdateJobStatus updates => inferInstanceAs (Decidable (∀ u ∈ updates, u.executedBy ≠ 0))
  | .assignJob _ workerId => inferInstanceAs (Decidable (workerId ≠ 0))
  | .registerWorker _ | .cancelJob _ | .noop => isTrue trivial

theorem Command.Portable.executedBy_ne {c : Command} (h : c.Portable) :
    ∀ u ∈ c.updates, u.executedBy ≠ 0 := by
  cases c with
  | updateJobStatus => exact List.forall_mem_singleton.mpr h
  | batchUpdateJobStatus updates => exact h
  | _ => exact List.forall_mem_nil _

theorem Command.onWire_portable {lib : WireLib} {c : Command} (h : c.Portable) :
    (c.onWire lib).Portable := by
  cases c with
  | submitJob jobId command createdAt image =>
    intro hempty
    obtain ⟨himage, hne⟩ := Option.filter_eq_some_iff.mp hempty
    exact h himage
  | batchUpdateJobStatus updates =>
    intro u hu
    obtain ⟨v, hv, rfl⟩ := List.mem_map.mp hu
    exact h v hv
  | _ => exact h

theorem Command.onWire_reports {lib : WireLib} {c : Command} (h : c.Reports) :
    (c.onWire lib).Reports := by
  cases c with
  | batchUpdateJobStatus updates =>
    intro u hu
    obtain ⟨v, hv, rfl⟩ := List.mem_map.mp hu
    exact h v hv
  | _ => exact h

namespace JobCore

variable {core : JobCore} {c : Command}

theorem applyStatus_of_ne {u : JobStatusUpdate} (h : core.id ≠ u.jobId) :
    core.applyStatus u = core := if_neg fun hc => h hc.1

theorem applyStatus_id (core : JobCore) (u : JobStatusUpdate) :
    (core.applyStatus u).id = core.id := by
  unfold applyStatus
  split_ifs <;> rfl

theorem foldl_applyStatus (core : JobCore) (updates : List JobStatusUpdate) :
    updates.foldl (fun core u => core.applyStatus u) core =
      (updates.filter fun u => u.jobId = core.id).foldl (fun core u => core.applyStatus u) core := by
  induction updates generalizing core with
  | nil => rfl
  | cons u updates ih =>
    by_cases hid : u.jobId = core.id
    · rw [List.filter_cons_of_pos (by simp [hid]), List.foldl_cons, List.foldl_cons, ih,
        core.applyStatus_id]
    · rw [List.filter_cons_of_neg (by simp [hid]), List.foldl_cons,
        applyStatus_of_ne fun heq => hid heq.symm, ih]

theorem applyCommand_of_not_mem (h : core.id ∉ c.jobIds) : core.applyCommand c = core := by
  cases c with
  | submitJob jobId command createdAt image => rfl
  | registerWorker workerId => rfl
  | noop => rfl
  | updateJobStatus jobId status executedBy exitCode completedAt =>
    exact applyStatus_of_ne fun heq => h (heq ▸ List.mem_singleton_self _)
  | batchUpdateJobStatus updates =>
    rw [applyCommand, foldl_applyStatus, List.filter_eq_nil_iff.mpr]
    · rfl
    · intro u hu heq
      exact h (of_decide_eq_true heq ▸ List.mem_map_of_mem hu)
  | assignJob jobId workerId =>
    have hne : core.id ≠ jobId := fun heq => h (heq ▸ List.mem_singleton_self _)
    rw [applyCommand, if_neg fun hc => hne hc.1]
  | cancelJob jobId =>
    have hne : core.id ≠ jobId := fun heq => h (heq ▸ List.mem_singleton_self _)
    rw [applyCommand, if_neg fun hc => hne hc.1]

theorem applyCommand_onWire (lib : WireLib) (core : JobCore) (c : Command) :
    core.applyCommand (c.onWire lib) = core.applyCommand c := by
  cases c with
  | batchUpdateJobStatus updates =>
    change (updates.map _).foldl _ core = updates.foldl _ core
    rw [List.foldl_map]
    rfl
  | _ => rfl

theorem applyCommand_induction {P : JobCore → Prop} (h : P core)
    (hstatus : ∀ u ∈ c.updates, ∀ core, P core → P (core.applyStatus u))
    (hassign : ∀ jobId workerId, c = .assignJob jobId workerId → core.status = .pending →
      P (core.assign workerId))
    (hcancel : core.status.isActive = true → P { core with status := .cancelled }) :
    P (core.applyCommand c) := by
  cases c with
  | submitJob | registerWorker | noop => exact h
  | updateJobStatus => exact hstatus _ (List.mem_singleton_self _) core h
  | batchUpdateJobStatus updates =>
    exact List.foldlRecOn updates _ h fun core hcore u hu => hstatus u hu core hcore
  | assignJob jobId workerId =>
    rw [applyCommand]
    split_ifs with hpending
    · exact hassign jobId workerId rfl hpending.2
    · exact h
  | cancelJob jobId =>
    rw [applyCommand]
    split_ifs with hactive
    · exact hcancel hactive.2
    · exact h

theorem finished_applyCommand (h : core.status.isActive = false) (hc : c.Reports) :
    (core.applyCommand c).status.isActive = false := by
  obtain ⟨job, rfl⟩ : ∃ job : Job, job.core = core :=
    ⟨⟨core.id, core.command, core.image, core.status, core.assignedWorker, core.executedBy,
      core.exitCode, none, none, .epoch, none⟩, rfl⟩
  rw [← Job.core_applyCommand job .epoch c]
  exact Job.finished_applyCommand h hc .epoch

end JobCore

theorem Command.act_of_not_mem {c : Command} {id : Uuid} {core : Option JobCore}
    (hcore : ∀ core' ∈ core, core'.id = id) (h : id ∉ c.jobIds) (room : Bool) :
    c.act room id core = core := by
  cases hsub : c.submitted with
  | none =>
    rw [act_of_submitted_eq_none hsub]
    cases core with
    | none => rfl
    | some core' =>
      rw [Option.map_some, JobCore.applyCommand_of_not_mem]
      rwa [hcore core' rfl]
  | some jobId =>
    cases c with
    | submitJob jobId command createdAt image =>
      have hne : jobId ≠ id := fun heq => h (heq ▸ List.mem_singleton_self _)
      rw [act, if_neg fun hc => hne hc.1]
    | _ => cases hsub

theorem Command.act_onWire (lib : WireLib) {c : Command} (h : c.Portable) (room : Bool) (id : Uuid)
    (core : Option JobCore) : (c.onWire lib).act room id core = c.act room id core := by
  cases c with
  | submitJob jobId command createdAt image =>
    simp only [Command.onWire, act, Option.filter_ne_empty h]
  | _ =>
    rw [act_of_submitted_eq_none rfl, act_of_submitted_eq_none rfl]
    exact congrArg (fun f => core.map f) (funext fun core' => core'.applyCommand_onWire lib _)

end NomadLite
