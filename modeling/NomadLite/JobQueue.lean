import NomadLite.RaftLog

/-!
# The job queue and the commands applied to it

The queue is a map from job ids to jobs with a bound on the number of active ones.
Every job is stored under its own id, so the operations that change a job in place
are instances of one update that keeps the id. `applyCommand` is what the scheduler
loop does to the queue for one committed entry; the clock is read only when a job is
cancelled.
-/

namespace NomadLite

structure JobQueue where
  jobs : Finmap (fun _ : Uuid => Job)
  maxJobs : ℕ
  id_eq : ∀ id job, jobs.lookup id = some job → job.id = id
deriving DecidableEq

namespace JobQueue

def defaultMaxJobs : ℕ := 10000

def withCapacity (maxJobs : ℕ) : JobQueue where
  jobs := ∅
  maxJobs := maxJobs
  id_eq _ _ h := by
    rw [Finmap.lookup_empty] at h
    cases h

def new : JobQueue := withCapacity defaultMaxJobs

def clear (q : JobQueue) : JobQueue := withCapacity q.maxJobs

def getJob (q : JobQueue) (id : Uuid) : Option Job := q.jobs.lookup id

def countActive (jobs : Finmap (fun _ : Uuid => Job)) : ℕ :=
  jobs.entries.countP fun entry => entry.2.status.isActive = true

def activeJobCount (q : JobQueue) : ℕ := countActive q.jobs

def isFull (q : JobQueue) : Bool := q.maxJobs ≤ q.activeJobCount

def insertJob (q : JobQueue) (job : Job) : JobQueue where
  jobs := q.jobs.insert job.id job
  maxJobs := q.maxJobs
  id_eq id job' h := by
    by_cases hid : id = job.id
    · rw [hid, Finmap.lookup_insert] at h
      rw [← Option.some.inj h, hid]
    · rw [Finmap.lookup_insert_of_ne _ hid] at h
      exact q.id_eq id job' h

/-- Whether the job is new does not matter: a full queue also refuses to replace one. -/
def addJob (q : JobQueue) (job : Job) : JobQueue × Bool :=
  if q.maxJobs ≤ q.activeJobCount then (q, false) else (q.insertJob job, true)

def modifyJob (q : JobQueue) (id : Uuid) (f : Job → Job) : JobQueue × Bool :=
  match q.getJob id with
  | some job => (q.insertJob { f job with id := job.id }, true)
  | none => (q, false)

/-- Output and error stay as they are. -/
def updateStatusMetadata (q : JobQueue) (id : Uuid) (status : JobStatus) (executedBy : ℕ)
    (exitCode : Option ℤ) (completedAt : Option DateTime) : JobQueue × Bool :=
  q.modifyJob id fun job =>
    { job with
      status := status
      executedBy := some executedBy
      exitCode := exitCode
      completedAt := completedAt }

def assignJob (q : JobQueue) (id : Uuid) (workerId : ℕ) : JobQueue × Bool :=
  q.modifyJob id fun job => { job with assignedWorker := some workerId, status := .running }

def cancelJob (q : JobQueue) (now : DateTime) (id : Uuid) : JobQueue × Bool :=
  match q.getJob id with
  | some job =>
    if job.status.isActive then
      q.modifyJob id fun job => { job with status := .cancelled, completedAt := some now }
    else (q, false)
  | none => (q, false)

def retain (q : JobQueue) (p : Job → Bool) : JobQueue where
  jobs := ⟨q.jobs.entries.filter fun entry => p entry.2, Multiset.nodup_keys.mp
    (Multiset.nodup_of_le (Multiset.map_le_map (Multiset.filter_le ..))
      (Multiset.nodup_keys.mpr q.jobs.nodupKeys))⟩
  maxJobs := q.maxJobs
  id_eq id job h := by
    have hmem := Finmap.lookup_eq_some_iff.mp h
    exact q.id_eq id job (Finmap.lookup_eq_some_iff.mpr (Multiset.mem_of_mem_filter hmem))

/-- A finished job stays while `completed_at` is later than the cutoff, or missing. -/
def keptAfter (cutoff : DateTime) (job : Job) : Bool :=
  job.status.isActive || job.completedAt.all fun t => !decide (t.le cutoff)

def cleanupFinishedJobs (q : JobQueue) (now : DateTime) (retentionSecs : ℕ) : JobQueue × ℕ :=
  let q' := q.retain (keptAfter (now.subSeconds retentionSecs))
  (q', q.jobs.entries.card - q'.jobs.entries.card)

/-! ### Committed commands -/

/-- A job that is already cancelled keeps its status. -/
def applyStatus (q : JobQueue) (u : JobStatusUpdate) : JobQueue :=
  if (q.getJob u.jobId).map Job.status = some .cancelled then q
  else (q.updateStatusMetadata u.jobId u.status u.executedBy u.exitCode u.completedAt).1

def applyCommand (now : DateTime) (q : JobQueue) : Command → JobQueue
  | .submitJob jobId command createdAt image =>
    if q.getJob jobId = none then
      (q.addJob { Job.withId jobId command createdAt with image := image }).1
    else q
  | .updateJobStatus jobId status executedBy exitCode completedAt =>
    q.applyStatus ⟨jobId, status, executedBy, exitCode, completedAt⟩
  | .batchUpdateJobStatus updates => updates.foldl applyStatus q
  | .registerWorker _ => q
  | .assignJob jobId workerId =>
    if (q.getJob jobId).map Job.status = some .pending then (q.assignJob jobId workerId).1 else q
  | .cancelJob jobId =>
    match q.getJob jobId with
    | some job => if job.status.isActive then (q.cancelJob now jobId).1 else q
    | none => q
  | .noop => q

/-- `rebuild_from_snapshot` on the queue: the jobs are added in order until the queue is full. -/
def rebuildFromSnapshot (q : JobQueue) (snapshot : Snapshot) : JobQueue :=
  (snapshot.jobs.map Job.fromSnapshot).foldl (fun q job => (q.addJob job).1) q.clear

/-! ### Tables as lists of jobs -/

section Lists

variable {m : Finmap (fun _ : Uuid => Job)} {jobs : List Job}
  (h : ((jobs.map fun job => (⟨job.id, job⟩ : (_ : Uuid) × Job) : List _) : Multiset _) =
    m.entries)

include h

theorem lookup_eq_some_iff_mem {id : Uuid} {job : Job} :
    m.lookup id = some job ↔ job.id = id ∧ job ∈ jobs := by
  rw [Finmap.lookup_eq_some_iff, ← h, Multiset.mem_coe, List.mem_map]
  constructor
  · rintro ⟨job', hjob', heq⟩
    obtain ⟨hid, heq⟩ := Sigma.mk.inj heq
    obtain rfl := eq_of_heq heq
    exact ⟨hid, hjob'⟩
  · rintro ⟨rfl, hjob⟩
    exact ⟨job, hjob, rfl⟩

theorem nodup_ids_of_entries : (jobs.map Job.id).Nodup := by
  have hkeys := Multiset.nodup_keys.mpr m.nodupKeys
  rw [← h, Multiset.keys, Multiset.map_coe, Multiset.coe_nodup, List.map_map] at hkeys
  exact hkeys

end Lists

/-! ### The capacity never changes -/

@[simp] theorem insertJob_maxJobs (q : JobQueue) (job : Job) :
    (q.insertJob job).maxJobs = q.maxJobs := rfl

@[simp] theorem addJob_maxJobs (q : JobQueue) (job : Job) :
    (q.addJob job).1.maxJobs = q.maxJobs := by
  unfold addJob
  split_ifs <;> rfl

@[simp] theorem modifyJob_maxJobs (q : JobQueue) (id : Uuid) (f : Job → Job) :
    (q.modifyJob id f).1.maxJobs = q.maxJobs := by
  unfold modifyJob
  split <;> rfl

@[simp] theorem applyStatus_maxJobs (q : JobQueue) (u : JobStatusUpdate) :
    (q.applyStatus u).maxJobs = q.maxJobs := by
  unfold applyStatus
  split_ifs
  · rfl
  · exact modifyJob_maxJobs ..

theorem foldl_applyStatus_maxJobs (q : JobQueue) (updates : List JobStatusUpdate) :
    (updates.foldl applyStatus q).maxJobs = q.maxJobs := by
  induction updates generalizing q with
  | nil => rfl
  | cons u updates ih => rw [List.foldl_cons, ih, applyStatus_maxJobs]

theorem cancelJob_maxJobs (q : JobQueue) (now : DateTime) (id : Uuid) :
    (q.cancelJob now id).1.maxJobs = q.maxJobs := by
  unfold cancelJob
  split
  · split_ifs
    · exact modifyJob_maxJobs ..
    · rfl
  · rfl

theorem applyCommand_maxJobs (now : DateTime) (q : JobQueue) (command : Command) :
    (q.applyCommand now command).maxJobs = q.maxJobs := by
  cases command with
  | submitJob jobId command createdAt image =>
    rw [applyCommand]
    split_ifs
    · exact addJob_maxJobs ..
    · rfl
  | updateJobStatus jobId status executedBy exitCode completedAt => exact applyStatus_maxJobs ..
  | batchUpdateJobStatus updates => exact foldl_applyStatus_maxJobs ..
  | registerWorker workerId => rfl
  | assignJob jobId workerId =>
    rw [applyCommand]
    split_ifs
    · exact modifyJob_maxJobs ..
    · rfl
  | cancelJob jobId =>
    rw [applyCommand]
    split
    · split_ifs
      · exact cancelJob_maxJobs ..
      · rfl
    · rfl
  | noop => rfl

/-! ### A rebuilt queue -/

def table (jobs : List Job) : Finmap (fun _ : Uuid => Job) :=
  jobs.foldl (fun t job => t.insert job.id job) ∅

/-- `k` is the number of jobs that are added before the capacity is reached. -/
def Admits (maxJobs : ℕ) (jobs : List Job) (k : ℕ) : Prop :=
  k ≤ jobs.length ∧ (∀ i < k, countActive (table (jobs.take i)) < maxJobs) ∧
    (k = jobs.length ∨ maxJobs ≤ countActive (table (jobs.take k)))

def Shows (q : JobQueue) (jobs : List Job) : Prop :=
  ∃ k, Admits q.maxJobs jobs k ∧ q.jobs = table (jobs.take k)

theorem ext {q q' : JobQueue} (hjobs : q.jobs = q'.jobs) (hmax : q.maxJobs = q'.maxJobs) :
    q = q' := by
  cases q
  cases q'
  subst hjobs hmax
  rfl

theorem Admits.unique {maxJobs k k' : ℕ} {jobs : List Job} (h : Admits maxJobs jobs k)
    (h' : Admits maxJobs jobs k') : k = k' := by
  obtain ⟨hle, hfit, hend⟩ := h
  obtain ⟨hle', hfit', hend'⟩ := h'
  rcases lt_trichotomy k k' with hlt | heq | hgt
  · have := hfit' k hlt
    omega
  · exact heq
  · have := hfit k' hgt
    omega

theorem table_concat (jobs : List Job) (job : Job) :
    table (jobs ++ [job]) = (table jobs).insert job.id job := by
  rw [table, List.foldl_concat, table]

theorem foldl_addJob_of_isFull (q : JobQueue) (jobs : List Job)
    (hfull : q.maxJobs ≤ q.activeJobCount) :
    jobs.foldl (fun q job => (q.addJob job).1) q = q := by
  induction jobs with
  | nil => rfl
  | cons job jobs ih =>
    rw [List.foldl_cons, addJob, if_pos hfull]
    exact ih

theorem foldl_addJob_maxJobs (q : JobQueue) (jobs : List Job) :
    (jobs.foldl (fun q job => (q.addJob job).1) q).maxJobs = q.maxJobs := by
  induction jobs generalizing q with
  | nil => rfl
  | cons job jobs ih => rw [List.foldl_cons, ih, addJob_maxJobs]

theorem exists_admits (q : JobQueue) (done rest : List Job) (hq : q.jobs = table done)
    (hfit : ∀ i < done.length, countActive (table ((done ++ rest).take i)) < q.maxJobs) :
    ∃ k, Admits q.maxJobs (done ++ rest) k ∧
      (rest.foldl (fun q job => (q.addJob job).1) q).jobs = table ((done ++ rest).take k) := by
  induction rest generalizing q done with
  | nil =>
    refine ⟨done.length, ⟨by simp, hfit, Or.inl (by simp)⟩, ?_⟩
    simpa using hq
  | cons job rest ih =>
    have htake : (done ++ job :: rest).take done.length = done := List.take_left ..
    by_cases hfull : q.maxJobs ≤ q.activeJobCount
    · refine ⟨done.length, ⟨by simp, hfit, Or.inr ?_⟩, ?_⟩
      · rwa [htake, ← hq]
      · rw [foldl_addJob_of_isFull q _ hfull, htake, hq]
    · rw [List.foldl_cons, addJob, if_neg hfull]
      rw [List.append_cons] at htake hfit ⊢
      refine ih (q.insertJob job) (done ++ [job]) ?_ fun i hi => ?_
      · rw [table_concat, ← hq]
        rfl
      · rw [List.length_append, List.length_singleton] at hi
        rcases Nat.lt_succ_iff_lt_or_eq.mp hi with hlt | rfl
        · exact hfit i hlt
        · rw [htake, ← hq]
          exact not_le.mp hfull

theorem rebuildFromSnapshot_maxJobs (q : JobQueue) (snapshot : Snapshot) :
    (q.rebuildFromSnapshot snapshot).maxJobs = q.maxJobs :=
  foldl_addJob_maxJobs ..

/-- What a rebuilt queue holds depends on the snapshot and the capacity alone. -/
theorem rebuildFromSnapshot_eq_of_maxJobs {q q' : JobQueue} (h : q.maxJobs = q'.maxJobs)
    (snapshot : Snapshot) : q.rebuildFromSnapshot snapshot = q'.rebuildFromSnapshot snapshot := by
  rw [rebuildFromSnapshot, rebuildFromSnapshot, clear, clear, h]

theorem rebuildFromSnapshot_eq_self_iff (q : JobQueue) (snapshot : Snapshot) :
    q.rebuildFromSnapshot snapshot = q ↔ q.Shows (snapshot.jobs.map Job.fromSnapshot) := by
  obtain ⟨k, hk, hjobs⟩ := exists_admits q.clear [] (snapshot.jobs.map Job.fromSnapshot) rfl
    (fun i hi => absurd hi (Nat.not_lt_zero i))
  constructor
  · intro heq
    exact ⟨k, hk, heq ▸ hjobs⟩
  · rintro ⟨k', hk', hq⟩
    refine ext ?_ (rebuildFromSnapshot_maxJobs q snapshot)
    rw [hq, hk'.unique hk]
    exact hjobs

end JobQueue
end NomadLite
