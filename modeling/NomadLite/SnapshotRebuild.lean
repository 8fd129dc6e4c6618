import NomadLite.SnapshotRecords

/-!
# Rebuilding from a snapshot

A snapshot of a queue lists its jobs by creation time, and a rebuild adds them in that
order. `add_job` refuses every job once as many active ones are in as the capacity
allows, finished jobs included. With fewer active jobs than that the rebuild restores
the queue; with exactly as many it does so if no finished job stands behind the last
active one.
-/

namespace NomadLite

def buildSnapshot (lastApplied lastAppliedTerm : ℕ) (jobs : List Job) (workers : List ℕ) :
    Snapshot where
  lastIncludedIndex := lastApplied
  lastIncludedTerm := lastAppliedTerm
  jobs := jobs.map Job.toSnapshot
  workers := workers

def JobAssigner.HasWorker (a : JobAssigner) (workerId : ℕ) : Prop :=
  ∃ key worker, a.workers.lookup key = some worker ∧ worker.id = workerId

namespace JobQueue

/-! ### Tables of jobs with distinct ids -/

theorem entries_table {jobs : List Job} (h : (jobs.map Job.id).Nodup) :
    ((jobs.map fun job => (⟨job.id, job⟩ : (_ : Uuid) × Job) : List _) : Multiset _) =
      (table jobs).entries := by
  induction jobs using List.reverseRecOn with
  | nil => rfl
  | append_singleton jobs job ih =>
    rw [List.map_append, List.nodup_append] at h
    obtain ⟨hjobs, -, hnew⟩ := h
    have hentries := ih hjobs
    have hmem : job.id ∉ table jobs := by
      rw [Finmap.mem_def, ← hentries, Multiset.keys, Multiset.map_coe, List.map_map,
        Multiset.mem_coe]
      exact fun hin => hnew _ hin _ (List.mem_singleton_self _) rfl
    rw [table_concat, Finmap.entries_insert_of_notMem hmem, ← hentries, List.map_append,
      ← Multiset.coe_add, add_comm]
    rfl

theorem countActive_eq {m : Finmap (fun _ : Uuid => Job)} {jobs : List Job}
    (h : ((jobs.map fun job => (⟨job.id, job⟩ : (_ : Uuid) × Job) : List _) : Multiset _) =
      m.entries) : countActive m = jobs.countP fun job => job.status.isActive := by
  rw [countActive, ← h, Multiset.coe_countP, List.countP_map]
  exact List.countP_congr fun job _ => by simp

/-! ### Which jobs are restored -/

/-- All jobs are admitted exactly if the capacity is not reached, or not before the last one. -/
theorem Admits.eq_length_iff {maxJobs k : ℕ} {jobs : List Job} (h : Admits maxJobs jobs k)
    (hnodup : (jobs.map Job.id).Nodup)
    (hactive : (jobs.countP fun job => job.status.isActive) ≤ maxJobs) :
    k = jobs.length ↔ (jobs.countP fun job => job.status.isActive) < maxJobs ∨
      ∀ job ∈ jobs.getLast?, job.status.isActive = true := by
  have hcount : ∀ i, countActive (table (jobs.take i)) =
      (jobs.take i).countP fun job => job.status.isActive := fun i =>
    countActive_eq (entries_table (hnodup.sublist ((List.take_sublist i jobs).map _)))
  obtain ⟨hle, hfit, hend⟩ := h
  simp only [hcount] at hfit hend
  rcases jobs.eq_nil_or_concat with rfl | ⟨front, last, rfl⟩
  · simpa using hle
  · rw [List.concat_eq_append] at *
    have hfront : ∀ i ≤ front.length, (front ++ [last]).take i = front.take i := fun i hi =>
      List.take_append_of_le_length hi
    have hlength : (front ++ [last]).length = front.length + 1 := List.length_append
    have hsum : ((front ++ [last]).countP fun job => job.status.isActive) =
        (front.countP fun job => job.status.isActive) + if last.status.isActive then 1 else 0 := by
      rw [List.countP_append, List.countP_singleton]
    rw [List.getLast?_concat]
    constructor
    · rintro rfl
      have hlast := hfit front.length (by omega)
      rw [hfront _ le_rfl, List.take_length] at hlast
      by_cases hstatus : last.status.isActive = true
      · exact .inr fun job hjob => Option.some.inj hjob ▸ hstatus
      · rw [hsum, if_neg hstatus]
        exact .inl hlast
    · intro hcond
      by_contra hne
      have hshort : k ≤ front.length := by omega
      have hfull := hend.resolve_left hne
      rw [hfront k hshort] at hfull
      have hmono := (List.take_sublist k front).countP_le (p := fun job => job.status.isActive)
      rcases hcond with hlt | hlast
      · omega
      · rw [hsum, if_pos (hlast last rfl)] at hactive
        omega

theorem find?_take_iff {jobs : List Job} {k : ℕ} (hnodup : (jobs.map Job.id).Nodup)
    (hk : k ≤ jobs.length) :
    (∀ id, ((jobs.take k).find? fun job => job.id = id) = jobs.find? fun job => job.id = id) ↔
      k = jobs.length := by
  constructor
  · intro h
    by_contra hne
    have hlt : k < jobs.length := by omega
    have hsplit := List.take_append_drop k jobs
    rw [← List.getElem_cons_drop hlt] at hsplit
    have hnone : ((jobs.take k).find? fun job => job.id = jobs[k].id) = none := by
      rw [← hsplit, List.map_append, List.nodup_append] at hnodup
      refine List.find?_eq_none.mpr fun job hjob heq => ?_
      exact hnodup.2.2 _ (List.mem_map_of_mem hjob) _ (List.mem_cons_self ..)
        (of_decide_eq_true heq)
    have hall := (h jobs[k].id).symm.trans hnone
    exact List.find?_eq_none.mp hall jobs[k] (List.getElem_mem hlt) (decide_eq_true rfl)
  · rintro rfl id
    rw [List.take_length]

theorem getJob_rebuildFromSnapshot (q : JobQueue) (snapshot : Snapshot)
    (hnodup : (snapshot.jobs.map SnapshotJob.id).Nodup) :
    ∃ k, Admits q.maxJobs (snapshot.jobs.map Job.fromSnapshot) k ∧
      ∀ id, (q.rebuildFromSnapshot snapshot).getJob id =
        ((snapshot.jobs.map Job.fromSnapshot).take k).find? fun job => job.id = id := by
  obtain ⟨k, hk, hjobs⟩ := exists_admits q.clear [] (snapshot.jobs.map Job.fromSnapshot) rfl
    (fun i hi => absurd hi (Nat.not_lt_zero i))
  refine ⟨k, hk, fun id => ?_⟩
  have hids : (((snapshot.jobs.map Job.fromSnapshot).take k).map Job.id).Nodup := by
    refine List.Nodup.sublist ((List.take_sublist ..).map _) ?_
    rwa [List.map_map]
  rw [find?_eq_lookup (entries_table hids)]
  exact congrArg (Finmap.lookup id) hjobs

end JobQueue

namespace JobAssigner

theorem lookup_rebuildFromSnapshot (now : Instant) (snapshot : Snapshot) (w : ℕ) :
    (rebuildFromSnapshot now snapshot).workers.lookup w =
      if w ∈ snapshot.workers then some ⟨w, now, ∅⟩ else none := by
  rw [rebuildFromSnapshot]
  induction snapshot.workers using List.reverseRecOn with
  | nil => exact Finmap.lookup_empty w
  | append_singleton workers workerId ih =>
    rw [List.foldl_concat, registerWorker]
    by_cases hw : w = workerId
    · rw [hw, Finmap.lookup_insert, if_pos (by simp)]
    · rw [Finmap.lookup_insert_of_ne _ hw, ih]
      simp only [List.mem_append, List.mem_singleton, hw, or_false]

theorem hasWorker_rebuildFromSnapshot (now : Instant) (snapshot : Snapshot) (w : ℕ) :
    (rebuildFromSnapshot now snapshot).HasWorker w ↔ w ∈ snapshot.workers := by
  constructor
  · rintro ⟨key, worker, hworker, rfl⟩
    rw [lookup_rebuildFromSnapshot] at hworker
    split_ifs at hworker with hmem
    rwa [← Option.some.inj hworker]
  · intro hmem
    refine ⟨w, ⟨w, now, ∅⟩, ?_, rfl⟩
    rw [lookup_rebuildFromSnapshot, if_pos hmem]

theorem AllWorkers.mem_iff {a : JobAssigner} {workers : List ℕ} (h : a.AllWorkers workers)
    (w : ℕ) : w ∈ workers ↔ a.HasWorker w := by
  rw [← Multiset.mem_coe, h, Multiset.mem_map]
  constructor
  · rintro ⟨⟨key, worker⟩, hentry, rfl⟩
    exact ⟨key, worker, Finmap.lookup_eq_some_iff.mpr hentry, rfl⟩
  · rintro ⟨key, worker, hworker, rfl⟩
    exact ⟨⟨key, worker⟩, Finmap.lookup_eq_some_iff.mp hworker, rfl⟩

end JobAssigner

/-! ### Restored state machines -/

def Restored (q q' : JobQueue) (a a' : JobAssigner) : Prop :=
  (∀ id, q'.getJob id = (q.getJob id).map Job.withoutOutput) ∧ ∀ w, a'.HasWorker w ↔ a.HasWorker w

/-- With room for another active job, or with an active job at the end, every job is restored.
In the other cases a finished job is lost. -/
theorem rebuild_restores_iff {q q' : JobQueue} {a : JobAssigner} {jobs : List Job}
    {workers : List ℕ} (hcap : q'.maxJobs = q.maxJobs) (hactive : q.activeJobCount ≤ q.maxJobs)
    (hids : ∀ job ∈ jobs, job.assignedWorker ≠ some 0 ∧ job.executedBy ≠ some 0)
    (hjobs : q.AllJobs jobs) (hworkers : a.AllWorkers workers) (index term : ℕ) (now : Instant) :
    Restored q (q'.rebuildFromSnapshot (buildSnapshot index term jobs workers)) a
        (.rebuildFromSnapshot now (buildSnapshot index term jobs workers)) ↔
      q.activeJobCount < q.maxJobs ∨ ∀ job ∈ jobs.getLast?, job.status.isActive = true := by
  have hrestored : (buildSnapshot index term jobs workers).jobs.map Job.fromSnapshot =
      jobs.map Job.withoutOutput := by
    rw [buildSnapshot, List.map_map]
    exact List.map_congr_left fun job hjob =>
      Job.fromSnapshot_toSnapshot (hids job hjob).1 (hids job hjob).2
  have hnodup : ((jobs.map Job.withoutOutput).map Job.id).Nodup := by
    rw [List.map_map]
    exact hjobs.nodup
  have hcount : (jobs.map Job.withoutOutput).countP (fun job => job.status.isActive) =
      q.activeJobCount := by
    rw [List.countP_map]
    exact (JobQueue.countActive_eq hjobs.1).symm
  obtain ⟨k, hk, hget⟩ := q'.getJob_rebuildFromSnapshot (buildSnapshot index term jobs workers)
    (by rw [buildSnapshot, List.map_map]; exact hjobs.nodup)
  rw [hrestored, hcap] at hk
  simp only [hrestored] at hget
  have hlength := hk.eq_length_iff hnodup (hcount.trans_le hactive)
  have hlast : (∀ job ∈ (jobs.map Job.withoutOutput).getLast?, job.status.isActive = true) ↔
      ∀ job ∈ jobs.getLast?, job.status.isActive = true := by
    rw [List.getLast?_map]
    simp only [Option.mem_def, Option.map_eq_some_iff, forall_exists_index, and_imp,
      forall_apply_eq_imp_iff₂]
    rfl
  rw [hcount, hlast] at hlength
  rw [← hlength, ← JobQueue.find?_take_iff hnodup hk.1]
  have horiginal : ∀ id, ((jobs.map Job.withoutOutput).find? fun job => job.id = id) =
      (q.getJob id).map Job.withoutOutput := by
    intro id
    rw [List.find?_map, ← hjobs.find?]
    rfl
  constructor
  · intro h id
    rw [← hget, h.1 id, horiginal]
  · intro h
    refine ⟨fun id => ?_, fun w => ?_⟩
    · rw [hget, h id, horiginal]
    · rw [JobAssigner.hasWorker_rebuildFromSnapshot]
      exact hworkers.mem_iff w

def earlierJob : Job := .withId 1 "sleep 60" (.ofMillis 0)

def laterJob : Job :=
  { Job.withId 2 "true" (.ofMillis 1) with
    status := .completed
    executedBy := some 1
    exitCode := some 0
    completedAt := some (.ofMillis 2) }

def crossedQueue (maxJobs : ℕ) : JobQueue :=
  [.submitJob 2 "true" (.ofMillis 1) none,
    .updateJobStatus 2 .completed 1 (some 0) (some (.ofMillis 2)),
    .submitJob 1 "sleep 60" (.ofMillis 0) none].foldl
    (JobQueue.applyCommand (.ofMillis 2)) (.withCapacity maxJobs)

def oneWorker : JobAssigner := JobAssigner.new.registerWorker 0 1

theorem roomy_queue_restored :
    Restored (crossedQueue 2)
      ((crossedQueue 2).rebuildFromSnapshot (buildSnapshot 3 1 [earlierJob, laterJob] [1]))
      oneWorker (.rebuildFromSnapshot 5 (buildSnapshot 3 1 [earlierJob, laterJob] [1])) :=
  (rebuild_restores_iff rfl (by decide +kernel) (by decide +kernel) (by decide +kernel)
    (by decide +kernel) 3 1 5).mpr (.inl (by decide +kernel))

theorem full_queue_not_restored :
    ¬ ∀ (q q' : JobQueue) (a : JobAssigner) (jobs : List Job) (workers : List ℕ)
      (index term : ℕ) (now : Instant), q'.maxJobs = q.maxJobs →
      q.activeJobCount ≤ q.maxJobs →
      (∀ job ∈ jobs, job.assignedWorker ≠ some 0 ∧ job.executedBy ≠ some 0) →
      q.AllJobs jobs → a.AllWorkers workers →
      Restored q (q'.rebuildFromSnapshot (buildSnapshot index term jobs workers)) a
        (.rebuildFromSnapshot now (buildSnapshot index term jobs workers)) := by
  intro hall
  have hlater := (hall (crossedQueue 1) (crossedQueue 1) oneWorker [earlierJob, laterJob] [1] 3 1 5
    rfl (by decide +kernel) (by decide +kernel) (by decide +kernel) (by decide +kernel)).1 2
  exact absurd hlater (by decide +kernel)

end NomadLite
