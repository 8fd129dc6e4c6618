import NomadLite.JobReplay

/-!
# Snapshots of the replayed queue

A snapshot records a list of commands when its jobs are those that the first
`last_included_index` of them lead to, apart from finished jobs that were evicted.
Such a snapshot is what a queue without outstanding writes gives; it survives the
wire, and a queue rebuilt from it follows the same commands.
-/

namespace NomadLite

def SnapshotJob.core (snap : SnapshotJob) : JobCore := (Job.fromSnapshot snap).core

def Job.withoutOutput (job : Job) : Job := { job with output := none, error := none }

theorem Job.fromSnapshot_toSnapshot {job : Job} (hassigned : job.assignedWorker ≠ some 0)
    (hexecuted : job.executedBy ≠ some 0) : fromSnapshot job.toSnapshot = job.withoutOutput := by
  have hworker : ∀ {worker : Option ℕ}, worker ≠ some 0 →
      (if worker.getD 0 = 0 then none else some (worker.getD 0)) = worker := by
    intro worker hne
    cases worker with
    | none => rfl
    | some n => exact if_neg fun hn : n = 0 => hne (congrArg some hn)
  change Job.mk _ _ _ _ _ _ _ _ _ _ _ = Job.mk _ _ _ _ _ _ _ _ _ _ _
  congr 1
  · exact hworker hassigned
  · exact hworker hexecuted

theorem Job.core_toSnapshot {job : Job} (h : job.core.Portable) :
    job.toSnapshot.core = job.core := by
  rw [SnapshotJob.core, fromSnapshot_toSnapshot h.assignedWorker h.executedBy]
  rfl

def Snapshot.core (snap : Snapshot) (id : Uuid) : Option JobCore :=
  (snap.jobs.find? fun job => job.id = id).map SnapshotJob.core

/-- The jobs of the snapshot are those of the replayed queue at its index, each field of a job
included, less finished jobs that were evicted. -/
structure Snapshot.Records (commands : List Command) (snap : Snapshot) : Prop where
  index : snap.lastIncludedIndex ≤ commands.length
  nodup : (snap.jobs.map SnapshotJob.id).Nodup
  follows : ∀ id, Follows (snap.core id) ((replay (commands.take snap.lastIncludedIndex)).core id)

/-! ### Snapshots of a queue -/

namespace JobQueue

variable {q : JobQueue} {jobs : List Job}

theorem find?_eq_lookup {m : Finmap (fun _ : Uuid => Job)}
    (h : ((jobs.map fun job => (⟨job.id, job⟩ : (_ : Uuid) × Job) : List _) : Multiset _) =
      m.entries) (id : Uuid) : (jobs.find? fun job => job.id = id) = m.lookup id := by
  have hmem : ∀ {id job}, m.lookup id = some job ↔ job.id = id ∧ job ∈ jobs :=
    lookup_eq_some_iff_mem h
  cases hfind : jobs.find? fun job => job.id = id with
  | some job =>
    have hid := List.find?_some hfind
    exact (hmem.mpr ⟨of_decide_eq_true hid, List.mem_of_find?_eq_some hfind⟩).symm
  | none =>
    symm
    by_contra hne
    obtain ⟨job, hjob⟩ := Option.ne_none_iff_exists'.mp hne
    obtain ⟨hid, hin⟩ := hmem.mp hjob
    exact List.find?_eq_none.mp hfind job hin (decide_eq_true hid)

theorem AllJobs.find? (h : q.AllJobs jobs) (id : Uuid) :
    (jobs.find? fun job => job.id = id) = q.getJob id :=
  find?_eq_lookup h.1 id

theorem AllJobs.nodup (h : q.AllJobs jobs) : (jobs.map Job.id).Nodup :=
  nodup_ids_of_entries h.1

/-- Jobs with distinct ids added to a queue that has none of them: each is there afterwards,
unless the queue has been filled. -/
theorem core_foldl_addJob (q : JobQueue) (jobs : List Job) (hnodup : (jobs.map Job.id).Nodup)
    (hnew : ∀ job ∈ jobs, q.core job.id = none) (id : Uuid) :
    (jobs.foldl (fun q job => (q.addJob job).1) q).core id =
        (q.core id).or ((jobs.find? fun job => job.id = id).map Job.core) ∨
      (jobs.foldl (fun q job => (q.addJob job).1) q).isFull = true ∧
        (jobs.foldl (fun q job => (q.addJob job).1) q).core id = q.core id := by
  induction jobs generalizing q with
  | nil => exact .inl (Option.or_none ..).symm
  | cons job jobs ih =>
    by_cases hfull : q.maxJobs ≤ q.activeJobCount
    · rw [foldl_addJob_of_isFull q _ hfull]
      exact .inr ⟨decide_eq_true hfull, rfl⟩
    · obtain ⟨hjob, hnodup⟩ := List.nodup_cons.mp hnodup
      have hrest : ∀ job' ∈ jobs, (q.insertJob job).core job'.id = none := by
        intro job' hjob'
        have hne : job'.id ≠ job.id := fun heq => hjob (heq ▸ List.mem_map_of_mem hjob')
        rw [core_insertJob, if_neg hne]
        exact hnew job' (List.mem_cons_of_mem _ hjob')
      rw [List.foldl_cons, addJob, if_neg hfull]
      have hih := ih (q.insertJob job) hnodup hrest
      rw [core_insertJob] at hih
      by_cases hid : id = job.id
      · left
        rw [List.find?_cons_of_pos (by simp [hid]), hid, hnew job (List.mem_cons_self ..),
          ← hid, Option.none_or]
        rw [if_pos hid, Option.some_or] at hih
        exact hih.elim (fun h => h) And.right
      · rw [if_neg hid] at hih
        rwa [List.find?_cons_of_neg (by simpa using fun heq => hid heq.symm)]

theorem core_rebuildFromSnapshot (q : JobQueue) {snap : Snapshot}
    (hnodup : (snap.jobs.map SnapshotJob.id).Nodup) (id : Uuid) :
    (q.rebuildFromSnapshot snap).core id = snap.core id ∨
      (q.rebuildFromSnapshot snap).isFull = true ∧ (q.rebuildFromSnapshot snap).core id = none := by
  have hclear : ∀ id, q.clear.core id = none := fun id =>
    core_eq_none.mpr (Finmap.lookup_empty id)
  have h := core_foldl_addJob q.clear (snap.jobs.map Job.fromSnapshot)
    (by rwa [List.map_map]) (fun job _ => hclear job.id) id
  rw [hclear, Option.none_or, List.find?_map, Option.map_map] at h
  exact h

end JobQueue

namespace Snapshot.Records

variable {commands : List Command} {snap : Snapshot}

theorem append (h : snap.Records commands) (later : List Command) :
    snap.Records (commands ++ later) where
  index := h.index.trans (by simp)
  nodup := h.nodup
  follows := by
    rw [List.take_append_of_le_length h.index]
    exact h.follows

theorem of_allJobs {q : JobQueue} {jobs : List Job} {n : ℕ} (hjobs : q.AllJobs jobs)
    (hn : n ≤ commands.length) (hport : ∀ c ∈ commands, c.Portable)
    (h : ∀ id, Follows (q.core id) ((replay (commands.take n)).core id)) (term : ℕ)
    (workers : List ℕ) : Records commands ⟨n, term, jobs.map Job.toSnapshot, workers⟩ where
  index := hn
  nodup := by
    rw [List.map_map]
    exact hjobs.nodup
  follows id := by
    have hcore : Snapshot.core ⟨n, term, jobs.map Job.toSnapshot, workers⟩ id = q.core id := by
      change ((jobs.map Job.toSnapshot).find? _).map SnapshotJob.core = _
      rw [List.find?_map, Option.map_map]
      change (jobs.find? fun job => job.id = id).map _ = _
      rw [hjobs.find?]
      refine Option.map_congr fun job hjob => Job.core_toSnapshot ?_
      have hcore : q.core id = some job.core := Option.map_eq_some_iff.mpr ⟨job, hjob, rfl⟩
      have hfollows := h id
      rw [hcore] at hfollows
      exact replay_portable (fun c hc => hport c (List.mem_of_mem_take hc)) id _
        hfollows.eq_of_some
    rw [hcore]
    exact h id

/-- Only finished jobs are lost when the queue fills up. -/
theorem rebuild (h : snap.Records commands) (hrep : ∀ c ∈ commands, c.Reports) {q : JobQueue}
    (hmax : q.maxJobs = JobQueue.defaultMaxJobs) (id : Uuid) :
    Follows ((q.rebuildFromSnapshot snap).core id)
      ((replay (commands.take snap.lastIncludedIndex)).core id) := by
  rcases q.core_rebuildFromSnapshot h.nodup id with heq | ⟨hfull, hnone⟩
  · rw [heq]
    exact h.follows id
  · have hsubset : (q.rebuildFromSnapshot snap).activeIds ⊆
        (replay (commands.take snap.lastIncludedIndex)).activeIds := by
      intro id' hid'
      obtain ⟨core, hcore, hact⟩ := JobQueue.mem_activeIds.mp hid'
      have hfollows := h.follows id'
      rcases q.core_rebuildFromSnapshot h.nodup id' with heq | ⟨-, hnone'⟩
      · rw [← heq, hcore] at hfollows
        exact JobQueue.mem_activeIds.mpr ⟨core, hfollows.eq_of_some, hact⟩
      · rw [hcore] at hnone'
        cases hnone'
    have hcard : (replay (commands.take snap.lastIncludedIndex)).activeIds.card ≤
        (q.rebuildFromSnapshot snap).activeIds.card := by
      rw [← JobQueue.activeJobCount_eq_card, ← JobQueue.activeJobCount_eq_card]
      refine (replay_active_le fun c hc => hrep c (List.mem_of_mem_take hc)).trans ?_
      rw [← hmax, ← JobQueue.rebuildFromSnapshot_maxJobs q snap]
      exact of_decide_eq_true hfull
    rw [hnone]
    cases hcore : (replay (commands.take snap.lastIncludedIndex)).core id with
    | none => exact .inl rfl
    | some core =>
      refine .inr ⟨rfl, core, rfl, ?_⟩
      by_contra hact
      have hmem := JobQueue.mem_activeIds.mpr ⟨core, hcore, Bool.not_eq_false _ ▸ hact⟩
      rw [← Finset.eq_of_subset_of_card_le hsubset hcard] at hmem
      obtain ⟨core', hcore', -⟩ := JobQueue.mem_activeIds.mp hmem
      rw [hnone] at hcore'
      cases hcore'

end Snapshot.Records

/-! ### Snapshots on the wire -/

theorem Snapshot.jobs_toSnapshot_toRequest (lib : WireLib) (snap : Snapshot) (term leaderId : ℕ) :
    ((snap.toRequest lib term leaderId).toSnapshot lib).jobs =
      snap.jobs.map (SnapshotJob.onWire lib) := by
  change (snap.jobs.map _).filterMap _ = _
  rw [List.filterMap_map, ← List.filterMap_eq_map]
  congr 1
  exact funext (protoToSnapshotJob_snapshotJobToProto lib)

theorem SnapshotJob.core_onWire (lib : WireLib) {job : SnapshotJob} (h : job.core.Portable) :
    (job.onWire lib).core = job.core := by
  change JobCore.mk _ _ _ _ _ _ _ = JobCore.mk _ _ _ _ _ _ _
  congr 1
  exact Option.filter_ne_empty h.image

/-- A snapshot that another node receives records the same commands. -/
theorem Snapshot.Records.onWire (lib : WireLib) {commands : List Command} {snap : Snapshot}
    (h : snap.Records commands) (hport : ∀ c ∈ commands, c.Portable) (term leaderId : ℕ) :
    ((snap.toRequest lib term leaderId).toSnapshot lib).Records commands where
  index := h.index
  nodup := by
    rw [jobs_toSnapshot_toRequest, List.map_map]
    exact h.nodup
  follows id := by
    have hcore : ((snap.toRequest lib term leaderId).toSnapshot lib).core id = snap.core id := by
      rw [Snapshot.core, jobs_toSnapshot_toRequest, List.find?_map, Option.map_map]
      refine Option.map_congr fun job hjob => SnapshotJob.core_onWire lib ?_
      have hfollows := h.follows id
      rw [show snap.core id = some job.core from
        Option.map_eq_some_iff.mpr ⟨job, hjob, rfl⟩] at hfollows
      exact replay_portable (fun c hc => hport c (List.mem_of_mem_take hc)) id _
        hfollows.eq_of_some
    rw [hcore]
    exact h.follows id

end NomadLite
