import NomadLite.QueueTracking

/-!
# The jobs that a worker loop starts

The log assigns a job to one worker for good and finishes it for good. `Once` says of
the worker loop of a node that everything it has started, or is about to start, is
assigned to the node in the entries applied there, and that nothing is started again
that has finished or whose result is stored.
-/

namespace NomadLite

open Optimistic

def WorkerStage.todo : WorkerStage → List JobToRun
  | .running batch | .executing _ batch | .releasing _ batch | .storing _ _ batch
  | .stored _ batch => batch.todo
  | _ => []

def WorkerStage.current : WorkerStage → Option Uuid
  | .executing job _ | .storing job _ _ => some job.id
  | _ => none

namespace JobQueue.JobsAssignedTo

variable {q : JobQueue} {workerId : ℕ} {jobs : List JobToRun}

theorem core {job : JobToRun} (h : q.JobsAssignedTo workerId jobs) (hjob : job ∈ jobs) :
    ∃ core, q.core job.id = some core ∧ core.assignedWorker = some workerId ∧
      core.status = .running := by
  have hmem : job ∈ (jobs : Multiset JobToRun) := hjob
  rw [h] at hmem
  obtain ⟨⟨id, job'⟩, hentry, rfl⟩ := Multiset.mem_map.mp hmem
  obtain ⟨hentry, hassigned, hrunning⟩ := Multiset.mem_filter.mp hentry
  have hlookup := Finmap.lookup_eq_some_iff.mpr hentry
  have hid := q.id_eq id job' hlookup
  refine ⟨job'.core, Option.map_eq_some_iff.mpr ⟨job', ?_, rfl⟩, hassigned, hrunning⟩
  change q.jobs.lookup job'.id = _
  rw [hid, hlookup]

theorem nodup (h : q.JobsAssignedTo workerId jobs) : (jobs.map JobToRun.id).Nodup := by
  have hids : ((jobs.map JobToRun.id : List Uuid) : Multiset Uuid) =
      (q.jobs.entries.filter fun entry =>
        entry.2.assignedWorker = some workerId ∧ entry.2.status = .running).map Sigma.fst := by
    rw [← Multiset.map_coe, h, Multiset.map_map]
    refine Multiset.map_congr rfl fun entry hentry => ?_
    exact q.id_eq entry.1 entry.2
      (Finmap.lookup_eq_some_iff.mpr (Multiset.mem_of_mem_filter hentry))
  rw [← Multiset.coe_nodup, hids]
  exact Multiset.nodup_of_le (Multiset.map_le_map (Multiset.filter_le _ _)) q.jobs.nodupKeys.nodup_keys

end JobQueue.JobsAssignedTo

namespace Site

def Assigned (committed : List Command) (x : ℕ) (site : Site) (id : Uuid) : Prop :=
  ∃ core, (site.replayed committed).core id = some core ∧ core.AssignedTo x

def Closed (committed : List Command) (site : Site) (id : Uuid) : Prop :=
  (∀ core, (site.replayed committed).core id = some core → core.status.isActive = false) ∨
    ∃ u, .finished u ∈ site.writesOn id

structure Advances (committed committed' : List Command) (site site' : Site) : Prop where
  assigned : ∀ x id, site.Assigned committed x id → site'.Assigned committed' x id
  closed : ∀ x id, site.Assigned committed x id → site.Closed committed id →
    site'.Closed committed' id

namespace Advances

variable {lib : WireLib} {committed committed' : List Command} {site site' : Site}

theorem of_applied (happlied : site'.applied = site.applied)
    (hwrites : ∀ id, ∀ w ∈ site.writesOn id, w ∈ site'.writesOn id) :
    Advances committed committed site site' where
  assigned x id h := by
    rw [Assigned, replayed, happlied]
    exact h
  closed x id _ h := by
    rw [Closed, replayed, happlied]
    exact h.imp_right (Exists.imp fun u hu => hwrites id _ hu)

theorem refl (committed : List Command) (site : Site) : Advances committed committed site site :=
  .of_applied rfl fun _ _ hw => hw

theorem congr (happlied : site'.applied = site.applied)
    (houtstanding : site'.outstanding = site.outstanding) :
    Advances committed committed site site' :=
  .of_applied happlied fun id w hw => by rwa [writesOn, houtstanding]

theorem record (committed : List Command) (site : Site) (id : Uuid) (w : DirectWrite)
    (found : Bool) : Advances committed committed site (site.record id w found) := by
  refine .of_applied rfl fun id' w' hw' => ?_
  rw [writesOn_record]
  split_ifs
  · exact List.mem_append_left _ hw'
  · exact hw'

theorem concat (happlied : site.applied ≤ committed.length) (c : Command) :
    Advances committed (committed ++ [c]) site site where
  assigned x id h := by
    rwa [Assigned, replayed, List.take_append_of_le_length happlied]
  closed x id _ h := by
    rwa [Closed, replayed, List.take_append_of_le_length happlied]

/-- More of the log is applied: the result of a job is among it, or still outstanding. -/
theorem of_le (hrep : ∀ c ∈ committed, c.Reports) (happlied : site.applied ≤ site'.applied)
    (hfinished : ∀ x id u, site.Assigned committed x id → .finished u ∈ site.writesOn id →
      site'.Closed committed id) : Advances committed committed site site' where
  assigned x id h := by
    obtain ⟨core, hcore, hassigned⟩ := h
    obtain ⟨core', hcore', hassigned', -⟩ := replay_assigned hrep happlied hcore hassigned
    exact ⟨core', hcore', hassigned'⟩
  closed x id h hclosed := by
    rcases hclosed with hfin | ⟨u, hu⟩
    · obtain ⟨core, hcore, hassigned⟩ := h
      obtain ⟨core', hcore', -, hfin'⟩ := replay_assigned hrep happlied hcore hassigned
      refine .inl fun core'' hcore'' => ?_
      have heq := Option.some.inj (hcore'.symm.trans hcore'')
      exact heq ▸ hfin' (hfin core hcore)
    · exact hfinished x id u h hu

theorem trans {committed'' : List Command} {site'' : Site}
    (h : Advances committed committed' site site') (h' : Advances committed' committed'' site' site'') :
    Advances committed committed'' site site'' where
  assigned x id hassigned := h'.assigned x id (h.assigned x id hassigned)
  closed x id hassigned hclosed :=
    h'.closed x id (h.assigned x id hassigned) (h.closed x id hassigned hclosed)

/-- The loop applies an entry. One that confirms a result finishes the job. -/
theorem applyEntry {e : LogEntry} (hrep : ∀ c ∈ committed, c.Reports)
    (hreports : e.command.Reports)
    (hget : committed[site.applied]? = some (e.command.onWire lib))
    (happlied : site'.applied = site.applied + 1) (houtstanding :
      site'.outstanding = site.outstanding.filter fun p => ¬ p.2.ConfirmedBy lib p.1 e.command) :
    Advances committed committed site site' := by
  refine .of_le hrep (happlied ▸ Nat.le_succ _) fun x id u h hu => ?_
  obtain ⟨core, hcore, -⟩ := h
  by_cases hconf : (DirectWrite.finished u).ConfirmedBy lib id e.command
  · refine .inl fun core' hcore' => ?_
    rw [replayed, happlied, List.take_add_one, hget, Option.toList_some, core_replay_concat,
      show (replay (committed.take site.applied)).core id = some core from hcore,
      DirectWrite.act_of_finished hconf (JobQueue.core_id hcore)] at hcore'
    obtain ⟨hid, hu⟩ := DirectWrite.reports_of_finished hconf hreports
    rw [← Option.some.inj hcore', JobCore.applyStatus]
    split_ifs with hlive
    · exact hu.finished
    · rw [not_and_not_right] at hlive
      rw [hlive ((JobQueue.core_id hcore).trans hid.symm)]
      rfl
  · refine .inr ⟨u, ?_⟩
    rw [Tracks.writesOn_filter houtstanding]
    exact List.mem_filter.mpr ⟨hu, decide_eq_true hconf⟩

theorem rebuild {snap : Snapshot} (hrep : ∀ c ∈ committed, c.Reports)
    (hrecords : snap.Records committed) (hle : site.applied ≤ snap.lastIncludedIndex)
    (happlied : site'.applied = snap.lastIncludedIndex)
    (hfinished : ∀ id u, .finished u ∈ site.writesOn id →
      ∀ core ∈ snap.core id, core.status.isActive = false) :
    Advances committed committed site site' := by
  refine .of_le hrep (happlied ▸ hle) fun x id u _ hu => .inl fun core hcore => ?_
  rw [replayed, happlied] at hcore
  have hfollows := hrecords.follows id
  rw [hcore] at hfollows
  rcases hfollows with hsnap | ⟨-, core', heq, hfin⟩
  · exact hfinished id u hu core hsnap
  · rw [Option.some.inj heq]
    exact hfin

end Advances

theorem Tracks.closed {committed : List Command} {q : JobQueue} {site : Site} {x : ℕ} {id : Uuid}
    (h : site.Tracks committed q) (hassigned : site.Assigned committed x id)
    (hq : ∀ core ∈ q.core id, core.status.isActive = false) : site.Closed committed id := by
  obtain ⟨core, hcore, -⟩ := hassigned
  obtain ⟨hvalid, hfollows⟩ := h.rebased id
  rw [hcore] at hvalid hfollows
  obtain ⟨core', hahead⟩ :=
    Option.ne_none_iff_exists'.mp (Rebased.ahead_ne_none hvalid (Option.some_ne_none _))
  rw [hahead] at hfollows
  have hfin : core'.status.isActive = false := by
    rcases hfollows with heq | ⟨-, core'', heq, hfin⟩
    · exact hq core' heq
    · rw [Option.some.inj heq]
      exact hfin
  refine (Rebased.finished_of_ahead hvalid hahead hfin).imp_left fun hfin' core'' hcore'' => ?_
  rw [← Option.some.inj (hcore.symm.trans hcore'')]
  exact hfin'

theorem Tracks.closed_record {committed : List Command} {q : JobQueue} {site : Site} {x : ℕ}
    {id : Uuid} (h : site.Tracks committed q) (hassigned : site.Assigned committed x id)
    (u : JobStatusUpdate) {f : Job → Job} :
    (site.record id (.finished u) (q.modifyJob id f).2).Closed committed id := by
  rw [q.modifyJob_found]
  cases hcore : q.core id with
  | none =>
    refine (Advances.record ..).closed x id hassigned (h.closed hassigned ?_)
    rw [hcore]
    exact fun core hcore => by cases hcore
  | some core =>
    refine .inr ⟨u, ?_⟩
    rw [writesOn_record, if_pos ⟨rfl, rfl⟩]
    exact List.mem_append_right _ (List.mem_singleton_self _)

/-- What node `x` has started is assigned to it and closed unless it is still at it, and what it
is about to start is assigned to it and has not been started. -/
structure Once (committed : List Command) (executed : List (ℕ × Uuid)) (x : ℕ) (site : Site) :
    Prop where
  assigned : ∀ id, (x, id) ∈ executed → site.Assigned committed x id
  closed : ∀ id, (x, id) ∈ executed → site.worker.current = some id ∨ site.Closed committed id
  todo : ∀ job ∈ site.worker.todo, site.Assigned committed x job.id ∧ (x, job.id) ∉ executed
  distinct : (site.worker.todo.map JobToRun.id).Nodup

namespace Once

variable {committed committed' : List Command} {executed : List (ℕ × Uuid)} {x : ℕ}
  {site site' : Site}

theorem new (committed : List Command) (x : ℕ) : Site.new.Once committed [] x where
  assigned _ h := absurd h List.not_mem_nil
  closed _ h := absurd h List.not_mem_nil
  todo _ h := absurd h List.not_mem_nil
  distinct := List.nodup_nil

/-- The loop moves on with the jobs it has; a job it leaves behind is closed. -/
theorem move (h : site.Once committed executed x)
    (hadvances : Advances committed committed' site site')
    (htodo : site'.worker.todo = site.worker.todo)
    (hcurrent : ∀ id, site.worker.current = some id → site.Assigned committed x id →
      site'.worker.current = some id ∨ site'.Closed committed' id) :
    site'.Once committed' executed x where
  assigned id hid := hadvances.assigned x id (h.assigned id hid)
  closed id hid := by
    rcases h.closed id hid with hcur | hclosed
    · exact hcurrent id hcur (h.assigned id hid)
    · exact .inr (hadvances.closed x id (h.assigned id hid) hclosed)
  todo job hjob := by
    rw [htodo] at hjob
    exact ⟨hadvances.assigned x job.id (h.todo job hjob).1, (h.todo job hjob).2⟩
  distinct := htodo ▸ h.distinct

theorem advance (h : site.Once committed executed x)
    (hadvances : Advances committed committed' site site') (hworker : site'.worker = site.worker) :
    site'.Once committed' executed x :=
  h.move hadvances (congrArg WorkerStage.todo hworker) fun _ hid _ =>
    .inl ((congrArg WorkerStage.current hworker).trans hid)

/-- The loop polls its queue, which shows what is applied of these jobs and no more. -/
theorem poll {q : JobQueue} {jobs : List JobToRun} (h : site.Once committed executed x)
    (htracks : site.Tracks committed q) (hcurrent : site.worker.current = none)
    (hjobs : q.JobsAssignedTo x jobs) (hwrites : ∀ job ∈ jobs, site.writesOn job.id = []) :
    ({ site with worker := .running ⟨jobs, []⟩ } : Site).Once committed executed x where
  assigned := h.assigned
  closed id hid := .inr <| by
    rcases h.closed id hid with hcur | hclosed
    · rw [hcurrent] at hcur
      cases hcur
    · exact hclosed
  todo job hjob := by
    obtain ⟨core, hcore, hassigned, hrunning⟩ := hjobs.core hjob
    have hreplayed := htracks.core_eq_ahead hcore
    rw [hwrites job hjob, hcore] at hreplayed
    refine ⟨⟨core, hreplayed.symm, hassigned, fun hpending => ?_⟩, fun hid => ?_⟩
    · rw [hrunning] at hpending
      cases hpending
    · rcases h.closed job.id hid with hcur | hfin | ⟨u, hu⟩
      · rw [hcurrent] at hcur
        cases hcur
      · have hfin := hfin core hreplayed.symm
        rw [hrunning] at hfin
        cases hfin
      · rw [hwrites job hjob] at hu
        exact absurd hu List.not_mem_nil
  distinct := hjobs.nodup

theorem execute {job : JobToRun} {todo : List JobToRun} {updates : List JobStatusUpdate}
    (h : site.Once committed executed x) (hworker : site.worker = .running ⟨job :: todo, updates⟩) :
    ({ site with worker := .executing job ⟨todo, updates⟩ } : Site).Once committed
      (executed ++ [(x, job.id)]) x := by
  have htodo := h.todo
  have hdistinct := h.distinct
  have hclosed := h.closed
  rw [hworker] at htodo hdistinct hclosed
  obtain ⟨hnot, hdistinct⟩ := List.nodup_cons.mp hdistinct
  refine ⟨fun id hid => ?_, fun id hid => ?_, fun job' hjob' => ?_, hdistinct⟩
  · rcases List.mem_append.mp hid with hid | hid
    · exact h.assigned id hid
    · obtain rfl : id = job.id := congrArg Prod.snd (List.mem_singleton.mp hid)
      exact (htodo job (List.mem_cons_self ..)).1
  · rcases List.mem_append.mp hid with hid | hid
    · rcases hclosed id hid with hcur | hclosed
      · cases hcur
      · exact .inr hclosed
    · obtain rfl : id = job.id := congrArg Prod.snd (List.mem_singleton.mp hid)
      exact .inl rfl
  · obtain ⟨hassigned, hnew⟩ := htodo job' (List.mem_cons_of_mem _ hjob')
    refine ⟨hassigned, fun hid => ?_⟩
    rcases List.mem_append.mp hid with hid | hid
    · exact hnew hid
    · refine hnot (List.mem_map.mpr ⟨job', hjob', ?_⟩)
      exact congrArg Prod.snd (List.mem_singleton.mp hid)

theorem execute_other (h : site.Once committed executed x) {y : ℕ} (hy : x ≠ y) (id : Uuid) :
    site.Once committed (executed ++ [(y, id)]) x := by
  have hmem : ∀ id', (x, id') ∈ executed ++ [(y, id)] → (x, id') ∈ executed := by
    intro id' hid'
    rcases List.mem_append.mp hid' with hid' | hid'
    · exact hid'
    · exact absurd (congrArg Prod.fst (List.mem_singleton.mp hid')) hy
  exact ⟨fun id' hid' => h.assigned id' (hmem id' hid'), fun id' hid' => h.closed id' (hmem id' hid'),
    fun job hjob => ⟨(h.todo job hjob).1, fun hid' => (h.todo job hjob).2 (hmem _ hid')⟩, h.distinct⟩

end Once
end Site
end NomadLite
