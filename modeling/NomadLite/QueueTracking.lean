import NomadLite.SnapshotRecords

/-!
# What the queue of a node has to do with the log

A site tracks the log when, job by job, its queue is the replay of the entries it has
applied with the outstanding writes on top. Each piece of code that writes to the
queue keeps this under a condition on the state it finds.
-/

namespace NomadLite

open Optimistic

namespace JobQueue

variable {q : JobQueue} {id : Uuid}

theorem modifyJob_found (q : JobQueue) (id : Uuid) (f : Job → Job) :
    (q.modifyJob id f).2 = (q.core id).isSome := by
  rw [modifyJob, core]
  cases q.getJob id <;> rfl

theorem core_modifyJob {f : Job → Job} {g : JobCore → JobCore}
    (hfg : ∀ job, Job.core { f job with id := job.id } = g job.core) (id' : Uuid) :
    (q.modifyJob id f).1.core id' = if id' = id then (q.core id).map g else q.core id' := by
  cases hjob : q.getJob id with
  | none =>
    have hcore : q.core id = none := core_eq_none.mpr hjob
    simp only [modifyJob, hjob]
    split_ifs with hid
    · rw [hid, hcore, Option.map_none]
    · rfl
  | some job =>
    have hcore : q.core id = some job.core := Option.map_eq_some_iff.mpr ⟨job, hjob, rfl⟩
    simp only [modifyJob, hjob, core_insertJob]
    rw [id_of_getJob hjob, hcore, Option.map_some, ← hfg, id_of_getJob hjob]

theorem follows_cleanup (now : DateTime) (retentionSecs : ℕ) {ideal : Option JobCore}
    (h : Follows (q.core id) ideal) :
    Follows ((q.cleanupFinishedJobs now retentionSecs).1.core id) ideal := by
  change Follows (((q.retain _).getJob id).map Job.core) ideal
  rw [getJob_retain]
  cases hjob : q.getJob id with
  | none =>
    rwa [core, hjob] at h
  | some job =>
    rw [core, hjob] at h
    rw [Option.filter_some]
    split_ifs with hkept
    · exact h
    · refine .inr ⟨rfl, job.core, h.eq_of_some, ?_⟩
      rw [keptAfter, Bool.or_eq_true, not_or] at hkept
      exact Bool.not_eq_true _ ▸ hkept.1

end JobQueue

namespace Site

def writesOn (site : Site) (id : Uuid) : List DirectWrite :=
  (site.outstanding.filter fun p => p.1 = id).map Prod.snd

def replayed (committed : List Command) (site : Site) : JobQueue :=
  replay (committed.take site.applied)

structure Tracks (committed : List Command) (q : JobQueue) (site : Site) : Prop where
  applied : site.applied ≤ committed.length
  maxJobs : q.maxJobs = JobQueue.defaultMaxJobs
  rebased : ∀ id, Rebased id ((site.replayed committed).core id) (site.writesOn id) (q.core id)

/-! ### Conditions on the state before a write -/

/-- `submit_job` finds its job in the queue as it is about to add it, or nobody has heard of the
job yet; a full queue refuses it. -/
def MayAdd (committed : List Command) (q : JobQueue) (site : Site) (job : Job) : Prop :=
  q.isFull = true ∨ q.core job.id = some job.core ∨
    q.core job.id = none ∧ (site.replayed committed).core job.id = none ∧
      site.writesOn job.id = []

/-- The next entry of the log. It is about jobs without outstanding writes, or it is the entry
of the first of them; and a submission meets the queue as it meets the replay. -/
def MayApply (lib : WireLib) (committed : List Command) (q : JobQueue) (site : Site)
    (e : LogEntry) : Prop :=
  e.index = site.applied + 1 ∧ (∀ c ∈ committed[site.applied]?, c = e.command.onWire lib) ∧
    e.command.Reports ∧ e.command.Portable ∧
    (∀ id ∈ e.command.jobIds, ∀ w ∈ (site.writesOn id).head?, w.ConfirmedBy lib id e.command) ∧
    ∀ id ∈ e.command.submitted,
      (q.core id = none → (site.replayed committed).core id = none ∧ site.writesOn id = []) ∧
      ((site.replayed committed).core id = none →
        (site.writesOn id = [] → q.isFull = (site.replayed committed).isFull) ∧
        (site.writesOn id ≠ [] → (site.replayed committed).isFull = false))

instance (committed : List Command) (q : JobQueue) (site : Site) (job : Job) :
    Decidable (site.MayAdd committed q job) := inferInstanceAs (Decidable (_ ∨ _ ∨ _))

instance (lib : WireLib) (committed : List Command) (q : JobQueue) (site : Site) (e : LogEntry) :
    Decidable (site.MayApply lib committed q e) :=
  -- ids are bit vectors: without these the instance that goes through all of them is found
  haveI : Decidable (∀ id ∈ e.command.jobIds, ∀ w ∈ (site.writesOn id).head?,
    w.ConfirmedBy lib id e.command) := List.decidableBAll _ _
  haveI {p : Uuid → Prop} [DecidablePred p] : Decidable (∀ id ∈ e.command.submitted, p id) :=
    Option.decidableForallMem _
  inferInstanceAs (Decidable (_ ∧ _ ∧ _ ∧ _ ∧ _ ∧ _))

theorem writesOn_record (site : Site) (id : Uuid) (w : DirectWrite) (found : Bool) (id' : Uuid) :
    (site.record id w found).writesOn id' =
      if id' = id ∧ found = true then site.writesOn id' ++ [w] else site.writesOn id' := by
  rw [writesOn, record, List.filter_append, List.map_append]
  cases found with
  | false => exact (List.append_nil _).trans (if_neg fun h => Bool.false_ne_true h.2).symm
  | true =>
    change site.writesOn id' ++ ([(id, w)].filter _).map _ = _
    by_cases hid : id' = id
    · rw [if_pos ⟨hid, rfl⟩, List.filter_cons_of_pos (by simp [hid])]
      rfl
    · rw [if_neg fun h => hid h.1, List.filter_cons_of_neg (by simpa using fun heq => hid heq.symm)]
      exact List.append_nil _

namespace Tracks

variable {lib : WireLib} {committed : List Command} {q q' : JobQueue} {site site' : Site}
  {id : Uuid}

theorem new (committed : List Command) : Site.new.Tracks committed .new where
  applied := Nat.zero_le _
  maxJobs := rfl
  rebased id := by
    have hcore : JobQueue.new.core id = none := core_replay_nil id
    refine ⟨trivial, .inl ?_⟩
    rw [hcore]
    exact (core_replay_nil id).symm

theorem congr (h : site.Tracks committed q) (happlied : site'.applied = site.applied)
    (houtstanding : site'.outstanding = site.outstanding) : site'.Tracks committed q where
  applied := happlied ▸ h.applied
  maxJobs := h.maxJobs
  rebased id := by
    rw [replayed, happlied, writesOn, houtstanding]
    exact h.rebased id

theorem concat (h : site.Tracks committed q) (c : Command) :
    site.Tracks (committed ++ [c]) q where
  applied := h.applied.trans (by simp)
  maxJobs := h.maxJobs
  rebased id := by
    rw [replayed, List.take_append_of_le_length h.applied]
    exact h.rebased id

/-- A job in the queue is as the log and the outstanding writes have it. -/
theorem core_eq_ahead (h : site.Tracks committed q) {core : JobCore} (hcore : q.core id = some core) :
    q.core id = ahead DirectWrite.eff ((site.replayed committed).core id) (site.writesOn id) := by
  have hfollows := (h.rebased id).follows
  rw [hcore] at hfollows ⊢
  exact hfollows.eq_of_some.symm

theorem write (h : site.Tracks committed q) (hmax : q'.maxJobs = q.maxJobs) {w : DirectWrite}
    (hcore : ∀ id', q'.core id' = if id' = id then w.eff (q.core id) else q.core id')
    (hahead : q.core id =
      ahead DirectWrite.eff ((site.replayed committed).core id) (site.writesOn id))
    (hpre : w.Pre id (q.core id)) : (site.record id w true).Tracks committed q' where
  applied := h.applied
  maxJobs := hmax.trans h.maxJobs
  rebased id' := by
    rw [writesOn_record, hcore]
    by_cases hid : id' = id
    · subst hid
      rw [if_pos ⟨rfl, rfl⟩, if_pos rfl]
      exact (h.rebased id').write hahead hpre
    · rw [if_neg fun hc => hid hc.1, if_neg hid]
      exact h.rebased id'

theorem record_false (h : site.Tracks committed q) (id : Uuid) (w : DirectWrite) :
    (site.record id w false).Tracks committed q := h.congr rfl (List.append_nil _)

theorem modifyJob (h : site.Tracks committed q) (w : DirectWrite) {f : Job → Job}
    {g : JobCore → JobCore} (hfg : ∀ job, Job.core { f job with id := job.id } = g job.core)
    (hw : ∀ core, q.core id = some core → w.eff (some core) = some (g core) ∧
      w.Pre id (some core)) :
    (site.record id w (q.modifyJob id f).2).Tracks committed (q.modifyJob id f).1 := by
  rw [q.modifyJob_found]
  cases hcore : q.core id with
  | none =>
    have hsame : (q.modifyJob id f).1 = q := by
      rw [JobQueue.modifyJob, JobQueue.core_eq_none.mp hcore]
    rw [hsame]
    exact h.record_false id w
  | some core =>
    obtain ⟨heff, hpre⟩ := hw core hcore
    refine h.write (q.modifyJob_maxJobs id f) (fun id' => ?_) (h.core_eq_ahead hcore) ?_
    · rw [JobQueue.core_modifyJob hfg, hcore, heff]
      rfl
    · rwa [hcore]

theorem assignJob (h : site.Tracks committed q) (workerId : ℕ)
    (hpending : ∀ core ∈ q.core id, core.status = .pending) :
    (site.record id (.assigned workerId) (q.assignJob id workerId).2).Tracks committed
      (q.assignJob id workerId).1 := by
  refine h.modifyJob _ (g := JobCore.assign workerId) (fun job => rfl) fun core hcore => ?_
  exact ⟨rfl, core, rfl, hpending core hcore⟩

theorem updateJobResult (h : site.Tracks committed q) {result : ExecutionResult} (x : ℕ)
    (now : DateTime) (hended : result.Ended)
    (hrunning : ∀ core ∈ q.core id, core.status = .running) :
    (site.record id (.finished ⟨id, result.status, x, result.exitCode, some now⟩)
      (q.updateJobResult id result x now).2).Tracks committed
      (q.updateJobResult id result x now).1 := by
  refine h.modifyJob _ (g := fun core => { core with
      status := result.status, executedBy := some x, exitCode := result.exitCode })
    (fun job => rfl) fun core hcore => ?_
  have hid := JobQueue.core_id hcore
  have hrun := hrunning core hcore
  refine ⟨congrArg some ?_, rfl, hended, core, rfl, hid, hrun⟩
  exact Rebased.eff_finished rfl hid hrun

theorem addJob (h : site.Tracks committed q) {job : Job} (hmay : site.MayAdd committed q job)
    (hfresh : job.core = .fresh job.id job.command job.image) (himage : job.image ≠ some "") :
    (site.record job.id (.submitted job)
      (!q.isFull && (q.getJob job.id).isNone)).Tracks committed (q.addJob job).1 := by
  cases hfull : q.isFull with
  | true =>
    rw [JobQueue.addJob, if_pos (of_decide_eq_true hfull)]
    exact h.record_false ..
  | false =>
    rw [JobQueue.addJob, if_neg (of_decide_eq_false hfull)]
    rcases hmay with hmay | hsame | ⟨hnone, hreplay, hwrites⟩
    · rw [hfull] at hmay
      cases hmay
    · obtain ⟨job', hjob', -⟩ := Option.map_eq_some_iff.mp hsame
      rw [hjob']
      have htracks := h.record_false job.id (.submitted job)
      refine ⟨htracks.applied, htracks.maxJobs, fun id => ?_⟩
      have hcore : (q.insertJob job).core id = q.core id := by
        rw [q.core_insertJob]
        split_ifs with hid
        · rw [hid, hsame]
        · rfl
      rw [hcore]
      exact htracks.rebased id
    · rw [JobQueue.core_eq_none.mp hnone]
      change (site.record job.id (.submitted job) true).Tracks committed (q.insertJob job)
      refine h.write (q.insertJob_maxJobs job) (fun id' => ?_) ?_ ?_
      · rw [q.core_insertJob]
        rfl
      · rw [hreplay, hwrites, hnone]
        rfl
      · exact ⟨hnone, hfresh, himage⟩

theorem cleanup (h : site.Tracks committed q) (now : DateTime) (retentionSecs : ℕ) :
    site.Tracks committed (q.cleanupFinishedJobs now retentionSecs).1 where
  applied := h.applied
  maxJobs := h.maxJobs
  rebased id := ⟨(h.rebased id).valid, JobQueue.follows_cleanup _ _ (h.rebased id).follows⟩

theorem writesOn_filter {c : Command} (houtstanding :
    site'.outstanding = site.outstanding.filter fun p => ¬ p.2.ConfirmedBy lib p.1 c) (id : Uuid) :
    site'.writesOn id = (site.writesOn id).filter fun w => ¬ w.ConfirmedBy lib id c := by
  rw [writesOn, writesOn, houtstanding, List.filter_map, List.filter_filter, List.filter_filter]
  congr 1
  refine List.filter_congr fun p _ => ?_
  by_cases hid : p.1 = id
  · subst hid
    exact Bool.and_comm ..
  · simp [hid]

theorem applyEntry (h : site.Tracks committed q) {e : LogEntry}
    (hmay : site.MayApply lib committed q e) (now : DateTime) {committed' : List Command}
    (htake : committed'.take site.applied = committed.take site.applied)
    (hget : committed'[site.applied]? = some (e.command.onWire lib))
    (happlied : site'.applied = site.applied + 1) (houtstanding :
      site'.outstanding = site.outstanding.filter fun p => ¬ p.2.ConfirmedBy lib p.1 e.command) :
    site'.Tracks committed' (q.applyCommand now e.command) where
  applied := by
    rw [happlied]
    exact (List.getElem?_eq_some_iff.mp hget).1
  maxJobs := by rw [JobQueue.applyCommand_maxJobs, h.maxJobs]
  rebased id := by
    obtain ⟨-, -, hrep, hport, hhead, hsubmit⟩ := hmay
    rw [replayed, happlied, List.take_add_one, htake, hget, Option.toList_some,
      core_replay_concat, JobQueue.core_applyCommand, writesOn_filter houtstanding]
    refine (h.rebased id).apply (fun core => JobQueue.core_id) (fun core => JobQueue.core_id)
      hport hrep (hhead id) (fun hsub => (hsubmit id hsub).1) fun hsub hnone => ?_
    obtain ⟨hempty, hwaiting⟩ := (hsubmit id hsub).2 hnone
    exact ⟨fun hws => by rw [hempty hws]; rfl, fun hws => congrArg not (hwaiting hws)⟩

/-- The queue is rebuilt from a snapshot; nothing is outstanding afterwards. -/
theorem rebuild {snap : Snapshot} (hmax : q.maxJobs = JobQueue.defaultMaxJobs)
    (hrecords : snap.Records committed) (hrep : ∀ c ∈ committed, c.Reports)
    (happlied : site'.applied = snap.lastIncludedIndex) (houtstanding : site'.outstanding = []) :
    site'.Tracks committed (q.rebuildFromSnapshot snap) where
  applied := happlied ▸ hrecords.index
  maxJobs := (q.rebuildFromSnapshot_maxJobs snap).trans hmax
  rebased id := by
    rw [replayed, happlied, writesOn, houtstanding]
    exact ⟨trivial, hrecords.rebuild hrep hmax id⟩

end Tracks
end Site
end NomadLite
