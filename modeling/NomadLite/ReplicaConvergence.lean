import NomadLite.JobEffects

/-!
# Replicas with clocks of their own

A replica applies the committed commands in their order and evicts finished jobs
whenever its cleanup timer fires, each time with a reading of its own clock. Every
replica is compared with one queue that applies the same commands and never evicts.
The active jobs are the same in both, so the capacity admits the same submissions,
and a job that is still there has ended the same way.
-/

namespace NomadLite

inductive QueueEvent where
  | apply (now : DateTime) (command : Command)
  | cleanup (now : DateTime) (retentionSecs : ℕ)
deriving DecidableEq

namespace QueueEvent

def command : QueueEvent → Option Command
  | .apply _ command => some command
  | .cleanup .. => none

def exec (q : JobQueue) : QueueEvent → JobQueue
  | .apply now command => q.applyCommand now command
  | .cleanup now retentionSecs => (q.cleanupFinishedJobs now retentionSecs).1

def commands (events : List QueueEvent) : List Command := events.filterMap command

end QueueEvent

def JobStatusUpdate.Reports (u : JobStatusUpdate) : Prop :=
  u.status = .completed ∨ u.status = .failed

theorem JobStatusUpdate.Reports.finished {u : JobStatusUpdate} (h : u.Reports) :
    u.status.isActive = false := by
  rcases h with h | h <;> rw [h] <;> rfl

def Command.Reports : Command → Prop
  | .updateJobStatus _ status .. => status = .completed ∨ status = .failed
  | .batchUpdateJobStatus updates => ∀ u ∈ updates, u.Reports
  | _ => True

theorem Command.Reports.updates {command : Command} (h : command.Reports) :
    ∀ u ∈ command.updates, u.Reports := by
  cases command with
  | updateJobStatus => exact List.forall_mem_singleton.mpr h
  | batchUpdateJobStatus updates => exact h
  | _ => exact List.forall_mem_nil _

instance (u : JobStatusUpdate) : Decidable u.Reports := inferInstanceAs (Decidable (_ ∨ _))

instance : DecidablePred Command.Reports
  | .updateJobStatus _ status .. => inferInstanceAs (Decidable (status = _ ∨ status = _))
  | .batchUpdateJobStatus updates => inferInstanceAs (Decidable (∀ u ∈ updates, u.Reports))
  | .submitJob .. | .registerWorker _ | .assignJob .. | .cancelJob _ | .noop => isTrue trivial

/-- Equal while the job is active; once it has finished, equal up to the time of its end. -/
structure Job.Matches (job job' : Job) : Prop where
  active : job.status.isActive = true → job = job'
  status : job.status = job'.status
  assignedWorker : job.assignedWorker = job'.assignedWorker
  executedBy : job.executedBy = job'.executedBy
  exitCode : job.exitCode = job'.exitCode
  id : job.id = job'.id

namespace Job.Matches

variable {job job' : Job}

theorem refl (job : Job) : job.Matches job := ⟨fun _ => rfl, rfl, rfl, rfl, rfl, rfl⟩

theorem applyStatus (h : job.Matches job') {u : JobStatusUpdate} (hu : u.Reports) :
    (job.applyStatus u).Matches (job'.applyStatus u) := by
  unfold Job.applyStatus
  rw [← h.id, ← h.status]
  split_ifs
  · exact ⟨fun hact => absurd (hu.finished.symm.trans hact) Bool.false_ne_true, rfl,
      h.assignedWorker, rfl, rfl, rfl⟩
  · exact h

theorem applyCommand (h : job.Matches job') {command : Command} (hc : command.Reports)
    (now now' : DateTime) :
    (job.applyCommand now command).Matches (job'.applyCommand now' command) := by
  cases command with
  | submitJob jobId command createdAt image => exact h
  | registerWorker workerId => exact h
  | noop => exact h
  | updateJobStatus jobId status executedBy exitCode completedAt => exact h.applyStatus hc
  | batchUpdateJobStatus updates =>
    change (updates.foldl _ job).Matches (updates.foldl _ job')
    induction updates generalizing job job' with
    | nil => exact h
    | cons u updates ih =>
      exact ih (h.applyStatus (hc u (List.mem_cons_self ..)))
        fun u' hu' => hc u' (List.mem_cons_of_mem _ hu')
  | assignJob jobId workerId =>
    simp only [Job.applyCommand]
    rw [← h.id, ← h.status]
    split_ifs with hp
    · obtain rfl := h.active (by rw [hp.2]; rfl)
      exact refl _
    · exact h
  | cancelJob jobId =>
    simp only [Job.applyCommand]
    rw [← h.id, ← h.status]
    split_ifs
    · exact ⟨fun hact => absurd hact Bool.false_ne_true, rfl, h.assignedWorker, h.executedBy,
        h.exitCode, rfl⟩
    · exact h

end Job.Matches

theorem Job.finished_applyStatus {job : Job} (h : job.status.isActive = false)
    {u : JobStatusUpdate} (hu : u.Reports) : (job.applyStatus u).status.isActive = false := by
  unfold Job.applyStatus
  split_ifs
  · exact hu.finished
  · exact h

theorem Job.finished_applyCommand {job : Job} (h : job.status.isActive = false)
    {command : Command} (hc : command.Reports) (now : DateTime) :
    (job.applyCommand now command).status.isActive = false := by
  refine applyCommand_induction (P := fun job => job.status.isActive = false) h
    (fun u hu job' hjob' => ?_) (fun jobId workerId _ hpending => ?_) fun _ => rfl
  · exact finished_applyStatus hjob' (hc.updates u hu)
  · rw [hpending] at h
    cases h

namespace JobQueue

theorem getJob_retain (q : JobQueue) (p : Job → Bool) (id : Uuid) :
    (q.retain p).getJob id = (q.getJob id).filter p := by
  ext job
  rw [Option.filter_eq_some_iff]
  change (q.retain p).jobs.lookup id = some job ↔ q.jobs.lookup id = some job ∧ _
  rw [Finmap.lookup_eq_some_iff, Finmap.lookup_eq_some_iff]
  exact Multiset.mem_filter

structure EvictedFrom (q full : JobQueue) : Prop where
  maxJobs : q.maxJobs = full.maxJobs
  kept : ∀ id job, q.getJob id = some job → ∃ job', full.getJob id = some job' ∧ job.Matches job'
  active : ∀ id job, full.getJob id = some job → job.status.isActive = true →
    q.getJob id = some job

namespace EvictedFrom

variable {q q' full : JobQueue}

theorem refl (q : JobQueue) : q.EvictedFrom q :=
  ⟨rfl, fun _ job h => ⟨job, h, .refl job⟩, fun _ _ h _ => h⟩

theorem getJob_none (h : q.EvictedFrom full) {id : Uuid} (hid : full.getJob id = none) :
    q.getJob id = none := by
  cases hq : q.getJob id with
  | none => rfl
  | some job =>
    obtain ⟨job', hjob', -⟩ := h.kept id job hq
    rw [hid] at hjob'
    cases hjob'

theorem getJob_iff (h : q.EvictedFrom full) {id : Uuid} {job : Job}
    (hact : job.status.isActive = true) : q.getJob id = some job ↔ full.getJob id = some job := by
  refine ⟨fun hq => ?_, fun hf => h.active id job hf hact⟩
  obtain ⟨job', hjob', hmatch⟩ := h.kept id job hq
  rw [hjob', hmatch.active hact]

theorem activeJobCount_eq (h : q.EvictedFrom full) : q.activeJobCount = full.activeJobCount := by
  have hfilter : q.jobs.entries.filter (fun entry => entry.2.status.isActive = true) =
      full.jobs.entries.filter fun entry => entry.2.status.isActive = true := by
    refine (Multiset.Nodup.ext (q.jobs.nodup_entries.filter _)
      (full.jobs.nodup_entries.filter _)).mpr fun ⟨id, job⟩ => ?_
    rw [Multiset.mem_filter, Multiset.mem_filter, ← Finmap.lookup_eq_some_iff,
      ← Finmap.lookup_eq_some_iff]
    exact and_congr_left fun hact => h.getJob_iff hact
  rw [activeJobCount, activeJobCount, countActive, countActive, Multiset.countP_eq_card_filter,
    Multiset.countP_eq_card_filter, hfilter]

theorem cleanup (h : q.EvictedFrom full) (now : DateTime) (retentionSecs : ℕ) :
    (q.cleanupFinishedJobs now retentionSecs).1.EvictedFrom full where
  maxJobs := h.maxJobs
  kept id job hjob := by
    change (q.retain _).getJob id = some job at hjob
    rw [getJob_retain, Option.filter_eq_some_iff] at hjob
    exact h.kept id job hjob.1
  active id job hjob hact := by
    change (q.retain _).getJob id = some job
    rw [getJob_retain, h.active id job hjob hact, Option.filter_some, if_pos]
    rw [keptAfter, hact, Bool.true_or]

theorem insertJob (h : q.EvictedFrom full) (job : Job) :
    (q.insertJob job).EvictedFrom (full.insertJob job) where
  maxJobs := h.maxJobs
  kept id job' hjob := by
    rw [getJob_insertJob] at hjob ⊢
    split_ifs at hjob ⊢ with hid
    · exact ⟨job, rfl, Option.some.inj hjob ▸ .refl job⟩
    · exact h.kept id job' hjob
  active id job' hjob hact := by
    rw [getJob_insertJob] at hjob ⊢
    split_ifs at hjob ⊢ with hid
    · exact hjob
    · exact h.active id job' hjob hact

theorem submitJob (h : q.EvictedFrom full) {jobId : Uuid} (hnew : full.getJob jobId = none)
    (now now' : DateTime) (command : String) (createdAt : DateTime) (image : Option String) :
    (q.applyCommand now (.submitJob jobId command createdAt image)).EvictedFrom
      (full.applyCommand now' (.submitJob jobId command createdAt image)) := by
  rw [applyCommand, applyCommand, if_pos hnew, if_pos (h.getJob_none hnew), addJob, addJob,
    h.maxJobs, h.activeJobCount_eq]
  split_ifs
  · exact h
  · exact h.insertJob _

theorem changeJobs (h : q.EvictedFrom full) {command : Command} (hsub : command.submitted = none)
    (hc : command.Reports) (now now' : DateTime) :
    (q.applyCommand now command).EvictedFrom (full.applyCommand now' command) where
  maxJobs := by rw [applyCommand_maxJobs, applyCommand_maxJobs, h.maxJobs]
  kept id job hjob := by
    rw [getJob_applyCommand _ _ _ hsub] at hjob ⊢
    obtain ⟨old, hold, rfl⟩ := Option.map_eq_some_iff.mp hjob
    obtain ⟨old', hold', hmatch⟩ := h.kept id old hold
    exact ⟨_, by rw [hold', Option.map_some], hmatch.applyCommand hc now now'⟩
  active id job hjob hact := by
    rw [getJob_applyCommand _ _ _ hsub] at hjob ⊢
    obtain ⟨old, hold, rfl⟩ := Option.map_eq_some_iff.mp hjob
    cases hlive : old.status.isActive with
    | false =>
      exact absurd ((Job.finished_applyCommand hlive hc now').symm.trans hact) Bool.false_ne_true
    | true =>
      have hmatch := (Job.Matches.refl old).applyCommand hc now' now
      rw [h.active id old hold hlive, Option.map_some, hmatch.active hact]

theorem applyCommand (h : q.EvictedFrom full) {command : Command}
    (hnew : ∀ id, command.submitted = some id → full.getJob id = none) (hc : command.Reports)
    (now now' : DateTime) :
    (q.applyCommand now command).EvictedFrom (full.applyCommand now' command) := by
  cases hsub : command.submitted with
  | none => exact h.changeJobs hsub hc now now'
  | some id =>
    cases command with
    | submitJob jobId command createdAt image =>
      exact h.submitJob (hnew jobId rfl) now now' command createdAt image
    | _ => cases hsub

end EvictedFrom

theorem getJob_applyCommand_none {q : JobQueue} {id : Uuid} (h : q.getJob id = none)
    {command : Command} (hne : command.submitted ≠ some id) (now : DateTime) :
    (q.applyCommand now command).getJob id = none := by
  rw [getJob_applyCommand_of_ne _ _ _ hne, h, Option.map_none]

/-- What a replica holds in the course of its events, compared with the queue that only applies
their commands. -/
theorem EvictedFrom.foldl {q full : JobQueue} (h : q.EvictedFrom full) (now : DateTime)
    (events : List QueueEvent)
    (honce : ((QueueEvent.commands events).filterMap Command.submitted).Nodup)
    (hnew : ∀ id ∈ (QueueEvent.commands events).filterMap Command.submitted,
      full.getJob id = none)
    (hreports : ∀ command ∈ QueueEvent.commands events, command.Reports) :
    (events.foldl QueueEvent.exec q).EvictedFrom
      ((QueueEvent.commands events).foldl (JobQueue.applyCommand now) full) := by
  induction events generalizing q full with
  | nil => exact h
  | cons event events ih =>
    cases event with
    | cleanup now' retentionSecs => exact ih (h.cleanup now' retentionSecs) honce hnew hreports
    | apply now' command =>
      change (((command :: QueueEvent.commands events)).filterMap Command.submitted).Nodup at honce
      change ∀ id ∈ ((command :: QueueEvent.commands events)).filterMap Command.submitted, _ at hnew
      have hfirst := hreports command (List.mem_cons_self ..)
      have hrest : ∀ c ∈ QueueEvent.commands events, c.Reports := fun c hc =>
        hreports c (List.mem_cons_of_mem _ hc)
      have hnow : ∀ id, command.submitted = some id → full.getJob id = none := fun id hid =>
        hnew id (List.mem_filterMap.mpr ⟨command, List.mem_cons_self .., hid⟩)
      refine ih (h.applyCommand hnow hfirst now' now) ?_ ?_ hrest
      · exact honce.sublist ((List.sublist_cons_self ..).filterMap _)
      · intro id hid
        have hmem := ((List.sublist_cons_self command _).filterMap Command.submitted).subset hid
        refine getJob_applyCommand_none (hnew id hmem) (fun hsub => ?_) now
        rw [List.filterMap_cons_some hsub] at honce
        exact (List.nodup_cons.mp honce).1 hid

/-- The same active jobs, and the same outcome of every finished job that both still have. -/
structure Agrees (q q' : JobQueue) : Prop where
  active : ∀ id job, job.status.isActive = true →
    (q.getJob id = some job ↔ q'.getJob id = some job)
  finished : ∀ id job job', q.getJob id = some job → q'.getJob id = some job' →
    job.status = job'.status ∧ job.assignedWorker = job'.assignedWorker ∧
      job.executedBy = job'.executedBy ∧ job.exitCode = job'.exitCode

theorem EvictedFrom.agrees {q q' full : JobQueue} (h : q.EvictedFrom full)
    (h' : q'.EvictedFrom full) : q.Agrees q' where
  active _ _ hact := (h.getJob_iff hact).trans (h'.getJob_iff hact).symm
  finished id job job' hjob hjob' := by
    obtain ⟨ref, href, hm⟩ := h.kept id job hjob
    obtain ⟨ref', href', hm'⟩ := h'.kept id job' hjob'
    obtain rfl : ref = ref' := Option.some.inj (href.symm.trans href')
    exact ⟨hm.status.trans hm'.status.symm, hm.assignedWorker.trans hm'.assignedWorker.symm,
      hm.executedBy.trans hm'.executedBy.symm, hm.exitCode.trans hm'.exitCode.symm⟩

/-- Two replicas agree after every common prefix of the committed commands, whatever their clocks
say and whenever they evict. -/
theorem replicas_agree (maxJobs : ℕ) (committed : List Command)
    (honce : (committed.filterMap Command.submitted).Nodup)
    (hreports : ∀ command ∈ committed, command.Reports) {events events' : List QueueEvent}
    (hpre : QueueEvent.commands events <+: committed)
    (hsame : QueueEvent.commands events' = QueueEvent.commands events) :
    (events.foldl QueueEvent.exec (withCapacity maxJobs)).Agrees
      (events'.foldl QueueEvent.exec (withCapacity maxJobs)) := by
  have hempty : ∀ id, (withCapacity maxJobs).getJob id = none := fun _ => Finmap.lookup_empty _
  have honce' := honce.sublist (hpre.sublist.filterMap Command.submitted)
  have hreports' : ∀ command ∈ QueueEvent.commands events, command.Reports := fun command hc =>
    hreports command (hpre.subset hc)
  have hfirst := (EvictedFrom.refl (withCapacity maxJobs)).foldl .epoch events honce'
    (fun id _ => hempty id) hreports'
  have hsecond := (EvictedFrom.refl (withCapacity maxJobs)).foldl .epoch events'
    (hsame ▸ honce') (fun id _ => hempty id) (hsame ▸ hreports')
  rw [hsame] at hsecond
  exact hfirst.agrees hsecond

def twoJobs : List Command :=
  [.submitJob 1 "true" .epoch none, .submitJob 2 "false" .epoch none, .cancelJob 2,
    .assignJob 1 7, .updateJobStatus 1 .completed 7 (some 0) (some (.ofMillis 9000))]

def evictingReplica (now : DateTime) : List QueueEvent :=
  (twoJobs.take 3).map (.apply now) ++ .cleanup now 0 ::
    (twoJobs.drop 3).map (.apply now)

/-- One replica has evicted the cancelled job, the other one has not and its clock is behind. -/
theorem replicas_agree_after_eviction :
    ((evictingReplica (.ofMillis 5000)).foldl QueueEvent.exec (withCapacity 2)).getJob 2 = none ∧
      ((twoJobs.map (.apply .epoch)).foldl QueueEvent.exec (withCapacity 2)).getJob 2 ≠
        none ∧
      ((evictingReplica (.ofMillis 5000)).foldl QueueEvent.exec (withCapacity 2)).Agrees
        ((twoJobs.map (.apply .epoch)).foldl QueueEvent.exec (withCapacity 2)) :=
  ⟨by decide +kernel, by decide +kernel,
    replicas_agree 2 twoJobs (by decide) (by decide) (List.prefix_refl _) rfl⟩

end JobQueue
end NomadLite
