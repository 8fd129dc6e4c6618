import NomadLite.JobReplay

/-!
# The life cycle of a job

The methods of the queue overwrite whatever they find; what keeps a job on its way
from pending over running to one of the three final states are the guards of the
apply loop. `Evolves` says what the committed commands may do to a job that stays in
the queue, and `Placed` which jobs have a worker.
-/

namespace NomadLite

structure Job.Placed (job : Job) : Prop where
  pending : job.status = .pending → job.assignedWorker = none
  running : job.status = .running → job.assignedWorker ≠ none

structure Job.Evolves (job job' : Job) : Prop where
  command : job'.command = job.command
  image : job'.image = job.image
  createdAt : job'.createdAt = job.createdAt
  assignedWorker : job.assignedWorker ≠ none → job'.assignedWorker = job.assignedWorker
  finished : job.status.isActive = false → job'.status.isActive = false
  cancelled : job.status = .cancelled → job' = job

namespace Job

variable {job job' job'' : Job} {command : Command}

theorem placed_of_finished (h : job.status.isActive = false) : job.Placed := by
  constructor
  · intro hstatus
    rw [hstatus] at h
    cases h
  · intro hstatus
    rw [hstatus] at h
    cases h

theorem Placed.applyStatus (h : job.Placed) {u : JobStatusUpdate} (hu : u.Reports) :
    (job.applyStatus u).Placed := by
  unfold Job.applyStatus
  split_ifs
  · exact placed_of_finished hu.finished
  · exact h

theorem Placed.applyCommand (h : job.Placed) (hc : command.Reports) (now : DateTime) :
    (job.applyCommand now command).Placed := by
  refine applyCommand_induction h (fun u hu job' hjob' => ?_) (fun jobId workerId _ _ => ?_)
    fun _ => placed_of_finished rfl
  · exact hjob'.applyStatus (hc.updates u hu)
  · exact ⟨JobStatus.noConfusion, fun _ => Option.some_ne_none _⟩

namespace Evolves

theorem refl (job : Job) : job.Evolves job := ⟨rfl, rfl, rfl, fun _ => rfl, fun h => h, fun _ => rfl⟩

theorem trans (h : job.Evolves job') (h' : job'.Evolves job'') : job.Evolves job'' where
  command := h'.command.trans h.command
  image := h'.image.trans h.image
  createdAt := h'.createdAt.trans h.createdAt
  assignedWorker hne := by
    have heq := h.assignedWorker hne
    rw [h'.assignedWorker (heq ▸ hne), heq]
  finished hfin := h'.finished (h.finished hfin)
  cancelled hcancelled := by
    have heq := h.cancelled hcancelled
    rw [h'.cancelled (heq ▸ hcancelled), heq]

theorem applyStatus (job : Job) {u : JobStatusUpdate} (hu : u.Reports) :
    job.Evolves (job.applyStatus u) := by
  unfold Job.applyStatus
  split_ifs with hlive
  · exact ⟨rfl, rfl, rfl, fun _ => rfl, fun _ => hu.finished, fun hcancelled =>
      absurd hcancelled hlive.2⟩
  · exact refl job

theorem applyCommand (h : job.Placed) (hc : command.Reports) (now : DateTime) :
    job.Evolves (job.applyCommand now command) := by
  refine applyCommand_induction (refl job) (fun u hu job' hjob' => ?_)
    (fun jobId workerId _ hpending => ?_) fun hactive => ?_
  · exact hjob'.trans (applyStatus job' (hc.updates u hu))
  · refine ⟨rfl, rfl, rfl, fun hne => absurd (h.pending hpending) hne, fun hfin => ?_,
      fun hcancelled => ?_⟩
    · rw [hpending] at hfin
      cases hfin
    · rw [hpending] at hcancelled
      cases hcancelled
  · refine ⟨rfl, rfl, rfl, fun _ => rfl, fun _ => rfl, fun hcancelled => ?_⟩
    rw [hcancelled] at hactive
    cases hactive

end Evolves
end Job

namespace JobQueue

structure Sound (maxJobs : ℕ) (q : JobQueue) : Prop where
  capacity : q.maxJobs = maxJobs
  active : q.activeJobCount ≤ maxJobs
  placed : ∀ id job, q.getJob id = some job → job.Placed

variable {q : JobQueue} {maxJobs : ℕ} {event : QueueEvent}

theorem getJob_withCapacity (maxJobs : ℕ) (id : Uuid) : (withCapacity maxJobs).getJob id = none :=
  Finmap.lookup_empty _

theorem sound_withCapacity (maxJobs : ℕ) : (withCapacity maxJobs).Sound maxJobs where
  capacity := rfl
  active := Nat.zero_le _
  placed id job hjob := by
    rw [getJob_withCapacity] at hjob
    cases hjob

theorem getJob_submitJob_of_some {id : Uuid} {job : Job} (hjob : q.getJob id = some job)
    (now : DateTime) (jobId : Uuid) (command : String) (createdAt : DateTime)
    (image : Option String) :
    (q.applyCommand now (.submitJob jobId command createdAt image)).getJob id = some job := by
  rw [getJob_submitJob, if_neg]
  · exact hjob
  · rintro ⟨hnone, -, rfl⟩
    rw [hjob] at hnone
    cases hnone

/-- A job that a submission brings in is pending and has no worker. -/
theorem placed_submitJob (h : q.Sound maxJobs) (now : DateTime) (jobId : Uuid) (command : String)
    (createdAt : DateTime) (image : Option String) {id : Uuid} {job : Job}
    (hjob : (q.applyCommand now (.submitJob jobId command createdAt image)).getJob id = some job) :
    job.Placed := by
  rw [getJob_submitJob] at hjob
  split_ifs at hjob
  · obtain rfl := Option.some.inj hjob
    exact ⟨fun _ => rfl, JobStatus.noConfusion⟩
  · exact h.placed id job hjob

theorem Sound.exec (h : q.Sound maxJobs) (hreports : ∀ c ∈ event.command, c.Reports) :
    (event.exec q).Sound maxJobs := by
  cases event with
  | apply now command =>
    have hc := hreports command rfl
    refine ⟨(applyCommand_maxJobs ..).trans h.capacity, ?_, fun id job hjob => ?_⟩
    · have hle := activeJobCount_applyCommand_le now (h.capacity.symm ▸ h.active) hc
      rwa [h.capacity] at hle
    · cases hsub : command.submitted with
      | none =>
        change (q.applyCommand now command).getJob id = some job at hjob
        rw [getJob_applyCommand _ _ _ hsub] at hjob
        obtain ⟨old, hold, rfl⟩ := Option.map_eq_some_iff.mp hjob
        exact (h.placed id old hold).applyCommand hc now
      | some jobId =>
        cases command with
        | submitJob jobId command createdAt image =>
          exact placed_submitJob h now jobId command createdAt image hjob
        | _ => cases hsub
  | cleanup now retentionSecs =>
    have hactive := ((EvictedFrom.refl q).cleanup now retentionSecs).activeJobCount_eq
    refine ⟨h.capacity, hactive.trans_le h.active, fun id job hjob => ?_⟩
    change (q.retain _).getJob id = some job at hjob
    rw [getJob_retain, Option.filter_eq_some_iff] at hjob
    exact h.placed id job hjob.1

theorem Sound.evolves (h : q.Sound maxJobs) (hreports : ∀ c ∈ event.command, c.Reports) {id : Uuid}
    {job job' : Job} (hjob : q.getJob id = some job) (hjob' : (event.exec q).getJob id = some job') :
    job.Evolves job' := by
  cases event with
  | apply now command =>
    change (q.applyCommand now command).getJob id = some job' at hjob'
    cases hsub : command.submitted with
    | none =>
      rw [getJob_applyCommand _ _ _ hsub, hjob, Option.map_some] at hjob'
      rw [← Option.some.inj hjob']
      exact .applyCommand (h.placed id job hjob) (hreports command rfl) now
    | some jobId =>
      cases command with
      | submitJob jobId command createdAt image =>
        rw [getJob_submitJob_of_some hjob] at hjob'
        rw [← Option.some.inj hjob']
        exact .refl job
      | _ => cases hsub
  | cleanup now retentionSecs =>
    change (q.retain _).getJob id = some job' at hjob'
    rw [getJob_retain, Option.filter_eq_some_iff, hjob] at hjob'
    rw [← Option.some.inj hjob'.1]
    exact .refl job

theorem forall_commands_cons {P : Command → Prop} {events : List QueueEvent} :
    (∀ c ∈ QueueEvent.commands (event :: events), P c) ↔
      (∀ c ∈ event.command, P c) ∧ ∀ c ∈ QueueEvent.commands events, P c := by
  cases event with
  | apply now command =>
    refine List.forall_mem_cons.trans (and_congr_left' ⟨fun h c hc => ?_, fun h => h command rfl⟩)
    exact Option.some.inj hc ▸ h
  | cleanup now retentionSecs => exact (and_iff_right fun c hc => by cases hc).symm

theorem Sound.foldl (h : q.Sound maxJobs) (events : List QueueEvent)
    (hreports : ∀ c ∈ QueueEvent.commands events, c.Reports) :
    (events.foldl QueueEvent.exec q).Sound maxJobs := by
  induction events generalizing q with
  | nil => exact h
  | cons event events ih =>
    obtain ⟨hfirst, hrest⟩ := forall_commands_cons.mp hreports
    exact ih (h.exec hfirst) hrest

theorem Sound.evolves_foldl (h : q.Sound maxJobs) (events : List QueueEvent)
    (hreports : ∀ c ∈ QueueEvent.commands events, c.Reports) {id : Uuid} {job : Job}
    (hjob : q.getJob id = some job)
    (hstays : ∀ n ≤ events.length, ((events.take n).foldl QueueEvent.exec q).getJob id ≠ none) :
    ∃ job', (events.foldl QueueEvent.exec q).getJob id = some job' ∧ job.Evolves job' := by
  induction events generalizing q job with
  | nil => exact ⟨job, hjob, .refl job⟩
  | cons event events ih =>
    obtain ⟨hfirst, hrest⟩ := forall_commands_cons.mp hreports
    obtain ⟨mid, hmid⟩ := Option.ne_none_iff_exists'.mp (hstays 1 (Nat.succ_le_succ (Nat.zero_le _)))
    obtain ⟨job', hjob', hevolves⟩ := ih (h.exec hfirst) hrest hmid fun n hn =>
      hstays (n + 1) (Nat.succ_le_succ hn)
    exact ⟨job', hjob', (h.evolves hfirst hjob hmid).trans hevolves⟩

/-- After any events the active jobs are within the capacity and the jobs are placed, and a job
that was there at some earlier point and has stayed since has evolved from what it was. -/
theorem job_life_cycle (maxJobs : ℕ) (earlier later : List QueueEvent)
    (hreports : ∀ c ∈ QueueEvent.commands (earlier ++ later), c.Reports) :
    ((earlier ++ later).foldl QueueEvent.exec (withCapacity maxJobs)).activeJobCount ≤ maxJobs ∧
      (∀ id job,
        ((earlier ++ later).foldl QueueEvent.exec (withCapacity maxJobs)).getJob id = some job →
        (job.status = .pending → job.assignedWorker = none) ∧
          (job.status = .running → job.assignedWorker ≠ none)) ∧
      ∀ id job, (earlier.foldl QueueEvent.exec (withCapacity maxJobs)).getJob id = some job →
        (∀ n ≤ later.length, ((earlier ++ later.take n).foldl QueueEvent.exec
          (withCapacity maxJobs)).getJob id ≠ none) →
        ∃ job', ((earlier ++ later).foldl QueueEvent.exec (withCapacity maxJobs)).getJob id =
          some job' ∧ job.Evolves job' := by
  have hsound := (sound_withCapacity maxJobs).foldl (earlier ++ later) hreports
  refine ⟨hsound.active, fun id job hjob => ?_, fun id job hjob hstays => ?_⟩
  · exact ⟨(hsound.placed id job hjob).pending, (hsound.placed id job hjob).running⟩
  · rw [QueueEvent.commands, List.filterMap_append, List.forall_mem_append] at hreports
    have hbefore := (sound_withCapacity maxJobs).foldl earlier hreports.1
    simp only [List.foldl_append] at hstays ⊢
    exact hbefore.evolves_foldl later hreports.2 hjob hstays

def runningJob : List QueueEvent := (twoJobs.take 4).map (.apply .epoch)

def cancelledJob : List QueueEvent :=
  [.apply .epoch (.assignJob 1 8), .apply .epoch (.cancelJob 1), .cleanup .epoch 3600]

theorem running_job_is_cancelled :
    (∀ c ∈ QueueEvent.commands (runningJob ++ cancelledJob), c.Reports) ∧
      ∃ job', ((runningJob ++ cancelledJob).foldl QueueEvent.exec (withCapacity 2)).getJob 1 =
        some job' ∧
        Job.Evolves { Job.withId 1 "true" .epoch with
          assignedWorker := some 7
          status := .running } job' := by
  have hreports : ∀ c ∈ QueueEvent.commands (runningJob ++ cancelledJob), c.Reports := by decide
  obtain ⟨-, -, hlife⟩ := job_life_cycle 2 runningJob cancelledJob hreports
  exact ⟨hreports, hlife 1 _ (by decide +kernel) (by decide +kernel)⟩

end JobQueue
end NomadLite
