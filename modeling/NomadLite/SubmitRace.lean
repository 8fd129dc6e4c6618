import NomadLite.ClientService
import NomadLite.JobLedger
import NomadLite.Runs

/-!
# The handler's insert and the apply loop

When the raft loop has answered, `submit_job` adds its job to the leader's queue. The
scheduler loop adds the same job when it applies the `SubmitJob` entry, unless it is
there, and goes on with the other entries of the job; in between it marks pending jobs
as assigned. `SubmitRace` runs the leader's queue through any interleaving of these,
next to the queue as it would be without the handler's insert.
-/

namespace NomadLite

def Job.New (job : Job) : Prop :=
  job = { Job.withId job.id job.command job.createdAt with image := job.image }

instance (job : Job) : Decidable job.New := inferInstanceAs (Decidable (_ = _))

theorem Job.New.status {job : Job} (h : job.New) : job.status = .pending :=
  congrArg Job.status h

def Job.assignedTo (workerId : ℕ) (job : Job) : Job :=
  { job with assignedWorker := some workerId, status := .running }

structure SubmitRace where
  queue : JobQueue
  /-- The queue without the handler's insert. -/
  without : JobQueue
  inserted : Bool
  /-- The job's `SubmitJob` entry has been applied. -/
  submitted : Bool
  chosen : Option (Uuid × ℕ)
  /-- The worker the job was assigned to before its `SubmitJob` entry was applied, until the
  `AssignJob` entry is. -/
  early : Option ℕ
deriving DecidableEq

inductive RaceEvent where
  | addJob
  | applyEntry (now : DateTime) (command : Command)
  | choose (jobId : Uuid) (workerId : ℕ)
  | mark
deriving DecidableEq

namespace SubmitRace

def start (q : JobQueue) : SubmitRace := ⟨q, q, false, false, none, none⟩

variable (job : Job)

def InOrder (race : SubmitRace) (command : Command) : Prop :=
  command = (Proposal.submit job).command ∧ race.submitted = false ∨
    command.submitted ≠ some job.id ∧ (job.id ∈ command.jobIds → race.submitted = true)

instance (race : SubmitRace) (command : Command) : Decidable (race.InOrder job command) :=
  inferInstanceAs (Decidable (_ ∨ _))

def applyEntry (race : SubmitRace) (now : DateTime) (command : Command) : SubmitRace :=
  { race with
    queue := race.queue.applyCommand now command
    without := race.without.applyCommand now command
    submitted := race.submitted || decide (command = (Proposal.submit job).command)
    early := race.early.filter fun workerId => command ≠ .assignJob job.id workerId }

def mark (race : SubmitRace) (jobId : Uuid) (workerId : ℕ) : SubmitRace :=
  { race with
    queue := (race.queue.assignJob jobId workerId).1
    without := (race.without.assignJob jobId workerId).1
    chosen := none
    early := if jobId = job.id ∧ race.submitted = false then some workerId else race.early }

/-- The scheduler loop does one thing at a time: it applies no entry between choosing a job and
marking it. -/
def step (race : SubmitRace) : RaceEvent → Option SubmitRace
  | .addJob =>
    if race.inserted then none
    else some { race with queue := (race.queue.addJob job).1, inserted := true }
  | .applyEntry now command =>
    if race.chosen = none ∧ race.InOrder job command then some (race.applyEntry job now command)
    else none
  | .choose jobId workerId =>
    if race.chosen = none ∧ (race.queue.getJob jobId).map Job.status = some .pending then
      some { race with chosen := some (jobId, workerId) }
    else none
  | .mark =>
    match race.chosen with
    | some (jobId, workerId) => some (race.mark job jobId workerId)
    | none => none

def Done (race : SubmitRace) : Prop :=
  race.inserted = true ∧ race.submitted = true ∧ race.early = none

instance (race : SubmitRace) : Decidable race.Done := inferInstanceAs (Decidable (_ ∧ _))

/-- The handler comes before the entry of the submission, or finds the job as it was submitted or
a full queue. If it comes first, the other queue has room for the job when the entry is applied,
and an assignment made before is the next thing that is applied to the job. -/
def Orderly (race : SubmitRace) : RaceEvent → Prop
  | .addJob => race.queue.isFull = true ∨ race.submitted = false ∨
      race.queue.getJob job.id = some job
  | .applyEntry _ command =>
    (command = (Proposal.submit job).command → race.queue.getJob job.id ≠ none →
      race.without.isFull = false) ∧
    ∀ workerId ∈ race.early, race.submitted = true → job.id ∈ command.jobIds →
      command = .assignJob job.id workerId
  | .choose .. | .mark => True

instance (race : SubmitRace) : (ev : RaceEvent) → Decidable (race.Orderly job ev)
  | .addJob => inferInstanceAs (Decidable (_ ∨ _))
  | .applyEntry .. => inferInstanceAs (Decidable (_ ∧ ∀ workerId ∈ race.early, _))
  | .choose .. | .mark => .isTrue trivial

/-! ### The two queues side by side -/

def held : Option ℕ → Job
  | some workerId => job.assignedTo workerId
  | none => job

inductive Compared (race : SubmitRace) : Prop where
  | untouched (hqueue : race.queue = race.without) (hearly : race.early = none)
      (hnew : race.submitted = false → race.queue.getJob job.id = none)
  | ahead (hinserted : race.inserted = true) (hsubmitted : race.submitted = false)
      (hqueue : race.queue.getJob job.id = some (held job race.early))
      (hwithout : race.without.getJob job.id = none)
  | behind {workerId : ℕ} (hinserted : race.inserted = true) (hsubmitted : race.submitted = true)
      (hearly : race.early = some workerId)
      (hqueue : race.queue.getJob job.id = some (job.assignedTo workerId))
      (hwithout : race.without.getJob job.id = some job)
  | level (hinserted : race.inserted = true) (hsubmitted : race.submitted = true)
      (hearly : race.early = none)
      (hqueue : race.queue.getJob job.id = race.without.getJob job.id)

structure Tracked (race : SubmitRace) : Prop where
  compared : Compared job race
  chosen : ∀ workerId, race.chosen = some (job.id, workerId) →
    (race.queue.getJob job.id).map Job.status = some .pending

variable {job} {race : SubmitRace}

theorem filter_eq_self {o : Option ℕ} {p : ℕ → Bool} (h : ∀ n ∈ o, p n = true) :
    o.filter p = o := by
  cases o with
  | none => rfl
  | some n => rw [Option.filter_some, if_pos (h n rfl)]

theorem tracked_start {q : JobQueue} (hnew : q.getJob job.id = none) : Tracked job (start q) :=
  ⟨.untouched rfl rfl fun _ => hnew, fun _ h => by cases h⟩

theorem getJob_submission (hjob : job.New) (q : JobQueue) (now : DateTime) :
    (q.applyCommand now (Proposal.submit job).command).getJob job.id =
      if q.getJob job.id = none ∧ q.isFull = false then some job else q.getJob job.id := by
  have hsame : { Job.withId job.id job.command job.createdAt with image := job.image } = job :=
    hjob.symm
  rw [Proposal.command, JobQueue.getJob_submitJob, hsame]
  simp only [and_true]

theorem Compared.addJob (h : Compared job race) (hinserted : race.inserted = false)
    (horder : race.Orderly job .addJob) :
    Compared job { race with queue := (race.queue.addJob job).1, inserted := true } := by
  cases h with
  | ahead hdone | behind hdone | level hdone => exact absurd hdone (by rw [hinserted]; decide)
  | untouched hqueue hearly hnew =>
    by_cases hfull : race.queue.maxJobs ≤ race.queue.activeJobCount
    · rw [JobQueue.addJob, if_pos hfull]
      exact .untouched hqueue hearly hnew
    · have hget : (race.queue.insertJob job).getJob job.id = some job := by
        rw [JobQueue.getJob_insertJob, if_pos rfl]
      rw [JobQueue.addJob, if_neg hfull]
      rcases Bool.eq_false_or_eq_true race.submitted with hsub | hsub
      · rcases horder with hroom | hfalse | hsome
        · exact absurd (of_decide_eq_true hroom) hfull
        · exact absurd hfalse (by rw [hsub]; decide)
        · exact .level rfl hsub hearly (hget.trans (hqueue ▸ hsome.symm))
      · refine .ahead rfl hsub ?_ (hqueue ▸ hnew hsub)
        rw [hearly]
        exact hget

/-- The entry of the submission: the two queues agree again, up to an assignment made before. -/
theorem Compared.applySubmission (h : Compared job race) (hjob : job.New)
    (hsubmitted : race.submitted = false) (now : DateTime)
    (hroom : race.queue.getJob job.id ≠ none → race.without.isFull = false) :
    Compared job (race.applyEntry job now (Proposal.submit job).command) := by
  have hafter : (race.applyEntry job now (Proposal.submit job).command).submitted = true := by
    simp [applyEntry]
  have hearly : (race.applyEntry job now (Proposal.submit job).command).early = race.early :=
    filter_eq_self fun workerId _ => decide_eq_true (by rintro ⟨⟩)
  cases h with
  | behind _ htrue | level _ htrue => exact absurd htrue (by rw [hsubmitted]; decide)
  | untouched hqueue hnone hnew =>
    refine .untouched (congrArg (JobQueue.applyCommand now · (Proposal.submit job).command) hqueue)
      (hearly.trans hnone) fun hfalse => ?_
    exact absurd hfalse (by rw [hafter]; decide)
  | ahead hinserted _ hqueue hwithout =>
    have hkept := getJob_submission hjob race.queue now
    rw [hqueue, if_neg fun hc => nomatch hc.1] at hkept
    have hadded := getJob_submission hjob race.without now
    rw [if_pos ⟨hwithout, hroom (by rw [hqueue]; exact nofun)⟩] at hadded
    cases heq : race.early with
    | none =>
      rw [heq] at hkept
      exact .level hinserted hafter (hearly.trans heq) (hkept.trans hadded.symm)
    | some workerId =>
      rw [heq] at hkept
      exact .behind hinserted hafter (hearly.trans heq) hkept hadded

theorem Compared.applyOther (h : Compared job race) (hjob : job.New) (now : DateTime)
    {command : Command} (hsub : command.submitted ≠ some job.id)
    (hmem : job.id ∈ command.jobIds → race.submitted = true)
    (hnext : ∀ workerId ∈ race.early, race.submitted = true → job.id ∈ command.jobIds →
      command = .assignJob job.id workerId) :
    Compared job (race.applyEntry job now command) := by
  have hne : command ≠ (Proposal.submit job).command := fun heq => hsub (heq ▸ rfl)
  have hafter : (race.applyEntry job now command).submitted = race.submitted := by
    simp [applyEntry, hne]
  have hearly : job.id ∉ command.jobIds →
      (race.applyEntry job now command).early = race.early := fun hnot =>
    filter_eq_self fun workerId _ => decide_eq_true fun heq =>
      hnot (heq ▸ List.mem_singleton_self _)
  have hkept : ∀ q : JobQueue, job.id ∉ command.jobIds →
      (q.applyCommand now command).getJob job.id = q.getJob job.id := fun q hnot =>
    q.getJob_applyCommand_of_not_mem now hnot
  have hnone : race.early = none → (race.applyEntry job now command).early = none := fun heq =>
    congrArg (Option.filter _) heq
  cases h with
  | untouched hqueue heq hnew =>
    refine .untouched (congrArg (fun q : JobQueue => q.applyCommand now command) hqueue)
      (hnone heq) fun hfalse => ?_
    rw [hafter] at hfalse
    exact (hkept _ fun hin => absurd (hmem hin) (by rw [hfalse]; decide)).trans (hnew hfalse)
  | ahead hinserted hfalse hqueue hwithout =>
    have hnot : job.id ∉ command.jobIds := fun hin =>
      absurd (hmem hin) (by rw [hfalse]; decide)
    refine .ahead hinserted (hafter.trans hfalse) ?_ ((hkept _ hnot).trans hwithout)
    rw [hearly hnot]
    exact (hkept _ hnot).trans hqueue
  | @behind workerId hinserted htrue heq hqueue hwithout =>
    by_cases hin : job.id ∈ command.jobIds
    · -- only the entry of the assignment may come next
      obtain rfl := hnext workerId heq htrue hin
      refine .level hinserted (hafter.trans htrue) ?_ ?_
      · simp [applyEntry, heq]
      · have hrunning : (job.assignedTo workerId).applyCommand now (.assignJob job.id workerId) =
            job.assignedTo workerId := if_neg fun hc => nomatch hc.2
        have hassigned : job.applyCommand now (.assignJob job.id workerId) =
            job.assignedTo workerId := if_pos ⟨rfl, hjob.status⟩
        change (race.queue.applyCommand now _).getJob job.id =
          (race.without.applyCommand now _).getJob job.id
        rw [JobQueue.getJob_applyCommand_of_ne _ now job.id hsub, hqueue,
          JobQueue.getJob_applyCommand_of_ne _ now job.id hsub, hwithout, Option.map_some,
          Option.map_some, hrunning, hassigned]
    · refine .behind hinserted (hafter.trans htrue) ((hearly hin).trans heq)
        ((hkept _ hin).trans hqueue) ((hkept _ hin).trans hwithout)
  | level hinserted htrue heq hqueue =>
    refine .level hinserted (hafter.trans htrue) (hnone heq) ?_
    change (race.queue.applyCommand now command).getJob job.id =
      (race.without.applyCommand now command).getJob job.id
    rw [JobQueue.getJob_applyCommand_of_ne _ now job.id hsub, hqueue,
      JobQueue.getJob_applyCommand_of_ne _ now job.id hsub]

theorem getJob_assignJob_self {q : JobQueue} {job' : Job} (h : q.getJob job.id = some job')
    (workerId : ℕ) :
    (q.assignJob job.id workerId).1.getJob job.id = some (job'.assignedTo workerId) := by
  rw [JobQueue.getJob_assignJob, h, Option.map_some, if_pos (JobQueue.id_of_getJob h)]
  rfl

theorem getJob_assignJob_of_none {q : JobQueue} (h : q.getJob job.id = none) (jobId : Uuid)
    (workerId : ℕ) : (q.assignJob jobId workerId).1.getJob job.id = none := by
  rw [JobQueue.getJob_assignJob, h, Option.map_none]

theorem getJob_assignJob_of_ne (q : JobQueue) {jobId : Uuid} (h : jobId ≠ job.id)
    (workerId : ℕ) : (q.assignJob jobId workerId).1.getJob job.id = q.getJob job.id := by
  rw [JobQueue.getJob_assignJob]
  refine (Option.map_congr fun job' hjob' => ?_).trans Option.map_id'
  exact if_neg fun heq => h (heq.symm.trans (JobQueue.id_of_getJob hjob'))

theorem Compared.mark_self (h : Compared job race) (workerId : ℕ)
    (hpending : (race.queue.getJob job.id).map Job.status = some .pending) :
    Compared job (race.mark job job.id workerId) := by
  have hearly : race.submitted = true → (race.mark job job.id workerId).early = race.early :=
    fun htrue => if_neg fun hc => absurd hc.2 (by rw [htrue]; decide)
  cases h with
  | untouched hqueue heq hnew =>
    have htrue : race.submitted = true := by
      by_contra hfalse
      rw [hnew (Bool.not_eq_true _ ▸ hfalse)] at hpending
      cases hpending
    refine .untouched (congrArg (fun q : JobQueue => (q.assignJob job.id workerId).1) hqueue)
      ((hearly htrue).trans heq) fun hfalse => ?_
    exact absurd hfalse (by rw [mark, htrue]; decide)
  | ahead hinserted hfalse hqueue hwithout =>
    have hnew : (race.mark job job.id workerId).early = some workerId := if_pos ⟨rfl, hfalse⟩
    refine .ahead hinserted hfalse ?_ (getJob_assignJob_of_none hwithout _ _)
    rw [hnew]
    refine (getJob_assignJob_self hqueue workerId).trans (congrArg some ?_)
    cases race.early <;> rfl
  | behind _ _ _ hqueue =>
    rw [hqueue] at hpending
    cases hpending
  | level hinserted htrue heq hqueue =>
    refine .level hinserted htrue ((hearly htrue).trans heq) ?_
    change (race.queue.assignJob job.id workerId).1.getJob job.id =
      (race.without.assignJob job.id workerId).1.getJob job.id
    rw [JobQueue.getJob_assignJob, JobQueue.getJob_assignJob, hqueue]

theorem Compared.mark_other (h : Compared job race) {jobId : Uuid} (hne : jobId ≠ job.id)
    (workerId : ℕ) : Compared job (race.mark job jobId workerId) := by
  have hkept : ∀ q : JobQueue, (q.assignJob jobId workerId).1.getJob job.id = q.getJob job.id :=
    fun q => getJob_assignJob_of_ne q hne workerId
  have hearly : (race.mark job jobId workerId).early = race.early := if_neg fun hc => hne hc.1
  cases h with
  | untouched hqueue heq hnew =>
    exact .untouched (congrArg (fun q : JobQueue => (q.assignJob jobId workerId).1) hqueue)
      (hearly.trans heq) fun hfalse => (hkept _).trans (hnew hfalse)
  | ahead hinserted hfalse hqueue hwithout =>
    refine .ahead hinserted hfalse ?_ ((hkept _).trans hwithout)
    rw [hearly]
    exact (hkept _).trans hqueue
  | behind hinserted htrue heq hqueue hwithout =>
    exact .behind hinserted htrue (hearly.trans heq) ((hkept _).trans hqueue)
      ((hkept _).trans hwithout)
  | level hinserted htrue heq hqueue =>
    exact .level hinserted htrue (hearly.trans heq)
      ((hkept _).trans (hqueue.trans (hkept _).symm))

theorem Tracked.step (hjob : job.New) {race' : SubmitRace} {ev : RaceEvent}
    (h : Tracked job race) (horder : race.Orderly job ev)
    (hstep : race.step job ev = some race') : Tracked job race' := by
  cases ev with
  | addJob =>
    rw [SubmitRace.step] at hstep
    split_ifs at hstep with hinserted
    obtain rfl := Option.some.inj hstep
    refine ⟨h.compared.addJob (Bool.not_eq_true _ ▸ hinserted) horder, fun workerId hchosen => ?_⟩
    have hpending := h.chosen workerId hchosen
    change ((race.queue.addJob job).1.getJob job.id).map Job.status = some .pending
    rw [JobQueue.getJob_addJob]
    split_ifs
    · rw [Option.map_some, hjob.status]
    · exact hpending
  | applyEntry now command =>
    rw [SubmitRace.step] at hstep
    split_ifs at hstep with hguard
    obtain rfl := Option.some.inj hstep
    refine ⟨?_, fun workerId hchosen => ?_⟩
    swap
    · rw [show (race.applyEntry job now command).chosen = none from hguard.1] at hchosen
      cases hchosen
    rcases hguard.2 with ⟨rfl, hfalse⟩ | ⟨hsub, hmem⟩
    · exact h.compared.applySubmission hjob hfalse now (horder.1 rfl)
    · exact h.compared.applyOther hjob now hsub hmem horder.2
  | choose jobId workerId =>
    rw [SubmitRace.step] at hstep
    split_ifs at hstep with hguard
    obtain rfl := Option.some.inj hstep
    refine ⟨?_, fun workerId' hchosen => ?_⟩
    · cases h.compared with
      | untouched hqueue heq hnew => exact .untouched hqueue heq hnew
      | ahead hinserted hfalse hqueue hwithout => exact .ahead hinserted hfalse hqueue hwithout
      | behind hinserted htrue heq hqueue hwithout =>
        exact .behind hinserted htrue heq hqueue hwithout
      | level hinserted htrue heq hqueue => exact .level hinserted htrue heq hqueue
    · obtain ⟨rfl, -⟩ := Prod.mk.inj (Option.some.inj hchosen)
      exact hguard.2
  | mark =>
    rw [SubmitRace.step] at hstep
    split at hstep
    · next jobId workerId hchosen =>
      obtain rfl := Option.some.inj hstep
      refine ⟨?_, fun _ hnone => by cases hnone⟩
      by_cases hid : jobId = job.id
      · subst hid
        exact h.compared.mark_self workerId (h.chosen workerId hchosen)
      · exact h.compared.mark_other hid workerId
    · cases hstep

/-- After an orderly run the job's record is as it would be without the handler's insert. -/
theorem insert_leaves_no_trace {q : JobQueue} (hjob : job.New) (hnew : q.getJob job.id = none)
    (h : Runs.Reach (step job) (Orderly job) (start q) race) (hdone : race.Done) :
    race.queue.getJob job.id = race.without.getJob job.id := by
  have htracked : Tracked job race :=
    h.invariant (tracked_start hnew) fun htracked horder hstep =>
      htracked.step hjob horder hstep
  obtain ⟨-, hsubmitted, hearly⟩ := hdone
  cases htracked.compared with
  | untouched hqueue => rw [hqueue]
  | ahead _ hfalse => exact absurd hfalse (by rw [hsubmitted]; decide)
  | behind _ _ hsome =>
    rw [hearly] at hsome
    cases hsome
  | level _ _ _ hqueue => exact hqueue

def submittedJob : Job := .withId 7 "ls" .epoch

/-- The handler comes first, and the leader assigns the job before its entry is applied. -/
theorem early_insert_leaves_no_trace :
    ∃ race, Runs.Reach (step submittedJob) (Orderly submittedJob) (start .new) race ∧
      (race.queue.getJob 7).map Job.status = some .completed ∧
      race.queue.getJob 7 = race.without.getJob 7 := by
  obtain ⟨race, hreach, hdone, hstatus⟩ := Runs.exists_reach_of_guardedRun (step submittedJob)
    (Orderly submittedJob)
    (fun race => race.Done ∧ (race.queue.getJob 7).map Job.status = some .completed) (start .new)
    [.addJob, .choose 7 2, .mark, .applyEntry .epoch (.submitJob 7 "ls" .epoch none),
      .applyEntry .epoch (.assignJob 7 2),
      .applyEntry .epoch (.updateJobStatus 7 .completed 2 (some 0) (some .epoch))]
    (by decide +kernel)
  exact ⟨race, hreach, hstatus, insert_leaves_no_trace (show submittedJob.New from rfl)
    (by decide +kernel) hreach hdone⟩

/-- The handler comes last: the job that runs on worker 2 is pending again. -/
theorem late_insert_resets_job :
    ¬ ∀ (job : Job) (q : JobQueue) (race : SubmitRace), job.New → q.getJob job.id = none →
      Runs.Reach (step job) (fun _ _ => True) (start q) race → race.Done →
      race.queue.getJob job.id = race.without.getJob job.id := by
  intro hall
  obtain ⟨race, hreach, hdone, hne⟩ := Runs.exists_reach_of_guardedRun (step submittedJob)
    (fun _ _ => True)
    (fun race => race.Done ∧ race.queue.getJob 7 ≠ race.without.getJob 7) (start .new)
    [.applyEntry .epoch (.submitJob 7 "ls" .epoch none), .choose 7 2, .mark,
      .applyEntry .epoch (.assignJob 7 2), .addJob]
    (by decide +kernel)
  exact hne (hall submittedJob .new race rfl (by decide +kernel) hreach hdone)

end SubmitRace
end NomadLite
