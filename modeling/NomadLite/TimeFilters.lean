import NomadLite.JobEffects
import NomadLite.JobListing
import NomadLite.WireRoundTrip

/-!
# Time filters and reported times

A listing reports the millisecond in which a job was created and is filtered by
milliseconds, but the filter compares the full creation time. A job of the leader that
was created inside a millisecond is later than the bound that names this millisecond. A
follower has received the time without the part below the millisecond and selects the
job. A bound outside the range of `chrono` is dropped, whichever side it excludes.
-/

namespace NomadLite

/-! ### Bounds in milliseconds -/

def DateTime.IsWhole (t : DateTime) : Prop := t.nanos.val = 0

instance (t : DateTime) : Decidable t.IsWhole := inferInstanceAs (Decidable (_ = _))

theorem DateTime.ofMillis_le_iff (ms : ℤ) (t : DateTime) : (ofMillis ms).le t ↔ ms ≤ t.millis := by
  have hzero : (0 : Fin 1000000) ≤ t.nanos := Fin.zero_le _
  rw [le, ofMillis, Int.le_iff_lt_or_eq]
  exact or_congr_right (and_iff_left hzero)

theorem DateTime.le_ofMillis_iff (ms : ℤ) (t : DateTime) :
    t.le (ofMillis ms) ↔ t.millis < ms ∨ t.millis = ms ∧ t.IsWhole := by
  rw [le, ofMillis]
  exact or_congr_right (and_congr_right fun _ => Fin.le_zero_iff.trans Fin.ext_iff)

def JobInfo.Within (a b : ℤ) (info : JobInfo) : Prop :=
  (a = 0 ∨ a ≤ info.createdAtMs) ∧ (b = 0 ∨ info.createdAtMs ≤ b)

instance (a b : ℤ) (info : JobInfo) : Decidable (info.Within a b) :=
  inferInstanceAs (Decidable (_ ∧ _))

namespace WireLib

variable (lib : WireLib) (a b : ℤ) (t : DateTime)

/-- The lower bound is after all times of `chrono` and the other check passes, or the lower bound
is met and the upper one is before all times of `chrono` or cuts the millisecond of creation. -/
def Misjudges : Prop :=
  (lib.maxMillis < a ∧
    (b = 0 ∨ b < lib.minMillis ∨ lib.maxMillis < b ∨ t.le (.ofMillis b))) ∨
  (a ≤ lib.maxMillis ∧ (a = 0 ∨ a ≤ t.millis) ∧
    (b < lib.minMillis ∨ (b ≠ 0 ∧ t.millis = b ∧ ¬ t.IsWhole)))

instance : Decidable (lib.Misjudges a b t) := inferInstanceAs (Decidable (_ ∨ _))

end WireLib

namespace ListJobsRequest

variable (lib : WireLib) (req : ListJobsRequest) (t : DateTime)

def untimed (req : ListJobsRequest) : ListJobsRequest :=
  { req with createdAfterMs := 0, createdBeforeMs := 0 }

theorem all_bound_iff (ms : ℤ) (p : DateTime → Bool) :
    ((if ms ≠ 0 then some ms else none).bind lib.timestampMillisOpt).all p = true ↔
      ms = 0 ∨ ms < lib.minMillis ∨ lib.maxMillis < ms ∨ p (.ofMillis ms) = true := by
  by_cases hzero : ms = 0
  · rw [if_neg (not_not.mpr hzero)]
    exact iff_of_true rfl (.inl hzero)
  · rw [if_pos hzero, Option.bind_some, WireLib.timestampMillisOpt]
    split_ifs with hrange
    · rw [Option.all_some]
      constructor
      · exact fun hp => .inr (.inr (.inr hp))
      · rintro (h | h | h | h)
        · exact absurd h hzero
        · omega
        · omega
        · exact h
    · rw [Option.all_none]
      exact iff_of_true rfl (by omega)

theorem acceptsTime_iff :
    req.filter.acceptsTime lib t = true ↔
      (req.createdAfterMs = 0 ∨ req.createdAfterMs < lib.minMillis ∨
        lib.maxMillis < req.createdAfterMs ∨ req.createdAfterMs ≤ t.millis) ∧
      (req.createdBeforeMs = 0 ∨ req.createdBeforeMs < lib.minMillis ∨
        lib.maxMillis < req.createdBeforeMs ∨ t.le (.ofMillis req.createdBeforeMs)) := by
  have hafter := all_bound_iff lib req.createdAfterMs fun after => after.le t
  have hbefore := all_bound_iff lib req.createdBeforeMs fun before => t.le before
  rw [decide_eq_true_iff, DateTime.ofMillis_le_iff] at hafter
  rw [decide_eq_true_iff] at hbefore
  rw [JobFilter.acceptsTime, Bool.and_eq_true]
  exact and_congr hafter hbefore

variable {t}

/-- The time filters say what the reported time says, except for a misjudged job. -/
theorem acceptsTime_iff_within (ht : t.InRange lib) {info : JobInfo}
    (hinfo : info.createdAtMs = t.millis) :
    (req.filter.acceptsTime lib t = true ↔
        info.Within req.createdAfterMs req.createdBeforeMs) ↔
      ¬ lib.Misjudges req.createdAfterMs req.createdBeforeMs t := by
  have hle := DateTime.le_ofMillis_iff req.createdBeforeMs t
  have hepoch := lib.epoch_inRange
  have hmin : lib.minMillis ≤ t.millis := ht.1
  have hmax : t.millis ≤ lib.maxMillis := ht.2
  rw [acceptsTime_iff, JobInfo.Within, WireLib.Misjudges, hinfo, hle]
  by_cases hwhole : t.IsWhole
  · simp only [hwhole, and_true, not_true_eq_false, and_false, or_false]
    omega
  · simp only [hwhole, and_false, or_false, not_false_eq_true, and_true]
    omega

theorem acceptsTime_untimed (t : DateTime) : req.untimed.filter.acceptsTime lib t = true :=
  (acceptsTime_iff lib req.untimed t).mpr ⟨.inl rfl, .inl rfl⟩

end ListJobsRequest

/-! ### The jobs of a leader and of a follower -/

/-- The job as a follower holds it: its submission has passed through the wire codec. Output,
completion time and image do not matter here. -/
structure Job.ReceivedAs (lib : WireLib) (job received : Job) : Prop where
  id : received.id = job.id
  command : received.command = job.command
  status : received.status = job.status
  assignedWorker : received.assignedWorker = job.assignedWorker
  executedBy : received.executedBy = job.executedBy
  createdAt : received.createdAt = job.createdAt.onWire lib

section Selection

variable {lib : WireLib} {toLowercase : String → String} {q q' : JobQueue} {req : ListJobsRequest}

theorem Job.ReceivedAs.acceptsRest {job received : Job} (h : job.ReceivedAs lib received)
    (filter : JobFilter) :
    filter.acceptsRest toLowercase received = filter.acceptsRest toLowercase job := by
  rw [JobFilter.acceptsRest, JobFilter.acceptsRest, h.command, h.status, h.assignedWorker,
    h.executedBy]

theorem Job.ReceivedAs.accepts {job received : Job} (h : job.ReceivedAs lib received)
    (hrange : job.createdAt.InRange lib) (filter : JobFilter) :
    filter.accepts lib toLowercase received = (filter.acceptsRest toLowercase job &&
      filter.acceptsTime lib job.createdAt.truncated) := by
  rw [JobFilter.accepts, h.acceptsRest, h.createdAt, DateTime.onWire_eq hrange]

/-- Cutting the time to milliseconds makes a difference to one request only: the one whose upper
bound is the millisecond that is cut. -/
theorem ListJobsRequest.acceptsTime_truncated_iff {t : DateTime} (ht : t.InRange lib) :
    (∀ req : ListJobsRequest,
        req.filter.acceptsTime lib t.truncated = req.filter.acceptsTime lib t) ↔
      t.IsWhole ∨ t.millis = 0 := by
  have htrunc : ∀ ms, t.truncated.le (.ofMillis ms) ↔ t.millis ≤ ms := fun ms => by
    rw [DateTime.le_ofMillis_iff]
    have hwhole : t.truncated.IsWhole := rfl
    rw [and_iff_left hwhole]
    exact Int.le_iff_lt_or_eq.symm
  constructor
  · intro hall
    by_contra hcut
    obtain ⟨hinside, hmillis⟩ := not_or.mp hcut
    -- the request asks for the jobs created up to the millisecond itself
    have heq := hall ⟨0, "", 0, 0, "", 0, t.millis⟩
    have hreceived := (acceptsTime_iff lib ⟨0, "", 0, 0, "", 0, t.millis⟩ t.truncated).mpr
      ⟨.inl rfl, .inr (.inr (.inr ((htrunc _).mpr le_rfl)))⟩
    rw [heq, acceptsTime_iff, DateTime.le_ofMillis_iff] at hreceived
    have hmin := ht.1
    have hmax := ht.2
    rcases hreceived.2 with h | h | h | h | h
    · exact hmillis h
    · exact absurd hmin (not_le.mpr h)
    · exact absurd hmax (not_le.mpr h)
    · exact lt_irrefl _ h
    · exact hinside h.2
  · intro hwhole req
    refine Bool.eq_iff_iff.mpr ?_
    rw [acceptsTime_iff, acceptsTime_iff, htrunc, DateTime.le_ofMillis_iff]
    refine and_congr Iff.rfl ?_
    by_cases hstart : t.IsWhole
    · simp only [hstart, and_true]
      omega
    · have hmillis := hwhole.resolve_left hstart
      simp only [hstart, and_false, or_false]
      omega

variable (it : q.Iteration)

theorem selected_iff_reported_iff
    (hrange : ∀ id job, q.getJob id = some job → job.createdAt.InRange lib)
    (req : ListJobsRequest) :
    (∀ job, job ∈ it.filteredJobs lib toLowercase req.filter ↔
        job ∈ it.filteredJobs lib toLowercase req.untimed.filter ∧
          (job.info lib).Within req.createdAfterMs req.createdBeforeMs) ↔
      ∀ job, q.getJob job.id = some job → req.filter.acceptsRest toLowercase job = true →
        ¬ lib.Misjudges req.createdAfterMs req.createdBeforeMs job.createdAt := by
  refine forall_congr' fun job => ?_
  rw [it.mem_filteredJobs_iff, it.mem_filteredJobs_iff, JobFilter.accepts, JobFilter.accepts,
    Bool.and_eq_true, Bool.and_eq_true, req.acceptsTime_untimed lib, and_iff_left rfl]
  change (q.getJob job.id = some job ∧ req.filter.acceptsRest toLowercase job = true ∧ _ ↔
    (q.getJob job.id = some job ∧ req.filter.acceptsRest toLowercase job = true) ∧ _) ↔ _
  rw [← and_assoc, and_congr_right_iff, and_imp]
  refine forall_congr' fun hget => forall_congr' fun _ => ?_
  exact req.acceptsTime_iff_within lib (hrange job.id job hget) rfl

def ListJobsRequest.onlyTimes (req : ListJobsRequest) : ListJobsRequest :=
  ⟨0, "", 0, 0, "", req.createdAfterMs, req.createdBeforeMs⟩

theorem same_selection_iff
    (hrange : ∀ id job, q.getJob id = some job → job.createdAt.InRange lib) (it' : q'.Iteration)
    (hreceived : ∀ id, Option.Rel (Job.ReceivedAs lib) (q.getJob id) (q'.getJob id)) :
    (∀ (req : ListJobsRequest) (id : Uuid),
        id ∈ (it.filteredJobs lib toLowercase req.filter).map Job.id ↔
          id ∈ (it'.filteredJobs lib toLowercase req.filter).map Job.id) ↔
      ∀ id job, q.getJob id = some job →
        job.createdAt.IsWhole ∨ job.createdAt.millis = 0 := by
  simp only [it.mem_ids_filteredJobs_iff, it'.mem_ids_filteredJobs_iff]
  constructor
  · intro hsame id job hget
    refine (ListJobsRequest.acceptsTime_truncated_iff (hrange id job hget)).mp fun req => ?_
    have hreq := hsame req.onlyTimes id
    have hrel := hreceived id
    rw [hget] at hreq hrel
    generalize q'.getJob id = follower at hreq hrel
    cases hrel with
    | some hjob =>
      rw [Option.any_some, Option.any_some, hjob.accepts (hrange id job hget)] at hreq
      exact (Bool.eq_iff_iff.mpr hreq).symm
  · intro hwhole req id
    have hrel := hreceived id
    generalize hget : q.getJob id = leader at hrel ⊢
    generalize q'.getJob id = follower at hrel ⊢
    cases hrel with
    | none => exact Iff.rfl
    | some hjob =>
      have htimes := (ListJobsRequest.acceptsTime_truncated_iff (hrange id _ hget)).mpr
        (hwhole id _ hget) req
      rw [Option.any_some, Option.any_some, hjob.accepts (hrange id _ hget), htimes]
      exact Iff.rfl

/-- A listing selects by what it reports exactly when none of the jobs that pass the other filters
is misjudged; a leader and a follower select the same jobs for all requests exactly when the
leader's jobs were created on whole milliseconds, the one that no bound can name aside. -/
theorem time_filters_agree_iff (lib : WireLib) (toLowercase : String → String) {q : JobQueue}
    (it : q.Iteration) (hrange : ∀ id job, q.getJob id = some job → job.createdAt.InRange lib) :
    (∀ req : ListJobsRequest,
      (∀ job, job ∈ it.filteredJobs lib toLowercase req.filter ↔
          job ∈ it.filteredJobs lib toLowercase req.untimed.filter ∧
            (job.info lib).Within req.createdAfterMs req.createdBeforeMs) ↔
        ∀ job, q.getJob job.id = some job → req.filter.acceptsRest toLowercase job = true →
          ¬ lib.Misjudges req.createdAfterMs req.createdBeforeMs job.createdAt) ∧
    ∀ (q' : JobQueue) (it' : q'.Iteration),
      (∀ id, Option.Rel (Job.ReceivedAs lib) (q.getJob id) (q'.getJob id)) →
      ((∀ (req : ListJobsRequest) (id : Uuid),
          id ∈ (it.filteredJobs lib toLowercase req.filter).map Job.id ↔
            id ∈ (it'.filteredJobs lib toLowercase req.filter).map Job.id) ↔
        ∀ id job, q.getJob id = some job →
          job.createdAt.IsWhole ∨ job.createdAt.millis = 0) :=
  ⟨fun req => selected_iff_reported_iff it hrange req,
    fun _ it' hreceived => same_selection_iff it hrange it' hreceived⟩

end Selection

/-! ### A job created inside a millisecond -/

def unevenJob : Job := .withId 7 "true" ⟨1700000000123, ⟨456000, by decide⟩⟩

def evenJob : Job := { unevenJob with createdAt := .ofMillis 1700000000123 }

def listedAlone (job : Job) : (JobQueue.new.insertJob job).Iteration where
  values := [job]
  entries_eq := rfl

def upToItsMillisecond : ListJobsRequest := ⟨0, "", 0, 0, "", 0, 1700000000123⟩

theorem getJob_listedAlone {job job' : Job} {id : Uuid}
    (h : (JobQueue.new.insertJob job).getJob id = some job') : id = job.id ∧ job' = job := by
  rw [JobQueue.getJob_insertJob] at h
  split_ifs at h with hid
  · exact ⟨hid, (Option.some.inj h).symm⟩
  · cases h

/-- On the follower the job is reported within the bounds and selected. -/
theorem even_job_selected_as_reported :
    (evenJob.info .standard).Within 0 1700000000123 ∧
      evenJob ∈ (listedAlone evenJob).filteredJobs .standard String.toLower
        upToItsMillisecond.filter := by
  have hrange : ∀ id job, (JobQueue.new.insertJob evenJob).getJob id = some job →
      job.createdAt.InRange .standard := fun id job hget => by
    rw [(getJob_listedAlone hget).2]
    decide
  have hagree := ((time_filters_agree_iff .standard String.toLower (listedAlone evenJob)
    hrange).1 upToItsMillisecond).mpr fun job hget _ => by
      rw [(getJob_listedAlone hget).2]
      decide
  exact ⟨by decide, (hagree evenJob).mpr (by decide +kernel)⟩

/-- On the leader the job is reported within the bounds and not selected, and on the follower it
is selected. -/
theorem uneven_job_misjudged :
    (¬ ∀ job, job ∈ (listedAlone unevenJob).filteredJobs .standard String.toLower
          upToItsMillisecond.filter ↔
        job ∈ (listedAlone unevenJob).filteredJobs .standard String.toLower
            upToItsMillisecond.untimed.filter ∧
          (job.info .standard).Within 0 1700000000123) ∧
      unevenJob.ReceivedAs .standard evenJob ∧
      ((listedAlone unevenJob).filteredJobs .standard String.toLower
        upToItsMillisecond.filter).map Job.id = [] ∧
      ((listedAlone evenJob).filteredJobs .standard String.toLower
        upToItsMillisecond.filter).map Job.id = [7] := by
  refine ⟨fun hall => ?_, ⟨rfl, rfl, rfl, rfl, rfl, by decide⟩, by decide +kernel,
    by decide +kernel⟩
  have hselected := (hall unevenJob).mpr (by decide +kernel)
  exact absurd hselected (by decide +kernel)

-- the largest `i64` as lower bound selects every job
example : WireLib.standard.Misjudges (2 ^ 63 - 1) 0 evenJob.createdAt := by decide

end NomadLite
