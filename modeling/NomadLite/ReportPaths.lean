import NomadLite.CompletionReports
import NomadLite.WireRoundTrip

/-!
# Three ways to report results

What a worker loop has buffered reaches the log as a command of the leader's own loop,
as a command that `forward_job_status` decodes from a follower's call, or, read as a
specification, as one `UpdateJobStatus` after the other. The scheduler loop makes the
same queue of all three, except that completion times forwarded by a follower have lost
what is below the millisecond.
-/

namespace NomadLite

def JobStatusUpdate.command (u : JobStatusUpdate) : Command :=
  .updateJobStatus u.jobId u.status u.executedBy u.exitCode u.completedAt

def JobStatusUpdate.InRange (lib : WireLib) (u : JobStatusUpdate) : Prop :=
  ∀ t ∈ u.completedAt.toList, t.InRange lib

instance (lib : WireLib) (u : JobStatusUpdate) : Decidable (u.InRange lib) :=
  inferInstanceAs (Decidable (∀ t ∈ u.completedAt.toList, _))

theorem JobStatusUpdate.onWire_eq {lib : WireLib} {u : JobStatusUpdate} (h : u.InRange lib) :
    u.onWire lib = u.normalized := by
  rw [onWire, normalized, DateTime.map_onWire_eq h]

namespace Job

def TruncatedFrom (job original : Job) : Prop :=
  job = original ∨
    job = { original with completedAt := original.completedAt.map DateTime.truncated }

instance (job original : Job) : Decidable (job.TruncatedFrom original) :=
  inferInstanceAs (Decidable (_ ∨ _))

theorem TruncatedFrom.applyStatus {job original : Job} (h : job.TruncatedFrom original)
    (u : JobStatusUpdate) :
    (job.applyStatus u.normalized).TruncatedFrom (original.applyStatus u) := by
  have hid : job.id = original.id := by rcases h with rfl | rfl <;> rfl
  have hstatus : job.status = original.status := by rcases h with rfl | rfl <;> rfl
  by_cases hguard : original.id = u.jobId ∧ original.status ≠ .cancelled
  · rw [Job.applyStatus, Job.applyStatus, if_pos hguard, hid, hstatus]
    rw [if_pos (show original.id = u.normalized.jobId ∧ _ from hguard)]
    rcases h with rfl | rfl
    · exact .inr rfl
    · exact .inr rfl
  · rw [Job.applyStatus, Job.applyStatus, if_neg hguard, hid, hstatus]
    rwa [if_neg (show ¬ (original.id = u.normalized.jobId ∧ _) from hguard)]

theorem TruncatedFrom.foldl_applyStatus {job original : Job} (h : job.TruncatedFrom original)
    (updates : List JobStatusUpdate) :
    ((updates.map JobStatusUpdate.normalized).foldl (fun job u => job.applyStatus u)
      job).TruncatedFrom (updates.foldl (fun job u => job.applyStatus u) original) := by
  induction updates generalizing job original with
  | nil => exact h
  | cons u updates ih => exact ih (h.applyStatus u)

end Job

namespace JobQueue

structure TruncatedFrom (q original : JobQueue) : Prop where
  maxJobs : q.maxJobs = original.maxJobs
  jobs : ∀ id, Option.Rel Job.TruncatedFrom (q.getJob id) (original.getJob id)

theorem truncatedFrom_foldl_applyStatus (q : JobQueue) (updates : List JobStatusUpdate) :
    ((updates.map JobStatusUpdate.normalized).foldl applyStatus q).TruncatedFrom
      (updates.foldl applyStatus q) where
  maxJobs := by rw [foldl_applyStatus_maxJobs, foldl_applyStatus_maxJobs]
  jobs id := by
    rw [getJob_foldl_applyStatus, getJob_foldl_applyStatus]
    cases q.getJob id with
    | none => exact .none
    | some job => exact .some (Job.TruncatedFrom.foldl_applyStatus (.inl rfl) updates)

theorem applyCommand_reportCommand (now : DateTime) (q : JobQueue)
    (updates : List JobStatusUpdate) :
    q.applyCommand now (reportCommand updates) = updates.foldl applyStatus q := by
  cases updates with
  | nil => rfl
  | cons u updates => cases updates <;> rfl

theorem foldl_applyCommand_command (now : DateTime) (q : JobQueue)
    (updates : List JobStatusUpdate) :
    (updates.map JobStatusUpdate.command).foldl (applyCommand now) q =
      updates.foldl applyStatus q := by
  induction updates generalizing q with
  | nil => rfl
  | cons u updates ih => exact ih (q.applyStatus u)

end JobQueue

/-- The leader's own command does what its updates do one by one; the command decoded from a
follower's call does what they do with their completion times cut to milliseconds. -/
theorem report_paths_agree (lib : WireLib) {updates : List JobStatusUpdate}
    (hrange : ∀ u ∈ updates, u.InRange lib) {call : ForwardCall}
    (hcall : call.updates = updates.map (statusUpdateToProto lib)) (q : JobQueue)
    (now now' now'' : DateTime) :
    q.applyCommand now (reportCommand updates) =
        (updates.map JobStatusUpdate.command).foldl (JobQueue.applyCommand now'') q ∧
      q.applyCommand now' (call.command lib) =
        ((updates.map JobStatusUpdate.normalized).map JobStatusUpdate.command).foldl
          (JobQueue.applyCommand now'') q ∧
      (q.applyCommand now' (call.command lib)).TruncatedFrom
        ((updates.map JobStatusUpdate.command).foldl (JobQueue.applyCommand now'') q) := by
  have hforwarded : q.applyCommand now' (call.command lib) =
      (updates.map JobStatusUpdate.normalized).foldl JobQueue.applyStatus q := by
    rw [ForwardCall.command_of_reports hcall, JobQueue.applyCommand_reportCommand,
      List.map_congr_left fun u hu => JobStatusUpdate.onWire_eq (hrange u hu)]
  rw [hforwarded, JobQueue.applyCommand_reportCommand, JobQueue.foldl_applyCommand_command,
    JobQueue.foldl_applyCommand_command]
  exact ⟨rfl, rfl, q.truncatedFrom_foldl_applyStatus updates⟩

def reportedTwice : List JobStatusUpdate :=
  [⟨7, .failed, 2, some 1, some ⟨1500, ⟨123456, by decide⟩⟩⟩,
    ⟨7, .completed, 2, some 0, some ⟨1600, ⟨654321, by decide⟩⟩⟩]

theorem reportedTwice_paths_agree :
    let q := JobQueue.new.insertJob { Job.withId 7 "true" (.ofMillis 1000) with status := .running }
    let call : ForwardCall := ⟨1, reportedTwice.map (statusUpdateToProto .standard), .received⟩
    q.applyCommand .epoch (reportCommand reportedTwice) =
        (reportedTwice.map JobStatusUpdate.command).foldl (JobQueue.applyCommand .epoch) q ∧
      (q.applyCommand .epoch (call.command .standard)).TruncatedFrom
        ((reportedTwice.map JobStatusUpdate.command).foldl (JobQueue.applyCommand .epoch) q) := by
  intro q call
  have hrange : ∀ u ∈ reportedTwice, u.InRange .standard := by decide
  have hcall : call.updates = reportedTwice.map (statusUpdateToProto .standard) := rfl
  obtain ⟨hown, -, hforwarded⟩ :=
    report_paths_agree .standard hrange hcall q .epoch .epoch .epoch
  exact ⟨hown, hforwarded⟩

end NomadLite
