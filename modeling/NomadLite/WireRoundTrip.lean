import NomadLite.Rpc
import NomadLite.StandardWire

/-!
# The round trip over the wire

What is lost between two nodes does not depend on the message: the part of a timestamp
below the millisecond, and the difference between an empty image and none. Everything
else of an entry or of a snapshot job comes back, provided that the `chrono` crate can
read the milliseconds it has written.
-/

namespace NomadLite

/-! ### What arrives -/

def DateTime.truncated (dt : DateTime) : DateTime := .ofMillis dt.timestampMillis

def dropEmpty (image : Option String) : Option String :=
  if image = some "" then none else image

def JobStatusUpdate.normalized (u : JobStatusUpdate) : JobStatusUpdate :=
  { u with completedAt := u.completedAt.map DateTime.truncated }

def Command.normalized : Command → Command
  | .submitJob jobId command createdAt image =>
    .submitJob jobId command createdAt.truncated (dropEmpty image)
  | .updateJobStatus jobId status executedBy exitCode completedAt =>
    .updateJobStatus jobId status executedBy exitCode (completedAt.map DateTime.truncated)
  | .batchUpdateJobStatus updates =>
    .batchUpdateJobStatus (updates.map JobStatusUpdate.normalized)
  | .registerWorker workerId => .registerWorker workerId
  | .assignJob jobId workerId => .assignJob jobId workerId
  | .cancelJob jobId => .cancelJob jobId
  | .noop => .noop

def LogEntry.normalized (e : LogEntry) : LogEntry := { e with command := e.command.normalized }

def SnapshotJob.normalized (job : SnapshotJob) : SnapshotJob :=
  { job with
    createdAt := job.createdAt.truncated
    completedAt := job.completedAt.map DateTime.truncated
    image := dropEmpty job.image }

def Proto.LogEntry.normalized (proto : Proto.LogEntry) : Proto.LogEntry :=
  match proto.command with
  | some ⟨some (.submitJob jobId command createdAtMs image)⟩ =>
    { proto with
      command := some ⟨some (.submitJob jobId command createdAtMs (dropEmpty image))⟩ }
  | _ => proto

def Proto.SnapshotJob.normalized (proto : Proto.SnapshotJob) : Proto.SnapshotJob :=
  { proto with image := dropEmpty proto.image }

/-! ### Timestamps that can be read back -/

def Command.times : Command → List DateTime
  | .submitJob _ _ createdAt _ => [createdAt]
  | .updateJobStatus _ _ _ _ completedAt => completedAt.toList
  | .batchUpdateJobStatus updates => updates.flatMap fun u => u.completedAt.toList
  | .registerWorker _ | .assignJob .. | .cancelJob _ | .noop => []

def SnapshotJob.times (job : SnapshotJob) : List DateTime :=
  job.createdAt :: job.completedAt.toList

section Range

variable (lib : WireLib)

def DateTime.InRange (dt : DateTime) : Prop :=
  lib.minMillis ≤ dt.timestampMillis ∧ dt.timestampMillis ≤ lib.maxMillis

instance (dt : DateTime) : Decidable (dt.InRange lib) := inferInstanceAs (Decidable (_ ∧ _))

def LogEntry.InRange (e : LogEntry) : Prop := ∀ dt ∈ e.command.times, dt.InRange lib

instance (e : LogEntry) : Decidable (e.InRange lib) :=
  inferInstanceAs (Decidable (∀ dt ∈ e.command.times, _))

def SnapshotJob.InRange (job : SnapshotJob) : Prop := ∀ dt ∈ job.times, dt.InRange lib

instance (job : SnapshotJob) : Decidable (job.InRange lib) :=
  inferInstanceAs (Decidable (∀ dt ∈ job.times, _))

variable {lib}

theorem filter_ne_empty_eq_dropEmpty (image : Option String) :
    image.filter (· ≠ "") = dropEmpty image := by
  rw [dropEmpty]
  split_ifs with hempty
  · rw [hempty]
    rfl
  · exact Option.filter_ne_empty hempty

theorem DateTime.onWire_eq {dt : DateTime} (h : dt.InRange lib) :
    dt.onWire lib = dt.truncated := by
  have hread : lib.timestampMillisOpt dt.timestampMillis = some dt.truncated := if_pos h
  rw [onWire, WireLib.msToDatetime, hread, Option.getD_some]

theorem DateTime.map_onWire_eq {dt : Option DateTime} (h : ∀ t ∈ dt.toList, t.InRange lib) :
    dt.map (DateTime.onWire lib) = dt.map DateTime.truncated := by
  cases dt with
  | none => rfl
  | some t => rw [Option.map_some, Option.map_some, onWire_eq (h t (List.mem_singleton_self t))]

theorem LogEntry.onWire_eq {e : LogEntry} (h : e.InRange lib) : e.onWire lib = e.normalized := by
  obtain ⟨term, index, command⟩ := e
  rw [onWire, normalized]
  congr 1
  cases command with
  | submitJob jobId command createdAt image =>
    have hcreated : createdAt.InRange lib := h createdAt (List.mem_singleton_self _)
    rw [Command.onWire, Command.normalized, DateTime.onWire_eq hcreated,
      filter_ne_empty_eq_dropEmpty]
  | updateJobStatus jobId status executedBy exitCode completedAt =>
    rw [Command.onWire, Command.normalized, DateTime.map_onWire_eq h]
  | batchUpdateJobStatus updates =>
    rw [Command.onWire, Command.normalized]
    congr 1
    refine List.map_congr_left fun u hu => ?_
    rw [JobStatusUpdate.onWire, JobStatusUpdate.normalized,
      DateTime.map_onWire_eq fun t ht => h t (List.mem_flatMap.mpr ⟨u, hu, ht⟩)]
  | registerWorker workerId => rfl
  | assignJob jobId workerId => rfl
  | cancelJob jobId => rfl
  | noop => rfl

theorem SnapshotJob.onWire_eq {job : SnapshotJob} (h : job.InRange lib) :
    job.onWire lib = job.normalized := by
  have hcreated : job.createdAt.InRange lib := h _ (List.mem_cons_self ..)
  have hcompleted := DateTime.map_onWire_eq fun t ht => h t (List.mem_cons_of_mem _ ht)
  rw [onWire, normalized, DateTime.onWire_eq hcreated, hcompleted, filter_ne_empty_eq_dropEmpty]

/-! ### Encoding again -/

theorem map_timestampMillis_truncated (dt : Option DateTime) :
    (dt.map DateTime.truncated).map DateTime.timestampMillis =
      dt.map DateTime.timestampMillis := by
  rw [Option.map_map]
  rfl

theorem statusUpdateToProto_normalized (u : JobStatusUpdate) :
    statusUpdateToProto lib u.normalized = statusUpdateToProto lib u := by
  rw [statusUpdateToProto, statusUpdateToProto, JobStatusUpdate.normalized,
    map_timestampMillis_truncated]

theorem logEntryToProto_normalized (e : LogEntry) :
    logEntryToProto lib e.normalized = (logEntryToProto lib e).normalized := by
  obtain ⟨term, index, command⟩ := e
  cases command with
  | submitJob | registerWorker | assignJob | cancelJob | noop => rfl
  | updateJobStatus jobId status executedBy exitCode completedAt =>
    have hsame : statusUpdateToProto lib (JobStatusUpdate.normalized _) = _ :=
      statusUpdateToProto_normalized ⟨jobId, status, executedBy, exitCode, completedAt⟩
    change Proto.LogEntry.mk _ _ (some ⟨some (.updateJobStatus (statusUpdateToProto lib
      (JobStatusUpdate.normalized ⟨jobId, status, executedBy, exitCode, completedAt⟩)))⟩) = _
    rw [hsame]
    rfl
  | batchUpdateJobStatus updates =>
    have hsame : (updates.map JobStatusUpdate.normalized).map (statusUpdateToProto lib) =
        updates.map (statusUpdateToProto lib) := by
      rw [List.map_map]
      exact List.map_congr_left fun u _ => statusUpdateToProto_normalized u
    change Proto.LogEntry.mk _ _ (some ⟨some (.batchUpdateJobStatus
      ((updates.map JobStatusUpdate.normalized).map (statusUpdateToProto lib)))⟩) = _
    rw [hsame]
    rfl

theorem snapshotJobToProto_normalized (job : SnapshotJob) :
    snapshotJobToProto lib job.normalized = (snapshotJobToProto lib job).normalized := by
  have hsame := map_timestampMillis_truncated job.completedAt
  change Proto.SnapshotJob.mk _ _ _ _ _ _ _ ((job.completedAt.map DateTime.truncated).map
    DateTime.timestampMillis) _ = _
  rw [hsame]
  rfl

end Range

/-- Entries and snapshot jobs come back normalised, encode to the same messages again, and none
of them is dropped. -/
theorem wire_round_trip (lib : WireLib) :
    (∀ e : LogEntry, e.InRange lib →
      protoToLogEntry lib (logEntryToProto lib e) = some e.normalized ∧
      (protoToLogEntry lib (logEntryToProto lib e)).map (logEntryToProto lib) =
        some (logEntryToProto lib e).normalized) ∧
    (∀ job : SnapshotJob, job.InRange lib →
      protoToSnapshotJob lib (snapshotJobToProto lib job) = some job.normalized ∧
      (protoToSnapshotJob lib (snapshotJobToProto lib job)).map (snapshotJobToProto lib) =
        some (snapshotJobToProto lib job).normalized) ∧
    ∀ es : List LogEntry, (∀ e ∈ es, e.InRange lib) →
      decodeEntries lib (es.map (logEntryToProto lib)) = es.map LogEntry.normalized := by
  refine ⟨fun e he => ?_, fun job hjob => ?_, fun es hes => ?_⟩
  · have hdecode : protoToLogEntry lib (logEntryToProto lib e) = some e.normalized :=
      LogEntry.onWire_eq he ▸ protoToLogEntry_logEntryToProto lib e
    refine ⟨hdecode, ?_⟩
    rw [hdecode, Option.map_some, logEntryToProto_normalized]
  · have hdecode : protoToSnapshotJob lib (snapshotJobToProto lib job) = some job.normalized :=
      SnapshotJob.onWire_eq hjob ▸ protoToSnapshotJob_snapshotJobToProto lib job
    refine ⟨hdecode, ?_⟩
    rw [hdecode, Option.map_some, snapshotJobToProto_normalized]
  · rw [decodeEntries, filterMap_protoToLogEntry]
    exact List.map_congr_left fun e he => LogEntry.onWire_eq (hes e he)

def unevenSubmission : LogEntry :=
  ⟨1, 1, .submitJob 7 "true" ⟨1500, ⟨250, by decide⟩⟩ (some "")⟩

theorem uneven_submission_normalized :
    protoToLogEntry .standard (logEntryToProto .standard unevenSubmission) =
      some ⟨1, 1, .submitJob 7 "true" ⟨1500, 0⟩ none⟩ :=
  ((wire_round_trip .standard).1 unevenSubmission (by decide)).1

end NomadLite
