import NomadLite.RaftLog

/-!
# The wire codec of log entries and snapshot jobs

The protobuf records, the two hand-written conversions of `rpc.rs` in each
direction, and what a log entry looks like once it has been sent: `onWire` cuts
every timestamp to the millisecond and drops an empty image. The `uuid` and
`chrono` crates enter as a `WireLib`.
-/

namespace NomadLite

/-- What the codec takes from the `uuid` and `chrono` crates: printing and parsing of
identifiers, and the range of milliseconds that `timestamp_millis_opt` accepts. -/
structure WireLib where
  uuidToString : Uuid → String
  parseStr : String → Option Uuid
  parseStr_uuidToString : ∀ u, parseStr (uuidToString u) = some u
  minMillis : ℤ
  maxMillis : ℤ
  epoch_inRange : minMillis ≤ 0 ∧ 0 ≤ maxMillis

namespace WireLib

variable (lib : WireLib)

theorem uuidToString_injective : Function.Injective lib.uuidToString := by
  intro u v huv
  have hparse := congrArg lib.parseStr huv
  rw [lib.parseStr_uuidToString, lib.parseStr_uuidToString] at hparse
  exact Option.some.inj hparse

def timestampMillisOpt (ms : ℤ) : Option DateTime :=
  if lib.minMillis ≤ ms ∧ ms ≤ lib.maxMillis then some (.ofMillis ms) else none

def msToDatetime (ms : ℤ) : DateTime := (lib.timestampMillisOpt ms).getD DateTime.epoch

theorem msToDatetime_idem (ms : ℤ) :
    lib.msToDatetime (lib.msToDatetime ms).timestampMillis = lib.msToDatetime ms := by
  by_cases h : lib.minMillis ≤ ms ∧ ms ≤ lib.maxMillis
  · simp [msToDatetime, timestampMillisOpt, DateTime.timestampMillis, DateTime.ofMillis, h]
  · simp [msToDatetime, timestampMillisOpt, DateTime.timestampMillis, DateTime.ofMillis,
      DateTime.epoch, h, lib.epoch_inRange]

end WireLib

namespace Proto

inductive JobStatus where
  | unspecified
  | pending
  | running
  | completed
  | failed
  | cancelled
deriving DecidableEq

namespace JobStatus

/-- `JobStatus::try_from(i).unwrap_or(Unspecified)`, which is also what the getter does. -/
def ofI32 : ℤ → JobStatus
  | 1 => .pending
  | 2 => .running
  | 3 => .completed
  | 4 => .failed
  | 5 => .cancelled
  | _ => .unspecified

def toI32 : JobStatus → ℤ
  | .unspecified => 0
  | .pending => 1
  | .running => 2
  | .completed => 3
  | .failed => 4
  | .cancelled => 5

@[simp] theorem ofI32_toI32 (s : JobStatus) : ofI32 s.toI32 = s := by cases s <;> rfl

end JobStatus

/-- Both `UpdateJobStatusCommand` and the elements of a batch. -/
structure JobStatusUpdate where
  jobId : String
  status : ℤ
  executedBy : ℕ
  exitCode : Option ℤ
  completedAtMs : Option ℤ
deriving DecidableEq

inductive CommandType where
  | submitJob (jobId : String) (command : String) (createdAtMs : ℤ) (image : Option String)
  | updateJobStatus (update : JobStatusUpdate)
  | registerWorker (workerId : ℕ)
  | batchUpdateJobStatus (updates : List JobStatusUpdate)
  | assignJob (jobId : String) (workerId : ℕ)
  | cancelJob (jobId : String)
deriving DecidableEq

structure Command where
  commandType : Option CommandType
deriving DecidableEq

structure LogEntry where
  term : ℕ
  index : ℕ
  command : Option Command
deriving DecidableEq

structure SnapshotJob where
  jobId : String
  command : String
  status : ℤ
  assignedWorker : ℕ
  executedBy : ℕ
  exitCode : Option ℤ
  createdAtMs : ℤ
  completedAtMs : Option ℤ
  image : Option String
deriving DecidableEq

end Proto

def protoStatusToInternal : Proto.JobStatus → JobStatus
  | .pending => .pending
  | .running => .running
  | .completed => .completed
  | .failed => .failed
  | .cancelled => .cancelled
  | .unspecified => .pending

def internalStatusToProto : JobStatus → Proto.JobStatus
  | .pending => .pending
  | .running => .running
  | .completed => .completed
  | .failed => .failed
  | .cancelled => .cancelled

@[simp] theorem protoStatusToInternal_internalStatusToProto (s : JobStatus) :
    protoStatusToInternal (internalStatusToProto s) = s := by cases s <;> rfl

theorem Option.filter_ne_empty {image : Option String} (h : image ≠ some "") :
    image.filter (· ≠ "") = image := by
  cases image with
  | none => rfl
  | some image =>
    rw [Option.filter_some, if_pos]
    exact decide_eq_true fun heq => h (congrArg some heq)

section Codec

variable (lib : WireLib)

def protoToStatusUpdate (u : Proto.JobStatusUpdate) : Option JobStatusUpdate :=
  (lib.parseStr u.jobId).map fun jobId =>
    ⟨jobId, protoStatusToInternal (.ofI32 u.status), u.executedBy, u.exitCode,
      u.completedAtMs.map lib.msToDatetime⟩

def statusUpdateToProto (u : JobStatusUpdate) : Proto.JobStatusUpdate :=
  ⟨lib.uuidToString u.jobId, (internalStatusToProto u.status).toI32, u.executedBy, u.exitCode,
    u.completedAt.map DateTime.timestampMillis⟩

def protoToCommand : Option Proto.Command → Option Command
  | none => some .noop
  | some ⟨none⟩ => some .noop
  | some ⟨some (.submitJob jobId command createdAtMs image)⟩ =>
    (lib.parseStr jobId).map fun id =>
      .submitJob id command (lib.msToDatetime createdAtMs) (image.filter (· ≠ ""))
  | some ⟨some (.updateJobStatus update)⟩ =>
    (protoToStatusUpdate lib update).map fun u =>
      .updateJobStatus u.jobId u.status u.executedBy u.exitCode u.completedAt
  | some ⟨some (.registerWorker workerId)⟩ => some (.registerWorker workerId)
  | some ⟨some (.batchUpdateJobStatus updates)⟩ =>
    (updates.mapM (protoToStatusUpdate lib)).map .batchUpdateJobStatus
  | some ⟨some (.assignJob jobId workerId)⟩ =>
    (lib.parseStr jobId).map fun id => .assignJob id workerId
  | some ⟨some (.cancelJob jobId)⟩ => (lib.parseStr jobId).map .cancelJob

def protoToLogEntry (proto : Proto.LogEntry) : Option LogEntry :=
  (protoToCommand lib proto.command).map fun command => ⟨proto.term, proto.index, command⟩

def commandToProto : Command → Option Proto.Command
  | .submitJob jobId command createdAt image =>
    some ⟨some (.submitJob (lib.uuidToString jobId) command createdAt.timestampMillis image)⟩
  | .updateJobStatus jobId status executedBy exitCode completedAt =>
    some ⟨some (.updateJobStatus
      (statusUpdateToProto lib ⟨jobId, status, executedBy, exitCode, completedAt⟩))⟩
  | .batchUpdateJobStatus updates =>
    some ⟨some (.batchUpdateJobStatus (updates.map (statusUpdateToProto lib)))⟩
  | .registerWorker workerId => some ⟨some (.registerWorker workerId)⟩
  | .assignJob jobId workerId => some ⟨some (.assignJob (lib.uuidToString jobId) workerId)⟩
  | .cancelJob jobId => some ⟨some (.cancelJob (lib.uuidToString jobId))⟩
  | .noop => none

def logEntryToProto (entry : LogEntry) : Proto.LogEntry :=
  ⟨entry.term, entry.index, commandToProto lib entry.command⟩

def protoToSnapshotJob (proto : Proto.SnapshotJob) : Option SnapshotJob :=
  (lib.parseStr proto.jobId).map fun id =>
    { id := id
      command := proto.command
      status := protoStatusToInternal (.ofI32 proto.status)
      assignedWorker := proto.assignedWorker
      executedBy := proto.executedBy
      exitCode := proto.exitCode
      createdAt := lib.msToDatetime proto.createdAtMs
      completedAt := proto.completedAtMs.map lib.msToDatetime
      image := proto.image.filter (· ≠ "") }

def snapshotJobToProto (job : SnapshotJob) : Proto.SnapshotJob where
  jobId := lib.uuidToString job.id
  command := job.command
  status := (internalStatusToProto job.status).toI32
  assignedWorker := job.assignedWorker
  executedBy := job.executedBy
  exitCode := job.exitCode
  createdAtMs := job.createdAt.timestampMillis
  completedAtMs := job.completedAt.map DateTime.timestampMillis
  image := job.image

def DateTime.onWire (dt : DateTime) : DateTime := lib.msToDatetime dt.timestampMillis

theorem DateTime.onWire_onWire (dt : DateTime) :
    DateTime.onWire lib (DateTime.onWire lib dt) = DateTime.onWire lib dt :=
  lib.msToDatetime_idem dt.timestampMillis

def JobStatusUpdate.onWire (u : JobStatusUpdate) : JobStatusUpdate :=
  { u with completedAt := u.completedAt.map (DateTime.onWire lib) }

def Command.onWire : Command → Command
  | .submitJob jobId command createdAt image =>
    .submitJob jobId command (createdAt.onWire lib) (image.filter (· ≠ ""))
  | .updateJobStatus jobId status executedBy exitCode completedAt =>
    .updateJobStatus jobId status executedBy exitCode (completedAt.map (DateTime.onWire lib))
  | .batchUpdateJobStatus updates => .batchUpdateJobStatus (updates.map (JobStatusUpdate.onWire lib))
  | .registerWorker workerId => .registerWorker workerId
  | .assignJob jobId workerId => .assignJob jobId workerId
  | .cancelJob jobId => .cancelJob jobId
  | .noop => .noop

def LogEntry.onWire (e : LogEntry) : LogEntry := { e with command := e.command.onWire lib }

@[simp] theorem LogEntry.onWire_term (e : LogEntry) : (e.onWire lib).term = e.term := rfl

@[simp] theorem LogEntry.onWire_index (e : LogEntry) : (e.onWire lib).index = e.index := rfl

theorem JobStatusUpdate.onWire_onWire (u : JobStatusUpdate) :
    (u.onWire lib).onWire lib = u.onWire lib := by
  simp only [JobStatusUpdate.onWire, Option.map_map]
  congr 2
  exact funext (DateTime.onWire_onWire lib)

theorem Command.onWire_onWire (c : Command) : (c.onWire lib).onWire lib = c.onWire lib := by
  have hd : DateTime.onWire lib ∘ DateTime.onWire lib = DateTime.onWire lib :=
    funext (DateTime.onWire_onWire lib)
  have hu : JobStatusUpdate.onWire lib ∘ JobStatusUpdate.onWire lib = JobStatusUpdate.onWire lib :=
    funext (JobStatusUpdate.onWire_onWire lib)
  cases c with
  | submitJob jobId command createdAt image =>
    simp only [Command.onWire, DateTime.onWire_onWire, Option.filter_filter, Bool.and_self]
  | updateJobStatus jobId status executedBy exitCode completedAt =>
    simp only [Command.onWire, Option.map_map, hd]
  | batchUpdateJobStatus updates => simp only [Command.onWire, List.map_map, hu]
  | registerWorker workerId => rfl
  | assignJob jobId workerId => rfl
  | cancelJob jobId => rfl
  | noop => rfl

@[simp] theorem LogEntry.onWire_onWire (e : LogEntry) : (e.onWire lib).onWire lib = e.onWire lib := by
  simp only [LogEntry.onWire, Command.onWire_onWire]

theorem protoToStatusUpdate_statusUpdateToProto (u : JobStatusUpdate) :
    protoToStatusUpdate lib (statusUpdateToProto lib u) = some (u.onWire lib) := by
  simp only [protoToStatusUpdate, statusUpdateToProto, lib.parseStr_uuidToString, Option.map_some,
    Proto.JobStatus.ofI32_toI32, protoStatusToInternal_internalStatusToProto, Option.map_map]
  rfl

theorem mapM_protoToStatusUpdate (updates : List JobStatusUpdate) :
    (updates.map (statusUpdateToProto lib)).mapM (protoToStatusUpdate lib) =
      some (updates.map (JobStatusUpdate.onWire lib)) := by
  induction updates with
  | nil => rfl
  | cons u us ih =>
    simp only [List.map_cons, List.mapM_cons, protoToStatusUpdate_statusUpdateToProto, ih]
    rfl

/-- No entry a leader sends is dropped as malformed: it arrives as its `onWire` form. -/
theorem protoToLogEntry_logEntryToProto (e : LogEntry) :
    protoToLogEntry lib (logEntryToProto lib e) = some (e.onWire lib) := by
  obtain ⟨term, index, command⟩ := e
  have hc : protoToCommand lib (commandToProto lib command) = some (command.onWire lib) := by
    cases command with
    | submitJob jobId command createdAt image =>
      simp only [commandToProto, protoToCommand, lib.parseStr_uuidToString, Option.map_some]
      rfl
    | updateJobStatus jobId status executedBy exitCode completedAt =>
      simp only [commandToProto, protoToCommand, protoToStatusUpdate_statusUpdateToProto,
        Option.map_some]
      rfl
    | batchUpdateJobStatus updates =>
      simp only [commandToProto, protoToCommand, mapM_protoToStatusUpdate, Option.map_some]
      rfl
    | registerWorker workerId => rfl
    | assignJob jobId workerId =>
      simp only [commandToProto, protoToCommand, lib.parseStr_uuidToString, Option.map_some]
      rfl
    | cancelJob jobId =>
      simp only [commandToProto, protoToCommand, lib.parseStr_uuidToString, Option.map_some]
      rfl
    | noop => rfl
  simp only [protoToLogEntry, logEntryToProto, hc, Option.map_some]
  rfl

theorem filterMap_protoToLogEntry (es : List LogEntry) :
    (es.map (logEntryToProto lib)).filterMap (protoToLogEntry lib) =
      es.map (LogEntry.onWire lib) := by
  rw [List.filterMap_map, ← List.filterMap_eq_map]
  congr 1
  exact funext (protoToLogEntry_logEntryToProto lib)

def SnapshotJob.onWire (job : SnapshotJob) : SnapshotJob :=
  { job with
    createdAt := job.createdAt.onWire lib
    completedAt := job.completedAt.map (DateTime.onWire lib)
    image := job.image.filter (· ≠ "") }

theorem protoToSnapshotJob_snapshotJobToProto (job : SnapshotJob) :
    protoToSnapshotJob lib (snapshotJobToProto lib job) = some (job.onWire lib) := by
  simp only [protoToSnapshotJob, snapshotJobToProto, lib.parseStr_uuidToString, Option.map_some,
    Proto.JobStatus.ofI32_toI32, protoStatusToInternal_internalStatusToProto, Option.map_map]
  rfl

end Codec
end NomadLite
