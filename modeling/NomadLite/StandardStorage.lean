import NomadLite.StandardWire
import NomadLite.StorageBytes

/-!
# The encodings of the storage

Votes, entries and snapshots in the JSON that `serde` derives from their types:
structures are objects with the fields in order, the variants of an enumeration go by
their names. A moment is the number of nanoseconds since the epoch here, where the
`chrono` crate writes a date.
-/

namespace NomadLite

open TextCodec TextCodec.Codec BigEndian

/-! ### Fields -/

def uuidCodec : Codec Uuid := string.filterMap Hex.print Hex.parse Hex.parse_print

def DateTime.timestampNanos (t : DateTime) : ℤ := t.millis * 1000000 + t.nanos

theorem nanosOfMilli_lt (n : ℤ) : (n % 1000000).toNat < 1000000 := by omega

def DateTime.ofNanos (n : ℤ) : DateTime :=
  ⟨n / 1000000, ⟨(n % 1000000).toNat, nanosOfMilli_lt n⟩⟩

theorem DateTime.ofNanos_timestampNanos (t : DateTime) : ofNanos t.timestampNanos = t := by
  obtain ⟨millis, nanos, hnanos⟩ := t
  have hdiv : (millis * 1000000 + nanos) / 1000000 = millis := by omega
  have hmod : ((millis * 1000000 + (nanos : ℤ)) % 1000000).toNat = nanos := by omega
  simp only [ofNanos, timestampNanos, hdiv, hmod]

def dateTimeCodec : Codec DateTime :=
  int.filterMap DateTime.timestampNanos (fun n => some (.ofNanos n)) fun t =>
    congrArg some t.ofNanos_timestampNanos

def JobStatus.variantName : JobStatus → String
  | .pending => "Pending"
  | .running => "Running"
  | .completed => "Completed"
  | .failed => "Failed"
  | .cancelled => "Cancelled"

def jobStatusCodec : Codec JobStatus :=
  enumeration JobStatus.variantName [.pending, .running, .completed, .failed, .cancelled]
    fun status => by cases status <;> rfl

theorem int_startsOther_n (n : ℤ) : StartsOther 'n' (int.write n) :=
  int_startsOther (by decide) (by decide) n

def optionNatCodec : Codec (Option ℕ) := nat.option (nat_startsOther (by decide))

def exitCodeCodec : Codec (Option ℤ) := int.option int_startsOther_n

def completedAtCodec : Codec (Option DateTime) :=
  dateTimeCodec.option fun t => int_startsOther_n t.timestampNanos

def imageCodec : Codec (Option String) := string.option fun _ => ⟨quote, _, rfl, by decide⟩

/-! ### Commands -/

def jobStatusUpdateCodec : Codec JobStatusUpdate :=
  (object ((field "job_id" uuidCodec).pair ((field "status" jobStatusCodec).pair
    ((field "executed_by" nat).pair ((field "exit_code" exitCodeCodec).pair
      (field "completed_at" completedAtCodec)))))).filterMap
    (fun u => (u.jobId, u.status, u.executedBy, u.exitCode, u.completedAt))
    (fun p => some ⟨p.1, p.2.1, p.2.2.1, p.2.2.2.1, p.2.2.2.2⟩) fun _ => rfl

inductive CommandVariant where
  | submitJob
  | updateJobStatus
  | batchUpdateJobStatus
  | registerWorker
  | assignJob
  | cancelJob
deriving DecidableEq

namespace CommandVariant

def name : CommandVariant → String
  | .submitJob => "SubmitJob"
  | .updateJobStatus => "UpdateJobStatus"
  | .batchUpdateJobStatus => "BatchUpdateJobStatus"
  | .registerWorker => "RegisterWorker"
  | .assignJob => "AssignJob"
  | .cancelJob => "CancelJob"

def codec : Codec CommandVariant :=
  enumeration name [.submitJob, .updateJobStatus, .batchUpdateJobStatus, .registerWorker,
    .assignJob, .cancelJob] fun v => by cases v <;> rfl

def Fields : CommandVariant → Type
  | .submitJob => Uuid × String × DateTime × Option String
  | .updateJobStatus => JobStatusUpdate
  | .batchUpdateJobStatus => List JobStatusUpdate
  | .registerWorker => ℕ
  | .assignJob => Uuid × ℕ
  | .cancelJob => Uuid

def fields : (v : CommandVariant) → Codec v.Fields
  | .submitJob => object ((field "job_id" uuidCodec).pair ((field "command" string).pair
      ((field "created_at" dateTimeCodec).pair (field "image" imageCodec))))
  | .updateJobStatus => jobStatusUpdateCodec
  | .batchUpdateJobStatus => object (field "updates" (jobStatusUpdateCodec.array fun _ =>
      ⟨openBrace, _, rfl, by decide⟩))
  | .registerWorker => object (field "worker_id" nat)
  | .assignJob => object ((field "job_id" uuidCodec).pair (field "worker_id" nat))
  | .cancelJob => object (field "job_id" uuidCodec)

end CommandVariant

def Command.toVariant : Command → Unit ⊕ (Σ v : CommandVariant, v.Fields)
  | .submitJob jobId command createdAt image =>
    .inr ⟨.submitJob, (jobId, command, createdAt, image)⟩
  | .updateJobStatus jobId status executedBy exitCode completedAt =>
    .inr ⟨.updateJobStatus, (⟨jobId, status, executedBy, exitCode, completedAt⟩ : JobStatusUpdate)⟩
  | .batchUpdateJobStatus updates => .inr ⟨.batchUpdateJobStatus, updates⟩
  | .registerWorker workerId => .inr ⟨.registerWorker, workerId⟩
  | .assignJob jobId workerId => .inr ⟨.assignJob, (jobId, workerId)⟩
  | .cancelJob jobId => .inr ⟨.cancelJob, jobId⟩
  | .noop => .inl ()

def Command.ofVariant : Unit ⊕ (Σ v : CommandVariant, v.Fields) → Command
  | .inl _ => .noop
  | .inr ⟨.submitJob, fields⟩ => .submitJob fields.1 fields.2.1 fields.2.2.1 fields.2.2.2
  | .inr ⟨.updateJobStatus, (u : JobStatusUpdate)⟩ =>
    .updateJobStatus u.jobId u.status u.executedBy u.exitCode u.completedAt
  | .inr ⟨.batchUpdateJobStatus, updates⟩ => .batchUpdateJobStatus updates
  | .inr ⟨.registerWorker, workerId⟩ => .registerWorker workerId
  | .inr ⟨.assignJob, fields⟩ => .assignJob fields.1 fields.2
  | .inr ⟨.cancelJob, jobId⟩ => .cancelJob jobId

/-- A variant without fields is a string and not an object. -/
def commandCodec : Codec Command :=
  ((literal (string.write "Noop")).orElse (variant CommandVariant.codec CommandVariant.fields)
    fun _ _ => rfl).filterMap Command.toVariant (fun v => some (.ofVariant v)) fun command => by
      cases command <;> rfl

def logEntryCodec : Codec LogEntry :=
  (object ((field "term" nat).pair ((field "index" nat).pair
    (field "command" commandCodec)))).filterMap (fun e => (e.term, e.index, e.command))
    (fun p => some ⟨p.1, p.2.1, p.2.2⟩) fun _ => rfl

example : String.ofList (logEntryCodec.write ⟨1, 2, .registerWorker 3⟩) =
    "\x7b\"term\":1,\"index\":2," ++
      "\"command\":\x7b\"RegisterWorker\":\x7b\"worker_id\":3\x7d\x7d\x7d" := by
  decide +kernel

/-! ### Snapshots -/

def snapshotJobCodec : Codec SnapshotJob :=
  (object ((field "id" uuidCodec).pair ((field "command" string).pair
    ((field "status" jobStatusCodec).pair ((field "assigned_worker" nat).pair
      ((field "executed_by" nat).pair ((field "exit_code" exitCodeCodec).pair
        ((field "created_at" dateTimeCodec).pair ((field "completed_at" completedAtCodec).pair
          (field "image" imageCodec)))))))))).filterMap
    (fun j => (j.id, j.command, j.status, j.assignedWorker, j.executedBy, j.exitCode, j.createdAt,
      j.completedAt, j.image))
    (fun p => some ⟨p.1, p.2.1, p.2.2.1, p.2.2.2.1, p.2.2.2.2.1, p.2.2.2.2.2.1,
      p.2.2.2.2.2.2.1, p.2.2.2.2.2.2.2.1, p.2.2.2.2.2.2.2.2⟩) fun _ => rfl

def snapshotCodec : Codec Snapshot :=
  (object ((field "last_included_index" nat).pair ((field "last_included_term" nat).pair
    ((field "jobs" (snapshotJobCodec.array fun _ => ⟨openBrace, _, rfl, by decide⟩)).pair
      (field "workers" (nat.array (nat_startsOther (by decide)))))))).filterMap
    (fun s => (s.lastIncludedIndex, s.lastIncludedTerm, s.jobs, s.workers))
    (fun p => some ⟨p.1, p.2.1, p.2.2.1, p.2.2.2⟩) fun _ => rfl

/-! ### Bytes -/

def utf8Bytes (text : Text) : Bytes :=
  (String.ofList text).toByteArray.data.toList.map UInt8.toFin

def utf8Text (bytes : Bytes) : Option Text :=
  (ByteArray.mk (bytes.map UInt8.ofFin).toArray).utf8Decode?.map Array.toList

theorem utf8Text_utf8Bytes (text : Text) : utf8Text (utf8Bytes text) = some text := by
  have hbytes : (utf8Bytes text).map UInt8.ofFin = text.utf8Encode.data.toList := by
    rw [utf8Bytes, List.map_map, String.toByteArray_ofList]
    exact List.map_id' _
  rw [utf8Text, hbytes, Array.toArray_toList, List.utf8Decode?_utf8Encode, Option.map_some]

def Json.ofCodec {α : Type} (c : Codec α) : Json α where
  toVec a := utf8Bytes (c.write a)
  fromSlice bytes := (utf8Text bytes).bind c.readAll
  fromSlice_toVec a := by rw [utf8Text_utf8Bytes, Option.bind_some, readAll_write]

def StorageLib.standard : StorageLib :=
  ⟨.ofCodec optionNatCodec, .ofCodec logEntryCodec, .ofCodec snapshotCodec⟩

end NomadLite
