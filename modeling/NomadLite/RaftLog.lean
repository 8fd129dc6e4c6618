import NomadLite.Job

/-!
# Replicated commands, log entries and snapshots
-/

namespace NomadLite

structure JobStatusUpdate where
  jobId : Uuid
  status : JobStatus
  executedBy : ℕ
  exitCode : Option ℤ
  completedAt : Option DateTime
deriving DecidableEq

inductive Command where
  | submitJob (jobId : Uuid) (command : String) (createdAt : DateTime) (image : Option String)
  | updateJobStatus (jobId : Uuid) (status : JobStatus) (executedBy : ℕ) (exitCode : Option ℤ)
      (completedAt : Option DateTime)
  | batchUpdateJobStatus (updates : List JobStatusUpdate)
  | registerWorker (workerId : ℕ)
  | assignJob (jobId : Uuid) (workerId : ℕ)
  | cancelJob (jobId : Uuid)
  | noop
deriving DecidableEq

structure LogEntry where
  term : ℕ
  index : ℕ
  command : Command
deriving DecidableEq

structure Snapshot where
  lastIncludedIndex : ℕ
  lastIncludedTerm : ℕ
  jobs : List SnapshotJob
  workers : List ℕ
deriving DecidableEq

end NomadLite
