import Mathlib.Data.Finmap

/-!
# Jobs as the scheduler and the snapshots store them

Identifiers, clock readings and counters keep the fields of the Rust records. A
`DateTime` is split at the millisecond, because every conversion of the wire
codec reads or writes whole milliseconds.
-/

namespace NomadLite

abbrev Uuid := BitVec 128

/-- Whole milliseconds since the epoch and the nanoseconds beyond them. -/
structure DateTime where
  millis : ℤ
  nanos : Fin 1000000
deriving DecidableEq

def DateTime.ofMillis (millis : ℤ) : DateTime := ⟨millis, 0⟩

/-- `DateTime::default()` is the Unix epoch. -/
def DateTime.epoch : DateTime := ⟨0, 0⟩

def DateTime.timestampMillis (dt : DateTime) : ℤ := dt.millis

def DateTime.le (a b : DateTime) : Prop :=
  a.millis < b.millis ∨ (a.millis = b.millis ∧ a.nanos ≤ b.nanos)

instance (a b : DateTime) : Decidable (a.le b) := inferInstanceAs (Decidable (_ ∨ _))

def DateTime.subSeconds (dt : DateTime) (seconds : ℕ) : DateTime :=
  { dt with millis := dt.millis - seconds * 1000 }

inductive JobStatus where
  | pending
  | running
  | completed
  | failed
  | cancelled
deriving DecidableEq

def JobStatus.isActive : JobStatus → Bool
  | .pending | .running => true
  | .completed | .failed | .cancelled => false

structure Job where
  id : Uuid
  command : String
  image : Option String
  status : JobStatus
  assignedWorker : Option ℕ
  executedBy : Option ℕ
  exitCode : Option ℤ
  output : Option String
  error : Option String
  createdAt : DateTime
  completedAt : Option DateTime
deriving DecidableEq

/-- A job captured in a snapshot: output and error stay on the executing node. -/
structure SnapshotJob where
  id : Uuid
  command : String
  status : JobStatus
  assignedWorker : ℕ
  executedBy : ℕ
  exitCode : Option ℤ
  createdAt : DateTime
  completedAt : Option DateTime
  image : Option String
deriving DecidableEq

namespace Job

def withId (id : Uuid) (command : String) (createdAt : DateTime) : Job where
  id := id
  command := command
  image := none
  status := .pending
  assignedWorker := none
  executedBy := none
  exitCode := none
  output := none
  error := none
  createdAt := createdAt
  completedAt := none

/-- Worker id `0` is the snapshot's way of writing that there is none. -/
def fromSnapshot (snap : SnapshotJob) : Job where
  id := snap.id
  command := snap.command
  image := snap.image
  status := snap.status
  assignedWorker := if snap.assignedWorker = 0 then none else some snap.assignedWorker
  executedBy := if snap.executedBy = 0 then none else some snap.executedBy
  exitCode := snap.exitCode
  output := none
  error := none
  createdAt := snap.createdAt
  completedAt := snap.completedAt

end Job
end NomadLite
