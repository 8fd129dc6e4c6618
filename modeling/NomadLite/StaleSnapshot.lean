import NomadLite.SchedulerLoop
import NomadLite.StandardWire

/-!
# Snapshot requests that are not installed

The handler of the node queues the stored snapshot whenever `log_offset` has reached
the request's index, also when the request itself was stale or refused for its term.
The scheduler loop rebuilds the queue from whatever it finds queued. A duplicate
request therefore undoes every entry applied after the stored snapshot.
-/

namespace NomadLite

theorem RaftState.installSnapshot_of_le {s : RaftState} {snapshot : Snapshot}
    (h : snapshot.lastIncludedIndex ≤ s.logOffset) : s.installSnapshot snapshot = (s, false) :=
  if_pos h

open RaftState in
/-- A request that is not installed leaves the stored snapshot and the offset alone. -/
theorem handleInstallSnapshot_stale (lib : WireLib) (s : RaftState) (req : InstallSnapshotRequest)
    (hstale : req.lastIncludedIndex ≤ s.logOffset ∨ req.term < s.currentTerm) :
    (handleInstallSnapshot lib s req).1.snapshot = s.snapshot ∧
      (handleInstallSnapshot lib s req).1.logOffset = s.logOffset := by
  by_cases hterm : req.term < (s.adoptTerm req.term).currentTerm
  · rw [handleInstallSnapshot, if_pos hterm]
    exact ⟨adoptTerm_snapshot .., adoptTerm_logOffset ..⟩
  · rw [handleInstallSnapshot, if_neg hterm]
    have hle : (req.toSnapshot lib).lastIncludedIndex ≤ (s.adoptTerm req.term).logOffset := by
      rw [adoptTerm_logOffset]
      rcases hstale with hle | hlt
      · exact hle
      · rw [adoptTerm_currentTerm] at hterm
        omega
    dsimp only
    rw [installSnapshot_of_le]
    · exact ⟨adoptTerm_snapshot .., adoptTerm_logOffset ..⟩
    · exact hle

namespace Scheduler

variable (lib : WireLib) (sc : Scheduler) (src : ℕ) (req : InstallSnapshotRequest)

def afterInstallSnapshot (clock : ℕ → Clock) : Scheduler :=
  let sc' := sc.handleInstallSnapshot lib src req
  if sc.node.commitNotify < sc'.node.commitNotify then sc'.onCommit clock else sc'

theorem onCommit_queue (clock : ℕ → Clock) {snapshot : Snapshot}
    (h : sc.node.pendingSnapshot = some snapshot) :
    (sc.onCommit clock).queue = sc.queue.rebuildFromSnapshot snapshot := by
  have htake : sc.changed.takePendingSnapshot =
      { sc.changed with
        node := sc.node.takePendingSnapshot.1
        phase := .rebuilding snapshot } := by
    simp only [takePendingSnapshot, changed, RaftNode.takePendingSnapshot, h]
  rw [sc.onCommit_of_rebuilding clock (congrArg phase htake), htake]
  rfl

/-- A stored snapshot that the request's index does not exceed is queued and announced. -/
theorem handleInstallSnapshot_queued {snapshot : Snapshot}
    (hsnap : (NomadLite.handleInstallSnapshot lib sc.node.state req).1.snapshot = some snapshot)
    (hle : req.lastIncludedIndex ≤
      (NomadLite.handleInstallSnapshot lib sc.node.state req).1.logOffset) :
    (sc.handleInstallSnapshot lib src req).node.pendingSnapshot = some snapshot ∧
      (sc.handleInstallSnapshot lib src req).node.commitNotify = sc.node.commitNotify + 1 := by
  simp only [handleInstallSnapshot, withNode, RaftNode.handleInstallSnapshot]
  rw [if_pos ⟨by rw [hsnap, Option.isSome_some], hle⟩]
  exact ⟨hsnap, rfl⟩

theorem handleInstallSnapshot_silent
    (h : (NomadLite.handleInstallSnapshot lib sc.node.state req).1.snapshot = none ∨
      (NomadLite.handleInstallSnapshot lib sc.node.state req).1.logOffset <
        req.lastIncludedIndex) :
    (sc.handleInstallSnapshot lib src req).node.commitNotify = sc.node.commitNotify := by
  simp only [handleInstallSnapshot, withNode, RaftNode.handleInstallSnapshot]
  rw [if_neg]
  · rfl
  · rintro ⟨hsome, hle⟩
    rcases h with hnone | hlt
    · rw [hnone] at hsome
      cases hsome
    · omega

/-- The queue is kept exactly when the offset has not reached the request, or the queue shows
what the stored snapshot describes. -/
theorem stale_snapshot_keeps_queue_iff (clock : ℕ → Clock)
    (hstale : req.lastIncludedIndex ≤ sc.node.state.logOffset ∨
      req.term < sc.node.state.currentTerm) :
    (sc.afterInstallSnapshot lib src req clock).queue = sc.queue ↔
      sc.node.state.logOffset < req.lastIncludedIndex ∨
        ∀ snapshot, sc.node.state.snapshot = some snapshot →
          sc.queue.Shows (snapshot.jobs.map Job.fromSnapshot) := by
  obtain ⟨hsnap, hoff⟩ := handleInstallSnapshot_stale lib sc.node.state req hstale
  by_cases hlt : sc.node.state.logOffset < req.lastIncludedIndex
  · have hsilent := sc.handleInstallSnapshot_silent lib src req (Or.inr (hoff ▸ hlt))
    rw [afterInstallSnapshot, if_neg (by omega)]
    exact ⟨fun _ => Or.inl hlt, fun _ => rfl⟩
  · cases hstored : sc.node.state.snapshot with
    | none =>
      have hsilent := sc.handleInstallSnapshot_silent lib src req (Or.inl (hsnap.trans hstored))
      rw [afterInstallSnapshot, if_neg (by omega)]
      refine ⟨fun _ => Or.inr fun snapshot h => ?_, fun _ => rfl⟩
      cases h
    | some snapshot =>
      obtain ⟨hpending, hnotify⟩ := sc.handleInstallSnapshot_queued lib src req
        (hsnap.trans hstored) (hoff ▸ not_lt.mp hlt)
      rw [afterInstallSnapshot, if_pos (by omega), onCommit_queue _ clock hpending]
      refine (sc.queue.rebuildFromSnapshot_eq_self_iff snapshot).trans ⟨fun h => ?_, fun h => ?_⟩
      · refine Or.inr fun snapshot' heq => ?_
        rwa [← Option.some.inj heq]
      · rcases h with hlt' | hshows
        · exact absurd hlt' hlt
        · exact hshows snapshot rfl

def firstSnapshot : InstallSnapshotRequest := ⟨1, 1, 1, 1, [], [1]⟩

def runningSeven : SnapshotJob := ⟨7, "echo", .running, 1, 0, none, .epoch, none, none⟩

def secondSnapshot : InstallSnapshotRequest :=
  ⟨1, 1, 2, 1, [snapshotJobToProto .standard runningSeven], [1]⟩

/-- A second copy of a snapshot changes nothing before further entries are applied. -/
theorem stale_snapshot_keeps_queue_unchanged :
    ∃ sc, Runs.Reach (step .standard) (fun _ _ => True) (Scheduler.new 2 [1, 3] 10000) sc ∧
      sc.queue.getJob 7 = some (.fromSnapshot runningSeven) ∧
      (sc.afterInstallSnapshot .standard 1 secondSnapshot fun _ => ⟨.epoch, 0⟩).queue =
        sc.queue := by
  obtain ⟨sc, hreach, hoff, hjobs, hqueue⟩ := Runs.exists_reach_of_guardedRun (step .standard)
    (fun _ _ => True)
    (fun sc => sc.node.state.logOffset = 2 ∧
      sc.node.state.snapshot.map Snapshot.jobs = some [runningSeven] ∧
      sc.queue = (JobQueue.withCapacity 10000).insertJob (.fromSnapshot runningSeven))
    (Scheduler.new 2 [1, 3] 10000)
    [.installSnapshot 1 secondSnapshot, .changed, .takePendingSnapshot,
      .rebuildFromSnapshot ⟨.epoch, 0⟩]
    (by decide +kernel)
  refine ⟨sc, hreach, by rw [hqueue]; rfl, (sc.stale_snapshot_keeps_queue_iff .standard 1
    secondSnapshot _ (Or.inl hoff.ge)).mpr (Or.inr fun snapshot hsnap => ?_)⟩
  rw [hsnap, Option.map_some] at hjobs
  rw [Option.some.inj hjobs, hqueue]
  refine ⟨1, ⟨le_rfl, fun i hi => ?_, Or.inl rfl⟩, rfl⟩
  obtain rfl := Nat.lt_one_iff.mp hi
  decide

/-- The leader re-sends a snapshot that was installed; the job of entry 2, applied in between, is
gone from the queue. -/
theorem stale_snapshot_rolls_back :
    ¬ ∀ (lib : WireLib) (sc : Scheduler) (src : ℕ) (req : InstallSnapshotRequest)
      (clock : ℕ → Clock),
      req.lastIncludedIndex ≤ sc.node.state.logOffset ∨ req.term < sc.node.state.currentTerm →
      Runs.Reach (step lib) (fun _ _ => True) (Scheduler.new 2 [1, 3] 10000) sc → sc.Idle →
      (sc.afterInstallSnapshot lib src req clock).queue = sc.queue := by
  intro hall
  obtain ⟨sc, hreach, hidle, hoff, hqueue⟩ := Runs.exists_reach_of_guardedRun (step .standard)
    (fun _ _ => True)
    (fun sc => sc.Idle ∧ sc.node.state.logOffset = 1 ∧
      (sc.afterInstallSnapshot .standard 1 firstSnapshot fun _ => ⟨.epoch, 0⟩).queue ≠ sc.queue)
    (Scheduler.new 2 [1, 3] 10000)
    [.installSnapshot 1 firstSnapshot, .changed, .takePendingSnapshot,
      .rebuildFromSnapshot ⟨.epoch, 0⟩,
      .appendEntries 1 .replication ⟨1, 1, 1, 1,
        [logEntryToProto .standard ⟨1, 2, .submitJob 7 "echo" .epoch none⟩], 2⟩,
      .changed, .takePendingSnapshot, .getCommittedEntries, .applyEntry ⟨.epoch, 0⟩,
      .beginCompaction]
    (by decide +kernel)
  exact hqueue (hall .standard sc 1 firstSnapshot _ (Or.inl hoff.ge) hreach hidle)

end Scheduler
end NomadLite
