import NomadLite.ApplyLoop
import NomadLite.StandardWire

/-!
# What an idle apply loop shows

Every step of the loop and of the handlers between its steps keeps `Follows`, so an
idle loop has applied everything that is committed and its queue is the replay of the
history. Three orders of steps are excluded: a snapshot that is taken while entries
above it are committed and no notification is left, entries fetched while a snapshot
is pending, and a snapshot or a request that goes back behind what was applied or
committed.
-/

namespace NomadLite

open Scheduler

variable {lib : WireLib} {maxJobs : ℕ}

theorem Observed.record_installSnapshot {sc : Scheduler} {history : CommitHistory} (src : ℕ)
    {req : InstallSnapshotRequest} (hal : sc.node.state.Aligned)
    (hnew : sc.node.state.Installs req) :
    record sc (sc.handleInstallSnapshot lib src req) history (.installSnapshot src req) =
      history.install (req.toSnapshot lib) req.lastIncludedIndex := by
  obtain ⟨-, hoff, -, -, hsnap⟩ := hnew.handleInstallSnapshot hal lib
  rw [← sc.node.handleInstallSnapshot_state src req] at hoff hsnap
  have hoff : (sc.handleInstallSnapshot lib src req).node.state.logOffset =
      req.lastIncludedIndex := hoff
  have hsnap : (sc.handleInstallSnapshot lib src req).node.state.snapshot =
      some (req.toSnapshot lib) := hsnap
  simp only [record, hoff, hsnap]
  exact if_pos hnew.2

theorem Scheduler.Follows.step {o o' : Observed} {event : SchedulerEvent}
    (h : o.scheduler.Follows maxJobs o.history) (hreceives : o.scheduler.Receives lib event)
    (horderly : o.scheduler.Orderly lib event) (hstep : o.step lib event = some o') :
    o'.scheduler.Follows maxJobs o'.history := by
  obtain ⟨sc', hsc', rfl⟩ := Option.map_eq_some_iff.mp hstep
  cases Scheduler.stepped_of_step hsc' with
  | appendEntries src kind req => exact h.handleAppendEntries hreceives horderly src kind
  | installSnapshot src req =>
    dsimp only
    rw [Observed.record_installSnapshot src h.node.aligned hreceives]
    exact h.handleInstallSnapshot hreceives horderly src
  | changed hphase => exact h.changed hphase
  | takePendingSnapshot hphase => exact h.takePendingSnapshot hphase horderly
  | rebuildFromSnapshot hphase now => exact h.rebuildFromSnapshot hphase now
  | getCommittedEntries hphase => exact h.getCommittedEntries hphase horderly
  | applyEntry hphase now => exact h.applyEntry hphase now
  | beginCompaction hphase => exact h.beginCompaction hphase
  | finishCompaction hphase hjobs heff => exact h.finishCompaction hphase heff

/-- An idle loop has applied all that is committed: its history ends at `commit_index`, holds the
entries of the log, and replays to the queue. -/
theorem apply_loop_refines_history (lib : WireLib) (id : ℕ) (peers : List ℕ) (maxJobs : ℕ)
    {o : Observed}
    (hreach : Runs.Reach (Observed.step lib)
      (fun o event => o.scheduler.Receives lib event ∧ o.scheduler.Orderly lib event)
      (.start id peers maxJobs) o) (hidle : o.scheduler.Idle) :
    o.scheduler.node.state.lastApplied = o.scheduler.node.state.commitIndex ∧
      o.history.length = o.scheduler.node.state.commitIndex ∧
      o.history.Window o.scheduler.node.state.log o.scheduler.node.state.logOffset ∧
      o.history.Replays maxJobs o.history.entries o.scheduler.queue := by
  have h : o.scheduler.Follows maxJobs o.history :=
    hreach.invariant (P := fun o => o.scheduler.Follows maxJobs o.history)
      (.start id peers maxJobs) fun h hq hs => h.step hq.1 hq.2 hs
  obtain ⟨hphase, hseen, hnone⟩ := hidle
  have hlast : o.scheduler.node.state.lastApplied = o.scheduler.node.state.commitIndex := by
    rcases h.node.applied_le.lt_or_eq with hlt | heq
    · exact absurd (h.wakes_apply (by simp [hphase]) (by simp [hphase]) hlt) hseen
    · exact heq
  have hshows := h.shows hnone
  rw [Scheduler.Shows, hphase] at hshows
  refine ⟨hlast, h.node.length_eq, h.node.window, ?_⟩
  rw [← o.history.upTo_length, h.node.length_eq, ← hlast]
  exact hshows

def snapshotThenSubmit : List SchedulerEvent :=
  [.installSnapshot 1 ⟨1, 1, 1, 1, [], [1]⟩,
    .appendEntries 1 .replication ⟨1, 1, 1, 1,
      [logEntryToProto .standard ⟨1, 2, .submitJob 7 "echo" .epoch none⟩], 2⟩]

theorem apply_loop_refines_after_snapshot :
    ∃ o, Runs.Reach (Observed.step .standard)
        (fun o event => o.scheduler.Receives .standard event ∧
          o.scheduler.Orderly .standard event) (.start 2 [1, 3] 10000) o ∧
      o.scheduler.Idle ∧ o.scheduler.node.state.commitIndex = 2 ∧
      o.scheduler.queue.jobs ≠ ∅ ∧
      o.history.Replays 10000 o.history.entries o.scheduler.queue := by
  obtain ⟨o, hreach, hidle, hcommit, hjobs⟩ := Runs.exists_reach_of_guardedRun
    (Observed.step .standard) (fun o event => o.scheduler.Receives .standard event ∧
      o.scheduler.Orderly .standard event)
    (fun o => o.scheduler.Idle ∧ o.scheduler.node.state.commitIndex = 2 ∧
      o.scheduler.queue.jobs ≠ ∅) (.start 2 [1, 3] 10000)
    (snapshotThenSubmit.take 1 ++ [.changed, .takePendingSnapshot,
      .rebuildFromSnapshot ⟨.epoch, 0⟩] ++ snapshotThenSubmit.drop 1 ++
      [.changed, .takePendingSnapshot, .getCommittedEntries, .applyEntry ⟨.epoch, 0⟩,
        .beginCompaction])
    (by decide +kernel)
  exact ⟨o, hreach, hidle, hcommit, hjobs,
    (apply_loop_refines_history .standard 2 [1, 3] 10000 hreach hidle).2.2.2⟩

/-- Both requests arrive before the loop runs. It is woken once, rebuilds from the snapshot and
goes back to waiting: the committed entry 2 is not applied. -/
theorem committed_entry_not_applied :
    ¬ ∀ (lib : WireLib) (id : ℕ) (peers : List ℕ) (maxJobs : ℕ) (o : Observed),
      Runs.Reach (Observed.step lib) (fun o event => o.scheduler.Receives lib event)
        (.start id peers maxJobs) o → o.scheduler.Idle →
      o.scheduler.node.state.lastApplied = o.scheduler.node.state.commitIndex ∧
        o.history.Replays maxJobs o.history.entries o.scheduler.queue := by
  intro hall
  obtain ⟨o, hreach, hidle, hlast⟩ := Runs.exists_reach_of_guardedRun (Observed.step .standard)
    (fun o event => o.scheduler.Receives .standard event)
    (fun o => o.scheduler.Idle ∧
      o.scheduler.node.state.lastApplied ≠ o.scheduler.node.state.commitIndex)
    (.start 2 [1, 3] 10000)
    (snapshotThenSubmit ++ [.changed, .takePendingSnapshot, .rebuildFromSnapshot ⟨.epoch, 0⟩])
    (by decide +kernel)
  exact hlast (hall .standard 2 [1, 3] 10000 o hreach hidle).1

end NomadLite
