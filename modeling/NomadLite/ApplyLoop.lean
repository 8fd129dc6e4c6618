import NomadLite.CommitHistory
import NomadLite.SchedulerLoop

/-!
# The apply loop against the history of commits

The concrete side is the scheduler loop with the RPC handlers between its steps, the
abstract side the history of commits of its node. `Follows` relates the two in every
phase of the loop: what the loop has applied, what it still carries, and which
notification will make it look again.
-/

namespace NomadLite

structure Observed where
  scheduler : Scheduler
  history : CommitHistory

namespace Observed

def start (id : ℕ) (peers : List ℕ) (maxJobs : ℕ) : Observed :=
  ⟨.new id peers maxJobs, .empty⟩

def record (sc sc' : Scheduler) (history : CommitHistory) : SchedulerEvent → CommitHistory
  | .appendEntries .. => history.commit
      (sc'.node.state.entriesBetween sc.node.state.commitIndex sc'.node.state.commitIndex)
  | .installSnapshot .. =>
    if sc.node.state.logOffset < sc'.node.state.logOffset then
      match sc'.node.state.snapshot with
      | some snapshot => history.install snapshot snapshot.lastIncludedIndex
      | none => history
    else history
  | _ => history

def step (lib : WireLib) (o : Observed) (event : SchedulerEvent) : Option Observed :=
  (o.scheduler.step lib event).map fun sc' =>
    ⟨sc', record o.scheduler sc' o.history event⟩

end Observed

namespace Scheduler

/-- The requests a follower receives: entries in order, and snapshots newer than its own. -/
def Receives (lib : WireLib) (sc : Scheduler) : SchedulerEvent → Prop
  | .appendEntries _ _ req => req.WellFormed lib
  | .installSnapshot _ req => sc.node.state.Installs req
  | _ => True

/-- No request takes back what is committed or applied, and no snapshot waits to be rebuilt while
committed entries would be fetched or left behind without a notification. -/
def Orderly (lib : WireLib) (sc : Scheduler) : SchedulerEvent → Prop
  | .appendEntries _ _ req => sc.node.state.KeepsCommitted lib req
  | .installSnapshot _ req => sc.node.state.lastApplied ≤ req.lastIncludedIndex
  | .takePendingSnapshot => sc.node.pendingSnapshot.isSome →
      sc.node.state.lastApplied = sc.node.state.commitIndex ∨ sc.Unseen
  | .getCommittedEntries => sc.node.pendingSnapshot.isSome →
      sc.node.state.lastApplied = sc.node.state.commitIndex
  | _ => True

instance (lib : WireLib) (sc : Scheduler) (event : SchedulerEvent) :
    Decidable (sc.Receives lib event) := by
  unfold Receives
  split <;> infer_instance

instance (lib : WireLib) (sc : Scheduler) (event : SchedulerEvent) :
    Decidable (sc.Orderly lib event) := by
  unfold Orderly
  split <;> infer_instance

def Shows (maxJobs : ℕ) (history : CommitHistory) (sc : Scheduler) : Prop :=
  match sc.phase with
  | .rebuilding snapshot =>
    history.base = some snapshot ∧ sc.node.state.lastApplied = history.baseIndex
  | .applying entries => ∃ done, history.Replays maxJobs done sc.queue ∧
      done ++ entries = history.upTo sc.node.state.lastApplied
  | _ => history.Replays maxJobs (history.upTo sc.node.state.lastApplied) sc.queue

structure Follows (maxJobs : ℕ) (history : CommitHistory) (sc : Scheduler) : Prop where
  node : sc.node.Records history
  shows : sc.node.pendingSnapshot = none → sc.Shows maxJobs history
  capacity : sc.queue.maxJobs = maxJobs
  seen_le : sc.seen ≤ sc.node.commitNotify
  wakes_rebuild : sc.phase ≠ .woken → sc.node.pendingSnapshot.isSome → sc.Unseen
  wakes_apply : sc.phase ≠ .woken → sc.phase ≠ .fetching →
    sc.node.state.lastApplied < sc.node.state.commitIndex → sc.Unseen

end Scheduler

/-! ### The steps of the loop -/

namespace Scheduler

variable {lib : WireLib} {sc : Scheduler} {history : CommitHistory} {maxJobs : ℕ}

theorem Shows.commit (h : sc.Shows maxJobs history)
    (hle : sc.node.state.lastApplied ≤ history.length) {nd : RaftNode}
    (hlast : nd.state.lastApplied = sc.node.state.lastApplied) (entries : List LogEntry) :
    (sc.withNode nd).Shows maxJobs (history.commit entries) := by
  have hup := history.upTo_commit entries hle
  unfold Shows at h ⊢
  simp only [withNode, hlast, hup]
  cases hphase : sc.phase <;> rw [hphase] at h <;> exact h

namespace Follows

theorem start (id : ℕ) (peers : List ℕ) (maxJobs : ℕ) :
    (Scheduler.new id peers maxJobs).Follows maxJobs .empty where
  node := .start id peers
  shows _ := .nil
  capacity := rfl
  seen_le := le_rfl
  wakes_rebuild _ h := by cases h
  wakes_apply _ _ h := absurd h (lt_irrefl 0)

theorem handleAppendEntries (h : sc.Follows maxJobs history) {req : AppendEntriesRequest}
    (hwf : req.WellFormed lib) (hkeep : sc.node.state.KeepsCommitted lib req) (src : ℕ)
    (kind : AppendKind) :
    let sc' := sc.handleAppendEntries lib src kind req
    sc'.Follows maxJobs (history.commit
      (sc'.node.state.entriesBetween sc.node.state.commitIndex sc'.node.state.commitIndex)) := by
  intro sc'
  obtain ⟨hpending, -⟩ := sc.node.handleAppendEntries_frame lib src kind req
  obtain ⟨hmono, hnotify⟩ := sc.node.handleAppendEntries_notifies lib src kind req
  have hkept := RaftState.kept_handleAppendEntries h.node.aligned h.node.commit_le_length hwf hkeep
  rw [← sc.node.handleAppendEntries_state src kind req] at hkept hnotify
  have hunseen : sc.Unseen → sc'.Unseen := fun hlt => lt_of_lt_of_le hlt hmono
  refine ⟨h.node.handleAppendEntries hwf hkeep src kind, fun hnone => ?_, h.capacity,
    h.seen_le.trans hmono, fun hphase hsome => ?_, fun hphase hphase' hlt => ?_⟩
  · exact (h.shows (hpending.symm.trans hnone)).commit
      (h.node.applied_le.trans h.node.length_eq.ge) hkept.lastApplied _
  · exact hunseen (h.wakes_rebuild hphase (hpending ▸ hsome))
  · have hlt : (sc.node.handleAppendEntries lib src kind req).node.state.lastApplied <
        (sc.node.handleAppendEntries lib src kind req).node.state.commitIndex := hlt
    rcases hkept.commit_le.lt_or_eq with hraised | heq
    · exact lt_of_le_of_lt h.seen_le (hnotify (hkept.success hraised) hraised)
    · rw [hkept.lastApplied, ← heq] at hlt
      exact hunseen (h.wakes_apply hphase hphase' hlt)

/-- An installed snapshot makes the queue irrelevant until it is rebuilt. -/
theorem handleInstallSnapshot (h : sc.Follows maxJobs history) {req : InstallSnapshotRequest}
    (hnew : sc.node.state.Installs req)
    (happlied : sc.node.state.lastApplied ≤ req.lastIncludedIndex) (src : ℕ) :
    (sc.handleInstallSnapshot lib src req).Follows maxJobs
      (history.install (req.toSnapshot lib) req.lastIncludedIndex) := by
  obtain ⟨hpending, -, hnotify⟩ :=
    RaftNode.handleInstallSnapshot_queues lib h.node.aligned hnew src
  have hunseen : (sc.handleInstallSnapshot lib src req).Unseen := by
    have := h.seen_le
    change sc.seen < (sc.node.handleInstallSnapshot lib src req).node.commitNotify
    omega
  refine ⟨h.node.handleInstallSnapshot hnew happlied src, fun hnone => ?_, h.capacity, hunseen.le,
    fun _ _ => hunseen, fun _ _ _ => hunseen⟩
  have hnone : (sc.node.handleInstallSnapshot lib src req).node.pendingSnapshot = none := hnone
  rw [hpending] at hnone
  cases hnone

theorem changed (h : sc.Follows maxJobs history) (hphase : sc.phase = .waiting) :
    sc.changed.Follows maxJobs history := by
  refine ⟨h.node, fun hnone => ?_, h.capacity, le_rfl, fun hne => absurd rfl hne,
    fun hne => absurd rfl hne⟩
  have hshows := h.shows hnone
  rw [Shows, hphase] at hshows
  exact hshows

/-- The only wake-up that a taken snapshot may leave behind is one that is still unseen. -/
theorem takePendingSnapshot (h : sc.Follows maxJobs history) (hphase : sc.phase = .woken)
    (hwake : sc.node.pendingSnapshot.isSome →
      sc.node.state.lastApplied = sc.node.state.commitIndex ∨ sc.Unseen) :
    sc.takePendingSnapshot.Follows maxJobs history := by
  cases hpending : sc.node.pendingSnapshot with
  | none =>
    have heq : sc.takePendingSnapshot =
        { sc with node := sc.node.takePendingSnapshot.1, phase := .fetching } := by
      simp only [Scheduler.takePendingSnapshot, RaftNode.takePendingSnapshot, hpending]
    rw [heq]
    refine ⟨h.node.takePendingSnapshot, fun _ => ?_, h.capacity, h.seen_le, fun _ hsome => ?_,
      fun _ hne => absurd rfl hne⟩
    · have hshows := h.shows hpending
      rw [Shows, hphase] at hshows
      exact hshows
    · cases hsome
  | some snapshot =>
    have heq : sc.takePendingSnapshot =
        { sc with node := sc.node.takePendingSnapshot.1, phase := .rebuilding snapshot } := by
      simp only [Scheduler.takePendingSnapshot, RaftNode.takePendingSnapshot, hpending]
    rw [heq]
    refine ⟨h.node.takePendingSnapshot, fun _ => h.node.pending snapshot hpending, h.capacity,
      h.seen_le, fun _ hsome => ?_, fun _ _ hlt => ?_⟩
    · cases hsome
    · have hlt : sc.node.state.lastApplied < sc.node.state.commitIndex := hlt
      rcases hwake (by rw [hpending, Option.isSome_some]) with heq' | hunseen
      · omega
      · exact hunseen

/-- A step that leaves the indices of the node alone loses no notification, unless the loop has
just been woken for it. -/
theorem advance (h : sc.Follows maxJobs history) (hwoken : sc.phase ≠ .woken)
    (hfetching : sc.phase ≠ .fetching) {sc' : Scheduler} (hnode : sc'.node.Records history)
    (hpending : sc'.node.pendingSnapshot = sc.node.pendingSnapshot)
    (happlied : sc'.node.state.lastApplied = sc.node.state.lastApplied)
    (hcommit : sc'.node.state.commitIndex = sc.node.state.commitIndex)
    (hnotify : sc'.node.commitNotify = sc.node.commitNotify) (hseen : sc'.seen = sc.seen)
    (hcapacity : sc'.queue.maxJobs = sc.queue.maxJobs)
    (hshows : sc.Shows maxJobs history → sc'.Shows maxJobs history) :
    sc'.Follows maxJobs history := by
  have hunseen : sc.Unseen → sc'.Unseen := fun hlt => by rwa [Unseen, hseen, hnotify]
  refine ⟨hnode, fun hnone => hshows (h.shows (hpending ▸ hnone)), hcapacity.trans h.capacity, ?_,
    fun _ hsome => hunseen (h.wakes_rebuild hwoken (hpending ▸ hsome)),
    fun _ _ hlt => hunseen (h.wakes_apply hwoken hfetching (happlied ▸ hcommit ▸ hlt))⟩
  rw [hseen, hnotify]
  exact h.seen_le

/-- The rebuilt queue is the bottom of the history, and nothing above it was applied. -/
theorem rebuildFromSnapshot (h : sc.Follows maxJobs history) {snapshot : Snapshot}
    (hphase : sc.phase = .rebuilding snapshot) (now : Clock) :
    (sc.rebuildFromSnapshot now snapshot).Follows maxJobs history := by
  refine h.advance (by simp [hphase]) (by simp [hphase]) h.node rfl rfl rfl rfl rfl
    (sc.queue.rebuildFromSnapshot_maxJobs snapshot) fun hshows => ?_
  rw [Shows, hphase] at hshows
  obtain ⟨hbase, hlast⟩ := hshows
  change history.Replays maxJobs (history.upTo sc.node.state.lastApplied)
    (sc.queue.rebuildFromSnapshot snapshot)
  have hstart : sc.queue.rebuildFromSnapshot snapshot = history.start maxJobs := by
    rw [CommitHistory.start, hbase]
    exact JobQueue.rebuildFromSnapshot_eq_of_maxJobs h.capacity snapshot
  rw [hlast, history.upTo_baseIndex, hstart]
  exact .nil

theorem getCommittedEntries (h : sc.Follows maxJobs history) (hphase : sc.phase = .fetching)
    (hpending : sc.node.pendingSnapshot.isSome →
      sc.node.state.lastApplied = sc.node.state.commitIndex) :
    sc.getCommittedEntries.Follows maxJobs history := by
  obtain ⟨hnode, hlast⟩ := h.node.getCommittedEntries hpending
  refine ⟨hnode, fun hnone => ?_, h.capacity, h.seen_le, fun _ => h.wakes_rebuild ?_,
    fun _ _ hlt => ?_⟩
  · have hshows := h.shows hnone
    rw [Shows, hphase] at hshows
    refine ⟨_, hshows, ?_⟩
    change _ = history.upTo sc.node.getCommittedEntries.node.state.lastApplied
    rw [hlast, h.node.upTo_append_committed]
  · simp [hphase]
  · have hlt : sc.node.getCommittedEntries.node.state.lastApplied < sc.node.state.commitIndex := hlt
    omega

theorem applyEntry (h : sc.Follows maxJobs history) {entry : LogEntry} {rest : List LogEntry}
    (hphase : sc.phase = .applying (entry :: rest)) (now : Clock) :
    (sc.applyEntry now entry rest).Follows maxJobs history := by
  refine h.advance (by simp [hphase]) (by simp [hphase]) h.node rfl rfl rfl rfl rfl
    (sc.queue.applyCommand_maxJobs now.utc entry.command) fun hshows => ?_
  rw [Shows, hphase] at hshows
  obtain ⟨done, hreplays, heq⟩ := hshows
  refine ⟨done ++ [entry], hreplays.concat now.utc entry, ?_⟩
  rw [List.append_assoc]
  exact heq

theorem shows_of_applying_nil (hphase : sc.phase = .applying [])
    (h : sc.Shows maxJobs history) :
    history.Replays maxJobs (history.upTo sc.node.state.lastApplied) sc.queue := by
  rw [Shows, hphase] at h
  obtain ⟨done, hreplays, heq⟩ := h
  rwa [← heq, List.append_nil]

theorem beginCompaction (h : sc.Follows maxJobs history) (hphase : sc.phase = .applying []) :
    sc.beginCompaction.Follows maxJobs history := by
  rw [Scheduler.beginCompaction]
  cases heff : sc.node.beginCompaction with
  | none =>
    exact h.advance (by simp [hphase]) (by simp [hphase]) h.node rfl rfl rfl rfl rfl rfl
      (shows_of_applying_nil hphase)
  | some effect =>
    obtain ⟨hnode, hpending, hstate, hnotify⟩ := h.node.beginCompaction heff
    refine h.advance (by simp [hphase]) (by simp [hphase]) hnode hpending
      (congrArg RaftState.lastApplied hstate) (congrArg RaftState.commitIndex hstate) hnotify rfl rfl
      fun hshows => ?_
    change history.Replays maxJobs (history.upTo effect.node.state.lastApplied) sc.queue
    rw [hstate]
    exact shows_of_applying_nil hphase hshows

theorem finishCompaction (h : sc.Follows maxJobs history) (hphase : sc.phase = .compacting)
    {jobs : List SnapshotJob} {workers : List ℕ} {effect : Effect}
    (heff : sc.node.finishCompaction jobs workers = some effect) :
    { sc with node := effect.node, phase := .waiting }.Follows maxJobs history := by
  obtain ⟨hnode, hpending, happlied, hcommit, hnotify⟩ := h.node.finishCompaction heff
  refine h.advance (by simp [hphase]) (by simp [hphase]) hnode hpending happlied hcommit hnotify rfl
    rfl fun hshows => ?_
  rw [Shows, hphase] at hshows
  change history.Replays maxJobs (history.upTo effect.node.state.lastApplied) sc.queue
  rw [happlied]
  exact hshows

end Follows
end Scheduler
end NomadLite
