import NomadLite.CommitKept
import NomadLite.JobQueue
import NomadLite.NodeTransition

/-!
# The history of commits behind a node

A `CommitHistory` grows when a request raises `commit_index` and is rebased when a newer
snapshot is installed. A node `Records` it when its log is a window on it and its
indices, its pending snapshot and a running compaction fit. The accesses to the node
keep this relation as long as no request takes back what is committed.
-/

namespace NomadLite

abbrev CommitHistory := CommittedLog Snapshot LogEntry

def CommitHistory.start (history : CommitHistory) (maxJobs : ℕ) : JobQueue :=
  match history.base with
  | none => .withCapacity maxJobs
  | some snapshot => (JobQueue.withCapacity maxJobs).rebuildFromSnapshot snapshot

def CommitHistory.Replays (history : CommitHistory) (maxJobs : ℕ) (entries : List LogEntry)
    (q : JobQueue) : Prop :=
  Applies (fun now q entry => q.applyCommand now entry.command) (history.start maxJobs) entries q

structure RaftNode.Records (history : CommitHistory) (nd : RaftNode) : Prop where
  aligned : nd.state.Aligned
  window : history.Window nd.state.log nd.state.logOffset
  length_eq : history.length = nd.state.commitIndex
  offset_le : nd.state.logOffset ≤ nd.state.lastApplied
  applied_le : nd.state.lastApplied ≤ nd.state.commitIndex
  compaction_le : ∀ c, nd.compaction = some c → c.lastApplied ≤ nd.state.lastApplied
  pending : ∀ snapshot, nd.pendingSnapshot = some snapshot →
    history.base = some snapshot ∧ nd.state.lastApplied = history.baseIndex

namespace RaftNode

variable {lib : WireLib} {nd : RaftNode} {history : CommitHistory}

theorem handleAppendEntries_frame (lib : WireLib) (nd : RaftNode) (src : ℕ) (kind : AppendKind)
    (req : AppendEntriesRequest) :
    (nd.handleAppendEntries lib src kind req).node.pendingSnapshot = nd.pendingSnapshot ∧
      (nd.handleAppendEntries lib src kind req).node.compaction = nd.compaction := by
  simp only [handleAppendEntries]
  split_ifs <;> exact ⟨rfl, rfl⟩

theorem handleAppendEntries_notifies (lib : WireLib) (nd : RaftNode) (src : ℕ) (kind : AppendKind)
    (req : AppendEntriesRequest) :
    nd.commitNotify ≤ (nd.handleAppendEntries lib src kind req).node.commitNotify ∧
      ((NomadLite.handleAppendEntries lib nd.state req).2.success = true →
        nd.state.commitIndex < (NomadLite.handleAppendEntries lib nd.state req).1.commitIndex →
        nd.commitNotify < (nd.handleAppendEntries lib src kind req).node.commitNotify) := by
  simp only [handleAppendEntries]
  split_ifs with hraised
  · exact ⟨Nat.le_succ _, fun _ _ => Nat.lt_succ_self _⟩
  · exact ⟨le_rfl, fun hsuccess hlt => absurd ⟨hsuccess, hlt⟩ hraised⟩

theorem handleInstallSnapshot_queues (lib : WireLib) {req : InstallSnapshotRequest}
    (hal : nd.state.Aligned) (h : nd.state.Installs req) (src : ℕ) :
    (nd.handleInstallSnapshot lib src req).node.pendingSnapshot = some (req.toSnapshot lib) ∧
      (nd.handleInstallSnapshot lib src req).node.compaction = nd.compaction ∧
      (nd.handleInstallSnapshot lib src req).node.commitNotify = nd.commitNotify + 1 := by
  obtain ⟨-, hoff, -, -, hsnap⟩ := h.handleInstallSnapshot hal lib
  simp only [handleInstallSnapshot]
  rw [if_pos ⟨by rw [hsnap, Option.isSome_some], hoff.ge⟩]
  exact ⟨hsnap, rfl, rfl⟩

namespace Records

theorem start (id : ℕ) (peers : List ℕ) : (RaftNode.new id peers).Records .empty where
  aligned := .nil 0
  window := CommittedLog.window_empty
  length_eq := rfl
  offset_le := le_rfl
  applied_le := le_rfl
  compaction_le _ h := by cases h
  pending _ h := by cases h

theorem commit_le_length (h : nd.Records history) :
    nd.state.commitIndex ≤ nd.state.logOffset + nd.state.log.length :=
  h.length_eq ▸ h.window.length_le

theorem handleAppendEntries (h : nd.Records history) {req : AppendEntriesRequest}
    (hwf : req.WellFormed lib) (hkeep : nd.state.KeepsCommitted lib req) (src : ℕ)
    (kind : AppendKind) :
    let nd' := (nd.handleAppendEntries lib src kind req).node
    nd'.Records (history.commit
      (nd'.state.entriesBetween nd.state.commitIndex nd'.state.commitIndex)) := by
  intro nd'
  obtain ⟨hpending, hcompaction⟩ := nd.handleAppendEntries_frame lib src kind req
  have hstate : nd'.state = (NomadLite.handleAppendEntries lib nd.state req).1 :=
    nd.handleAppendEntries_state src kind req
  have hkept := RaftState.kept_handleAppendEntries h.aligned h.commit_le_length hwf hkeep
  have haligned := (h.aligned.handleAppendEntries hwf).mpr hkeep.startsAboveOffset
  rw [← hstate] at hkept haligned
  have hlen := h.length_eq
  obtain ⟨hwindow, hlength⟩ := h.window.commit nd'.state.log (n := nd'.state.commitIndex)
    (hlen ▸ hkept.commit_le) (hkept.logOffset ▸ hkept.commit_le_length) (hlen ▸ hkept.take_eq)
  rw [hlen] at hwindow hlength
  rw [RaftState.entriesBetween, hkept.logOffset]
  refine ⟨haligned, hkept.logOffset ▸ hwindow, hlength, ?_, ?_, ?_, ?_⟩
  · rw [hkept.logOffset, hkept.lastApplied]
    exact h.offset_le
  · rw [hkept.lastApplied]
    exact h.applied_le.trans hkept.commit_le
  · intro c hc
    rw [hkept.lastApplied]
    exact h.compaction_le c (hcompaction ▸ hc)
  · intro snapshot hsnap
    rw [hkept.lastApplied]
    exact h.pending snapshot (hpending ▸ hsnap)

theorem handleInstallSnapshot (h : nd.Records history) {req : InstallSnapshotRequest}
    (hnew : nd.state.Installs req) (happlied : nd.state.lastApplied ≤ req.lastIncludedIndex)
    (src : ℕ) :
    (nd.handleInstallSnapshot lib src req).node.Records
      (history.install (req.toSnapshot lib) req.lastIncludedIndex) := by
  obtain ⟨hpending, hcompaction, -⟩ := handleInstallSnapshot_queues lib h.aligned hnew src
  obtain ⟨hlog, hoff, hcommit, hlast, -⟩ := hnew.handleInstallSnapshot h.aligned lib
  have hbase := h.window.base_le
  have haligned : (NomadLite.handleInstallSnapshot lib nd.state req).1.Aligned :=
    h.aligned.handleInstallSnapshot req
  rw [← nd.handleInstallSnapshot_state src req] at hlog hoff hcommit hlast haligned
  rw [max_eq_right happlied] at hlast
  have hlength := history.length_install (req.toSnapshot lib) (hbase.trans hnew.2.le)
  refine ⟨haligned, ?_, ?_, ?_, ?_, ?_, ?_⟩
  · rw [hlog, hoff]
    exact h.window.install (req.toSnapshot lib) hnew.2.le
  · rw [hlength, hcommit, h.length_eq]
  · rw [hoff, hlast]
  · rw [hlast, hcommit]
    exact le_max_right _ _
  · intro c hc
    rw [hlast]
    exact (h.compaction_le c (hcompaction ▸ hc)).trans happlied
  · intro snapshot hsnap
    rw [hpending] at hsnap
    exact ⟨hsnap, hlast⟩

theorem takePendingSnapshot (h : nd.Records history) :
    nd.takePendingSnapshot.1.Records history :=
  { h with pending := fun _ hsnap => by cases hsnap }

/-- With a snapshot pending there must be nothing to fetch. -/
theorem getCommittedEntries (h : nd.Records history)
    (hpending : nd.pendingSnapshot.isSome → nd.state.lastApplied = nd.state.commitIndex) :
    nd.getCommittedEntries.node.Records history ∧
      nd.getCommittedEntries.node.state.lastApplied = nd.state.commitIndex := by
  have hlast : nd.getCommittedEntries.node.state.lastApplied = nd.state.commitIndex :=
    max_eq_right h.applied_le
  refine ⟨⟨h.aligned, h.window, h.length_eq, ?_, hlast.le, ?_, ?_⟩, hlast⟩
  · rw [hlast]
    exact h.offset_le.trans h.applied_le
  · intro c hc
    rw [hlast]
    exact (h.compaction_le c hc).trans h.applied_le
  · intro snapshot hsnap
    have hsome : nd.pendingSnapshot = some snapshot := hsnap
    rw [hlast, ← hpending (by rw [hsome, Option.isSome_some])]
    exact h.pending snapshot hsome

/-- What `get_committed_entries` hands out completes what was applied. -/
theorem upTo_append_committed (h : nd.Records history) :
    history.upTo nd.state.lastApplied ++ nd.state.getCommittedEntries.2 =
      history.upTo nd.state.commitIndex := by
  rw [RaftState.getCommittedEntries_eq h.offset_le h.applied_le h.commit_le_length,
    RaftState.entriesBetween, ← h.length_eq]
  exact h.window.upTo_append_slice h.offset_le

theorem beginCompaction (h : nd.Records history) {effect : Effect}
    (heff : nd.beginCompaction = some effect) :
    effect.node.Records history ∧ effect.node.pendingSnapshot = nd.pendingSnapshot ∧
      effect.node.state = nd.state ∧ effect.node.commitNotify = nd.commitNotify := by
  rw [RaftNode.beginCompaction] at heff
  split_ifs at heff
  obtain rfl := Option.some.inj heff
  refine ⟨{ h with compaction_le := fun c hc => ?_ }, rfl, rfl, rfl⟩
  obtain rfl := Option.some.inj hc
  exact le_rfl

theorem finishCompaction (h : nd.Records history) {jobs : List SnapshotJob} {workers : List ℕ}
    {effect : Effect} (heff : nd.finishCompaction jobs workers = some effect) :
    effect.node.Records history ∧ effect.node.pendingSnapshot = nd.pendingSnapshot ∧
      effect.node.state.lastApplied = nd.state.lastApplied ∧
      effect.node.state.commitIndex = nd.state.commitIndex ∧
      effect.node.commitNotify = nd.commitNotify := by
  obtain ⟨c, hc, rfl⟩ := Option.map_eq_some_iff.mp heff
  have hle := h.compaction_le c hc
  have haligned := h.aligned.compactLog ⟨c.lastApplied, c.lastAppliedTerm, jobs, workers⟩
  by_cases hold : c.lastApplied ≤ nd.state.logOffset
  · have hsame : nd.state.compactLog ⟨c.lastApplied, c.lastAppliedTerm, jobs, workers⟩ =
        nd.state := if_pos hold
    dsimp only
    rw [hsame]
    exact ⟨{ h with compaction_le := fun c hc => by cases hc }, rfl, rfl, rfl, rfl⟩
  · have hcompact : nd.state.compactLog ⟨c.lastApplied, c.lastAppliedTerm, jobs, workers⟩ =
        { nd.state with
          log := nd.state.log.drop (c.lastApplied - nd.state.logOffset)
          logOffset := c.lastApplied
          snapshot := some ⟨c.lastApplied, c.lastAppliedTerm, jobs, workers⟩ } := if_neg hold
    dsimp only
    rw [hcompact] at haligned ⊢
    have hwindow := h.window.compact (not_le.mp hold).le
      (h.length_eq ▸ hle.trans h.applied_le)
    refine ⟨⟨haligned, hwindow, h.length_eq, hle, h.applied_le, fun c hc => ?_, h.pending⟩,
      rfl, rfl, rfl, rfl⟩
    cases hc

end Records
end RaftNode

end NomadLite
