import NomadLite.CommitKept
import NomadLite.IndexPointers
import NomadLite.Runs

/-!
# Delivery to the state machine

The apply loop takes what `get_committed_entries` returns and nothing else. Between two
calls the log grows, loses an uncommitted suffix, is compacted behind `last_applied` or is
overtaken by a snapshot. What is committed and not yet applied stays where it is through
all of this, so that the loop sees every entry once and in order, except for those that a
snapshot has replaced.
-/

namespace NomadLite

inductive LogCall where
  | appendEntry (command : Command)
  | truncateAndAppend (fromIndex : ℕ) (entries : List LogEntry)
  | raiseCommit (index : ℕ)
  | getCommittedEntries
  | compactLog (snapshot : Snapshot)
  | installSnapshot (snapshot : Snapshot)

namespace LogCall

def exec (s : RaftState) : LogCall → RaftState
  | .appendEntry command => s.appendEntry command
  | .truncateAndAppend fromIndex entries => s.truncateAndAppend fromIndex entries
  | .raiseCommit index => { s with commitIndex := index }
  | .getCommittedEntries => s.getCommittedEntries.1
  | .compactLog snapshot => s.compactLog snapshot
  | .installSnapshot snapshot => (s.installSnapshot snapshot).1

/-- Nothing committed is cut off, the commit index stays inside the log, and compaction happens at
`last_applied`. -/
def Allowed (s : RaftState) : LogCall → Prop
  | .appendEntry _ => True
  | .truncateAndAppend fromIndex entries =>
    s.commitIndex < fromIndex ∧ fromIndex ≤ s.lastLogIndex + 1 ∧
      IndexedFrom (fromIndex - 1) entries
  | .raiseCommit index => s.commitIndex ≤ index ∧ index ≤ s.lastLogIndex
  | .getCommittedEntries => True
  | .compactLog snapshot => snapshot.lastIncludedIndex = s.lastApplied
  | .installSnapshot _ => True

instance (s : RaftState) : (call : LogCall) → Decidable (call.Allowed s)
  | .appendEntry _ => .isTrue trivial
  | .truncateAndAppend _ _ => inferInstanceAs (Decidable (_ ∧ _ ∧ _))
  | .raiseCommit _ => inferInstanceAs (Decidable (_ ∧ _))
  | .getCommittedEntries => .isTrue trivial
  | .compactLog _ => inferInstanceAs (Decidable (_ = _))
  | .installSnapshot _ => .isTrue trivial

def returned (s : RaftState) : LogCall → List LogEntry
  | .getCommittedEntries => s.getCommittedEntries.2
  | _ => []

def installed (s : RaftState) : LogCall → List ℕ
  | .installSnapshot snapshot =>
    if (s.installSnapshot snapshot).2 then [snapshot.lastIncludedIndex] else []
  | _ => []

end LogCall

/-- The state with the record of a run: everything returned so far, what the log held at each
index when the commit index passed it, and the snapshots installed. -/
structure Delivery where
  state : RaftState
  returned : List LogEntry
  committed : List (ℕ × Option LogEntry)
  installed : List ℕ

namespace Delivery

def start : Delivery := ⟨.new, [], [], []⟩

def step (d : Delivery) (call : LogCall) : Option Delivery :=
  some
    { state := call.exec d.state
      returned := d.returned ++ call.returned d.state
      committed := d.committed ++
        (List.range' (d.state.commitIndex + 1)
          ((call.exec d.state).commitIndex - d.state.commitIndex)).map
            fun i => (i, d.state.getEntry i)
      installed := d.installed ++ call.installed d.state }

end Delivery

namespace RaftState

structure Ordered (s : RaftState) : Prop where
  aligned : s.Aligned
  pointers : s.PointersOrdered

structure KeepsUnapplied (s s' : RaftState) (installed : List ℕ) : Prop where
  applied_le : s.lastApplied ≤ s'.lastApplied
  commit_le : s.commitIndex ≤ s'.commitIndex
  kept : ∀ i, s'.lastApplied < i → i ≤ s'.commitIndex → s'.getEntry i = s.getEntry i
  covered : ∀ i, s.lastApplied < i → i ≤ s'.lastApplied → ∃ k ∈ installed, i ≤ k

variable {s s' : RaftState}

theorem KeepsUnapplied.of_eq (happlied : s'.lastApplied = s.lastApplied)
    (hcommit : s.commitIndex ≤ s'.commitIndex)
    (hkept : ∀ i, s.lastApplied < i → i ≤ s'.commitIndex → s'.getEntry i = s.getEntry i) :
    s.KeepsUnapplied s' [] where
  applied_le := happlied.ge
  commit_le := hcommit
  kept i hlow := hkept i (happlied ▸ hlow)
  covered i hlow hhigh := absurd hhigh (by omega)

theorem getEntry_of_take {n i : ℕ} (hoff : s'.logOffset = s.logOffset)
    (htake : s'.log.take n = s.log.take n) (hi : i ≤ s.logOffset + n) :
    s'.getEntry i = s.getEntry i := by
  rw [getEntry, getEntry, hoff]
  split_ifs with hlow
  · rfl
  · have hsame := congrArg (·[i - s.logOffset - 1]?) htake
    simpa only [List.getElem?_take_of_lt (show i - s.logOffset - 1 < n by omega)] using hsame

namespace Ordered

theorem appendEntry (h : s.Ordered) (command : Command) :
    (s.appendEntry command).Ordered ∧ s.KeepsUnapplied (s.appendEntry command) [] := by
  have hpointers := h.pointers
  have hlast := h.aligned.lastLogIndex
  refine ⟨⟨h.aligned.appendEntry command, (hpointers.appendEntry command).1⟩, ?_⟩
  refine .of_eq rfl le_rfl fun i _ hhigh => getEntry_of_take rfl
    (List.take_left' rfl |>.trans List.take_length.symm) ?_
  have hcommit := hpointers.commit_le
  exact hlast ▸ (show i ≤ s.commitIndex from hhigh).trans hcommit

theorem truncateAndAppend (h : s.Ordered) {fromIndex : ℕ} {entries : List LogEntry}
    (hcommit : s.commitIndex < fromIndex) (hlast : fromIndex ≤ s.lastLogIndex + 1)
    (hentries : IndexedFrom (fromIndex - 1) entries) :
    (s.truncateAndAppend fromIndex entries).Ordered ∧
      s.KeepsUnapplied (s.truncateAndAppend fromIndex entries) [] := by
  obtain ⟨hoff, happlied, -⟩ := h.pointers
  rw [h.aligned.lastLogIndex] at hlast
  have heq : s.truncateAndAppend fromIndex entries =
      { s with log := s.log.take (fromIndex - s.logOffset - 1) ++ entries } := if_neg (by omega)
  have hlength : (s.log.take (fromIndex - s.logOffset - 1)).length =
      fromIndex - s.logOffset - 1 := List.length_take_of_le (by omega)
  have haligned : (s.truncateAndAppend fromIndex entries).Aligned := by
    rw [heq]
    refine (IndexedFrom.take h.aligned _).append ?_
    rw [hlength, show s.logOffset + (fromIndex - s.logOffset - 1) = fromIndex - 1 by omega]
    exact hentries
  have hlastIndex := haligned.lastLogIndex
  rw [heq] at haligned hlastIndex ⊢
  refine ⟨⟨haligned, hoff, happlied, ?_⟩, .of_eq rfl le_rfl fun i _ hhigh => ?_⟩
  · rw [hlastIndex, List.length_append, hlength]
    change s.commitIndex ≤ s.logOffset + _
    omega
  · refine getEntry_of_take rfl (List.take_left' hlength) ?_
    have hhigh' : i ≤ s.commitIndex := hhigh
    omega

theorem raiseCommit (h : s.Ordered) {index : ℕ} (hcommit : s.commitIndex ≤ index)
    (hlast : index ≤ s.lastLogIndex) :
    ({ s with commitIndex := index } : RaftState).Ordered ∧
      s.KeepsUnapplied { s with commitIndex := index } [] :=
  ⟨⟨h.aligned, h.pointers.offset_le, h.pointers.applied_le.trans hcommit, hlast⟩,
    .of_eq rfl hcommit fun _ _ _ => rfl⟩

theorem compactLog (h : s.Ordered) {snapshot : Snapshot}
    (hindex : snapshot.lastIncludedIndex = s.lastApplied) :
    (s.compactLog snapshot).Ordered ∧ s.KeepsUnapplied (s.compactLog snapshot) [] := by
  have hkept : ∀ i, s.lastApplied < i → (s.compactLog snapshot).getEntry i = s.getEntry i :=
    fun i hlow => s.getEntry_compactLog (hindex ▸ hlow)
  have hpointers := h.pointers
  have hlast := h.aligned.lastLogIndex
  have haligned := h.aligned.compactLog snapshot
  have hordered : (s.compactLog snapshot).PointersOrdered := by
    obtain ⟨index, term, jobs, workers⟩ := snapshot
    obtain rfl : index = s.lastApplied := hindex
    refine ((hpointers.compactLog term jobs workers).mpr fun hlength => ?_).1
    have := hpointers.commit_le
    have := hpointers.offset_le
    omega
  obtain ⟨log, logOffset, snap, hcompact⟩ := s.compactLog_eq snapshot
  refine ⟨⟨haligned, hordered⟩, .of_eq ?_ ?_ fun i hlow _ => hkept i hlow⟩
  · rw [hcompact]
  · rw [hcompact]

theorem installSnapshot (h : s.Ordered) (snapshot : Snapshot) :
    (s.installSnapshot snapshot).1.Ordered ∧ s.KeepsUnapplied (s.installSnapshot snapshot).1
      (if (s.installSnapshot snapshot).2 then [snapshot.lastIncludedIndex] else []) := by
  obtain ⟨hpointers, hcommit⟩ := h.pointers.installSnapshot snapshot
  refine ⟨⟨h.aligned.installSnapshot snapshot, hpointers⟩, ?_⟩
  by_cases hle : snapshot.lastIncludedIndex ≤ s.logOffset
  · have hsame : s.installSnapshot snapshot = (s, false) := if_pos hle
    rw [hsame]
    exact .of_eq rfl le_rfl fun _ _ _ => rfl
  · have hnew : (s.installSnapshot snapshot).2 = true ∧
        (s.installSnapshot snapshot).1.lastApplied =
          max s.lastApplied snapshot.lastIncludedIndex := by
      rw [RaftState.installSnapshot, if_neg hle]
      exact ⟨rfl, rfl⟩
    rw [if_pos hnew.1]
    refine ⟨hnew.2 ▸ le_max_left _ _, hcommit, fun i hlow _ => ?_, fun i hlow hhigh => ?_⟩
    · refine h.aligned.getEntry_installSnapshot ?_
      omega
    · refine ⟨_, List.mem_singleton_self _, ?_⟩
      omega

end Ordered

/-- The entries returned are those between the two pointers, at their indices. -/
theorem Ordered.map_index_returned (h : s.Ordered) :
    s.getCommittedEntries.2.map LogEntry.index =
      List.range' (s.lastApplied + 1) (s.commitIndex - s.lastApplied) := by
  obtain ⟨hoff, happlied, hcommit⟩ := h.pointers
  rw [h.aligned.lastLogIndex] at hcommit
  have hindexed : IndexedFrom s.lastApplied (s.entriesBetween s.lastApplied s.commitIndex) := by
    have hslice := ((IndexedFrom.drop h.aligned (s.lastApplied - s.logOffset)).take
      (s.commitIndex - s.lastApplied))
    rwa [Nat.add_sub_cancel' hoff] at hslice
  rw [getCommittedEntries_eq hoff happlied hcommit, IndexedFrom.iff_map_index.mp hindexed,
    entriesBetween, List.length_take, List.length_drop, min_eq_left (by omega)]

theorem Ordered.mem_returned (h : s.Ordered) {e : LogEntry} (he : e ∈ s.getCommittedEntries.2) :
    s.lastApplied < e.index ∧ e.index ≤ s.commitIndex ∧ s.getEntry e.index = some e := by
  obtain ⟨i, hi, hget⟩ := List.mem_filterMap.mp he
  obtain rfl := h.aligned.getEntry_index hget
  rw [List.mem_range'_1] at hi
  exact ⟨by omega, by omega, hget⟩

end RaftState

namespace LogCall

/-- Every call keeps the pointers in order; what is still to be applied stays or is returned. -/
theorem Allowed.exec {s : RaftState} {call : LogCall} (hallowed : call.Allowed s) (h : s.Ordered) :
    (call.exec s).Ordered ∧ ((call = .getCommittedEntries) ∨
      (call.returned s = [] ∧ s.KeepsUnapplied (call.exec s) (call.installed s))) := by
  cases call with
  | appendEntry command => exact (h.appendEntry command).imp_right fun hkeeps => .inr ⟨rfl, hkeeps⟩
  | truncateAndAppend fromIndex entries =>
    obtain ⟨hcommit, hlast, hentries⟩ := hallowed
    exact (h.truncateAndAppend hcommit hlast hentries).imp_right fun hkeeps => .inr ⟨rfl, hkeeps⟩
  | raiseCommit index =>
    exact (h.raiseCommit hallowed.1 hallowed.2).imp_right fun hkeeps => .inr ⟨rfl, hkeeps⟩
  | getCommittedEntries =>
    exact ⟨⟨h.aligned, h.pointers.getCommittedEntries.1⟩, .inl rfl⟩
  | compactLog snapshot => exact (h.compactLog hallowed).imp_right fun hkeeps => .inr ⟨rfl, hkeeps⟩
  | installSnapshot snapshot =>
    exact (h.installSnapshot snapshot).imp_right fun hkeeps => .inr ⟨rfl, hkeeps⟩

end LogCall

/-- The record agrees with the state: what has been returned is behind `last_applied` and was
committed, and what is committed and not applied is still in the log. -/
structure Delivered (d : Delivery) : Prop where
  ordered : d.state.Ordered
  increasing : (d.returned.map LogEntry.index).Pairwise (· < ·)
  returned_le : ∀ e ∈ d.returned, e.index ≤ d.state.lastApplied
  returned_committed : ∀ e ∈ d.returned, (e.index, some e) ∈ d.committed
  committed_le : ∀ r ∈ d.committed, r.1 ≤ d.state.commitIndex
  committed_once : (d.committed.map Prod.fst).Nodup
  unapplied : ∀ i, d.state.lastApplied < i → i ≤ d.state.commitIndex →
    (i, d.state.getEntry i) ∈ d.committed
  applied : ∀ i, 0 < i → i ≤ d.state.lastApplied →
    (∃ e ∈ d.returned, e.index = i) ∨ ∃ k ∈ d.installed, i ≤ k

namespace Delivered

variable {d d' : Delivery} {call : LogCall}

theorem start : Delivered .start where
  ordered := ⟨IndexedFrom.nil 0, le_rfl, le_rfl, le_rfl⟩
  increasing := .nil
  returned_le := by simp [Delivery.start]
  returned_committed := by simp [Delivery.start]
  committed_le := by simp [Delivery.start]
  committed_once := .nil
  unapplied i hlow hhigh := absurd (hlow.trans_le hhigh) (lt_irrefl _)
  applied i hpos hle := absurd (hpos.trans_le hle) (lt_irrefl _)

theorem records (h : Delivered d) (commit : ℕ) :
    ((d.committed ++ (List.range' (d.state.commitIndex + 1) (commit - d.state.commitIndex)).map
      fun i => (i, d.state.getEntry i)).map Prod.fst).Nodup ∧
    (d.state.commitIndex ≤ commit → ∀ r ∈ d.committed ++
      (List.range' (d.state.commitIndex + 1) (commit - d.state.commitIndex)).map
        fun i => (i, d.state.getEntry i), r.1 ≤ commit) := by
  constructor
  · rw [List.map_append, List.map_map, List.nodup_append]
    refine ⟨h.committed_once, ?_, fun i hi j hj => ?_⟩
    · exact (List.map_id _).symm ▸ List.nodup_range'
    · obtain ⟨r, hr, rfl⟩ := List.mem_map.mp hi
      obtain ⟨k, hk, rfl⟩ := List.mem_map.mp hj
      have hle := h.committed_le r hr
      rw [List.mem_range'_1] at hk
      change r.1 ≠ k
      omega
  · intro hle r hr
    rcases List.mem_append.mp hr with hold | hnew
    · exact (h.committed_le r hold).trans hle
    · obtain ⟨k, hk, rfl⟩ := List.mem_map.mp hnew
      rw [List.mem_range'_1] at hk
      change k ≤ commit
      omega

theorem quiet (h : Delivered d) {s : RaftState} {installed : List ℕ} (hs : s.Ordered)
    (hkeeps : d.state.KeepsUnapplied s installed) :
    Delivered ⟨s, d.returned, d.committed ++
      (List.range' (d.state.commitIndex + 1) (s.commitIndex - d.state.commitIndex)).map
        (fun i => (i, d.state.getEntry i)), d.installed ++ installed⟩ where
  ordered := hs
  increasing := h.increasing
  returned_le e he := (h.returned_le e he).trans hkeeps.applied_le
  returned_committed e he := List.mem_append_left _ (h.returned_committed e he)
  committed_le := (h.records s.commitIndex).2 hkeeps.commit_le
  committed_once := (h.records s.commitIndex).1
  unapplied i hlow hhigh := by
    change (i, s.getEntry i) ∈ _
    rw [hkeeps.kept i hlow hhigh]
    rcases le_or_gt i d.state.commitIndex with hold | hnew
    · exact List.mem_append_left _ (h.unapplied i (hkeeps.applied_le.trans_lt hlow) hold)
    · refine List.mem_append_right _ (List.mem_map.mpr ⟨i, List.mem_range'_1.mpr ?_, rfl⟩)
      have hhigh' : i ≤ s.commitIndex := hhigh
      omega
  applied i hpos hle := by
    rcases le_or_gt i d.state.lastApplied with hold | hnew
    · refine (h.applied i hpos hold).imp_right fun hcovered => ?_
      exact hcovered.imp fun k hk => ⟨List.mem_append_left _ hk.1, hk.2⟩
    · exact .inr ((hkeeps.covered i hnew hle).imp fun k hk => ⟨List.mem_append_right _ hk.1, hk.2⟩)

theorem take (h : Delivered d) (hs : d.state.getCommittedEntries.1.Ordered) :
    Delivered ⟨d.state.getCommittedEntries.1, d.returned ++ d.state.getCommittedEntries.2,
      d.committed, d.installed⟩ := by
  have hindices := h.ordered.map_index_returned
  have happlied : d.state.getCommittedEntries.1.lastApplied = d.state.commitIndex :=
    max_eq_right h.ordered.pointers.applied_le
  refine
    { ordered := hs
      increasing := ?_
      returned_le := fun e he => ?_
      returned_committed := fun e he => ?_
      committed_le := h.committed_le
      committed_once := h.committed_once
      unapplied := fun i hlow hhigh => ?_
      applied := fun i hpos hle => ?_ }
  · rw [List.map_append, List.pairwise_append, hindices]
    refine ⟨h.increasing, List.pairwise_lt_range', fun i hi j hj => ?_⟩
    obtain ⟨e, he, rfl⟩ := List.mem_map.mp hi
    have := h.returned_le e he
    rw [List.mem_range'_1] at hj
    omega
  · change e.index ≤ d.state.getCommittedEntries.1.lastApplied
    rw [happlied]
    rcases List.mem_append.mp he with hold | hnew
    · exact (h.returned_le e hold).trans h.ordered.pointers.applied_le
    · exact (h.ordered.mem_returned hnew).2.1
  · rcases List.mem_append.mp he with hold | hnew
    · exact h.returned_committed e hold
    · obtain ⟨hlow, hhigh, hget⟩ := h.ordered.mem_returned hnew
      exact hget ▸ h.unapplied e.index hlow hhigh
  · change d.state.getCommittedEntries.1.lastApplied < i at hlow
    exact absurd (happlied ▸ hlow) (not_lt.mpr hhigh)
  · change i ≤ d.state.getCommittedEntries.1.lastApplied at hle
    rcases le_or_gt i d.state.lastApplied with hold | hnew
    · refine (h.applied i hpos hold).imp_left fun hreturned => ?_
      exact hreturned.imp fun e he => ⟨List.mem_append_left _ he.1, he.2⟩
    · have hmem : i ∈ d.state.getCommittedEntries.2.map LogEntry.index := by
        rw [hindices, List.mem_range'_1]
        omega
      obtain ⟨e, he, rfl⟩ := List.mem_map.mp hmem
      exact .inl ⟨e, List.mem_append_right _ he, rfl⟩

theorem step (h : Delivered d) (hallowed : call.Allowed d.state) (hstep : d.step call = some d') :
    Delivered d' := by
  obtain ⟨hordered, htake | ⟨hnone, hkeeps⟩⟩ := hallowed.exec h.ordered
  · subst htake
    have htaken : d.step .getCommittedEntries = some ⟨d.state.getCommittedEntries.1,
        d.returned ++ d.state.getCommittedEntries.2, d.committed ++
          (List.range' (d.state.commitIndex + 1) (d.state.commitIndex - d.state.commitIndex)).map
            (fun i => (i, d.state.getEntry i)), d.installed ++ []⟩ := rfl
    rw [htaken, Nat.sub_self, List.range'_zero, List.map_nil, List.append_nil,
      List.append_nil] at hstep
    exact Option.some.inj hstep ▸ h.take hordered
  · have hquiet := h.quiet hordered hkeeps
    rw [Delivery.step, hnone, List.append_nil] at hstep
    exact Option.some.inj hstep ▸ hquiet

end Delivered

/-- Every entry is handed to the state machine once and in order, as it was when its index became
committed, unless a snapshot has taken its place. -/
theorem delivered_exactly_once {d : Delivery}
    (h : Runs.Reach Delivery.step (fun d call => call.Allowed d.state) .start d) :
    (d.returned.map LogEntry.index).Pairwise (· < ·) ∧
      (∀ e ∈ d.returned, ∀ o, (e.index, o) ∈ d.committed ↔ o = some e) ∧
      ∀ i, 0 < i → i ≤ d.state.lastApplied →
        (d.returned.map LogEntry.index).count i = 1 ∨
          ((d.returned.map LogEntry.index).count i = 0 ∧ ∃ k ∈ d.installed, i ≤ k) := by
  have hd : Delivered d := h.invariant .start fun hd hallowed hstep => hd.step hallowed hstep
  have hnodup : (d.returned.map LogEntry.index).Nodup := hd.increasing.imp fun hlt => hlt.ne
  refine ⟨hd.increasing, fun e he o => ⟨fun hmem => ?_, ?_⟩, fun i hpos hle => ?_⟩
  · exact (Prod.mk.inj (List.inj_on_of_nodup_map hd.committed_once hmem
      (hd.returned_committed e he) rfl)).2
  · rintro rfl
    exact hd.returned_committed e he
  · by_cases hmem : i ∈ d.returned.map LogEntry.index
    · exact .inl (List.count_eq_one_of_mem hnodup hmem)
    · refine .inr ⟨List.count_eq_zero_of_not_mem hmem, ?_⟩
      refine (hd.applied i hpos hle).resolve_left fun hreturned => hmem ?_
      obtain ⟨e, he, rfl⟩ := hreturned
      exact List.mem_map_of_mem he

def compactedThenOvertaken : List LogCall :=
  [.appendEntry .noop, .appendEntry .noop, .appendEntry .noop, .raiseCommit 2,
    .getCommittedEntries, .compactLog ⟨2, 0, [], []⟩,
    .truncateAndAppend 3 [⟨1, 3, .registerWorker 1⟩, ⟨1, 4, .noop⟩, ⟨1, 5, .noop⟩],
    .raiseCommit 3, .getCommittedEntries, .raiseCommit 5, .installSnapshot ⟨4, 1, [], []⟩,
    .getCommittedEntries]

theorem delivered_around_snapshots :
    ∃ d, Runs.Reach Delivery.step (fun d call => call.Allowed d.state) .start d ∧
      d.returned.map LogEntry.index = [1, 2, 3, 5] ∧ d.installed = [4] ∧
      (⟨1, 3, .registerWorker 1⟩ ∈ d.returned ∧ ∀ o, (3, o) ∈ d.committed ↔
        o = some ⟨1, 3, .registerWorker 1⟩) := by
  obtain ⟨d, hreach, hindices, hinstalled, hmem⟩ := Runs.exists_reach_of_guardedRun Delivery.step
    (fun d call => call.Allowed d.state)
    (fun d => d.returned.map LogEntry.index = [1, 2, 3, 5] ∧ d.installed = [4] ∧
      ⟨1, 3, .registerWorker 1⟩ ∈ d.returned) .start compactedThenOvertaken (by decide +kernel)
  exact ⟨d, hreach, hindices, hinstalled, hmem, (delivered_exactly_once hreach).2.1 _ hmem⟩

end NomadLite
