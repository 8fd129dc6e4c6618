import NomadLite.LogRequests
import NomadLite.MachineWord

/-!
# Positions computed on machine words

The accessors of the log subtract `log_offset` from `u64` indices and use the result
as a `usize`. The definitions here follow them operation by operation with checked
arithmetic and checked slices, on a platform where both words have 64 bits. While the
indices leave room for one more, no check fails and each operation does by position
what its purpose says by index.
-/

namespace NomadLite

open MachineWord

/-- `list[start..]`, which panics beyond the end. -/
def sliceFrom {α : Type*} (list : List α) (start : ℕ) : Option (List α) :=
  if start ≤ list.length then some (list.drop start) else none

namespace RaftState

def checkedPosition (s : RaftState) (index : ℕ) : Option ℕ := do
  let above ← checkedSub index s.logOffset
  checkedSub above 1

def checkedGetEntry (s : RaftState) (index : ℕ) : Option (Option LogEntry) :=
  if index = 0 ∨ index ≤ s.logOffset then some none
  else (s.checkedPosition index).map fun vecIndex => s.log[vecIndex]?

def checkedGetEntriesFrom (s : RaftState) (startIndex : ℕ) : Option (List LogEntry) := do
  let first ← checkedAdd u64 s.logOffset 1
  let effectiveStart := if startIndex = 0 then first else max startIndex first
  if s.lastLogIndex < effectiveStart then some []
  else
    let vecStart ← s.checkedPosition effectiveStart
    if s.log.length ≤ vecStart then some [] else sliceFrom s.log vecStart

def checkedTruncateAndAppend (s : RaftState) (fromIndex : ℕ) (entries : List LogEntry) :
    Option RaftState :=
  if fromIndex ≤ s.logOffset then some { s with log := entries }
  else do
    let vecIndex ← s.checkedPosition fromIndex
    let kept := if vecIndex < s.log.length then s.log.take vecIndex else s.log
    some { s with log := kept ++ entries }

def checkedCompactLog (s : RaftState) (snapshot : Snapshot) : Option RaftState :=
  if snapshot.lastIncludedIndex ≤ s.logOffset then some s
  else do
    let entriesToDrop ← checkedSub snapshot.lastIncludedIndex s.logOffset
    let log ← if s.log.length ≤ entriesToDrop then some [] else sliceFrom s.log entriesToDrop
    some
      { s with
        log := log
        logOffset := snapshot.lastIncludedIndex
        snapshot := some snapshot }

def checkedInstallSnapshot (s : RaftState) (snapshot : Snapshot) : Option (RaftState × Bool) :=
  if snapshot.lastIncludedIndex ≤ s.logOffset then some (s, false)
  else do
    let firstKept ← checkedAdd u64 snapshot.lastIncludedIndex 1
    some
      ({ s with
        log := s.log.filter (fun e => firstKept ≤ e.index)
        logOffset := snapshot.lastIncludedIndex
        commitIndex := if s.commitIndex < snapshot.lastIncludedIndex then
          snapshot.lastIncludedIndex else s.commitIndex
        lastApplied := if s.lastApplied < snapshot.lastIncludedIndex then
          snapshot.lastIncludedIndex else s.lastApplied
        snapshot := some snapshot }, true)

/-! ### No check fails -/

variable {s : RaftState}

theorem checkedPosition_eq {index : ℕ} (h : s.logOffset < index) :
    s.checkedPosition index = some (index - s.logOffset - 1) := by
  rw [checkedPosition, checkedSub_eq h.le, Option.bind_eq_bind, Option.bind_some,
    checkedSub_eq (by omega)]

theorem checkedGetEntry_eq (s : RaftState) (index : ℕ) :
    s.checkedGetEntry index = some (s.getEntry index) := by
  rw [checkedGetEntry, getEntry]
  split_ifs with hbelow
  · rfl
  · rw [checkedPosition_eq (by omega), Option.map_some]

theorem checkedGetEntriesFrom_eq (h : s.logOffset + 1 < u64) (startIndex : ℕ) :
    s.checkedGetEntriesFrom startIndex = some (s.getEntriesFrom startIndex) := by
  rw [checkedGetEntriesFrom, getEntriesFrom, checkedAdd_eq u64 h, Option.bind_eq_bind,
    Option.bind_some]
  have hstart : s.logOffset <
      if startIndex = 0 then s.logOffset + 1 else max startIndex (s.logOffset + 1) := by
    split_ifs
    · exact Nat.lt_succ_self _
    · exact lt_max_of_lt_right (Nat.lt_succ_self _)
  revert hstart
  generalize (if startIndex = 0 then s.logOffset + 1 else max startIndex (s.logOffset + 1)) = start
  intro hstart
  dsimp only
  rw [checkedPosition_eq hstart, Option.bind_some]
  split_ifs with hend hlen
  · rfl
  · rfl
  · exact if_pos (not_le.mp hlen).le

theorem checkedTruncateAndAppend_eq (s : RaftState) (fromIndex : ℕ) (entries : List LogEntry) :
    s.checkedTruncateAndAppend fromIndex entries =
      some (s.truncateAndAppend fromIndex entries) := by
  rw [checkedTruncateAndAppend, truncateAndAppend]
  split_ifs with hbelow
  · rfl
  · rw [checkedPosition_eq (by omega), Option.bind_eq_bind, Option.bind_some]
    split_ifs with hin
    · rfl
    · rw [List.take_of_length_le (not_lt.mp hin)]

theorem checkedCompactLog_eq (s : RaftState) (snapshot : Snapshot) :
    s.checkedCompactLog snapshot = some (s.compactLog snapshot) := by
  rw [checkedCompactLog, compactLog]
  split_ifs with hold
  · rfl
  · rw [checkedSub_eq (by omega), Option.bind_eq_bind, Option.bind_some]
    split_ifs with hall
    · rw [List.drop_eq_nil_of_le hall]
      rfl
    · rw [sliceFrom, if_pos (not_le.mp hall).le]
      rfl

theorem checkedInstallSnapshot_eq (s : RaftState) {snapshot : Snapshot}
    (h : snapshot.lastIncludedIndex + 1 < u64) :
    s.checkedInstallSnapshot snapshot = some (s.installSnapshot snapshot) := by
  have hmax : ∀ a b : ℕ, (if a < b then b else a) = max a b := fun a b => by
    split_ifs <;> omega
  rw [checkedInstallSnapshot, installSnapshot, checkedAdd_eq u64 h, Option.bind_eq_bind,
    Option.bind_some, hmax, hmax]
  split_ifs <;> rfl

end RaftState

/-! ### Positions and indices -/

/-- Cutting by index and cutting by count agree on an aligned log. -/
theorem IndexedFrom.filter_eq_take {base : ℕ} {log : List LogEntry} (h : IndexedFrom base log)
    (n : ℕ) : log.filter (fun e => e.index < base + n + 1) = log.take n := by
  induction log generalizing base n with
  | nil => rw [List.filter_nil, List.take_nil]
  | cons e log ih =>
    have he := h 0 e rfl
    cases n with
    | zero =>
      rw [List.take_zero]
      refine List.filter_eq_nil_iff.mpr fun e' he' => ?_
      obtain ⟨j, hj⟩ := List.mem_iff_getElem?.mp he'
      have := h j e' hj
      simp only [decide_eq_true_eq]
      omega
    | succ n =>
      have hn := ih h.tail n
      rw [show base + 1 + n + 1 = base + (n + 1) + 1 by omega] at hn
      rw [List.filter_cons_of_pos (by simp only [decide_eq_true_eq]; omega), hn,
        List.take_succ_cons]

namespace RaftState.Aligned

variable {s : RaftState}

theorem filter_ge (h : s.Aligned) (i : ℕ) :
    s.log.filter (fun e => i ≤ e.index) = s.log.drop (i - s.logOffset - 1) := by
  rcases le_or_gt i s.logOffset with hle | hgt
  · rw [show i - s.logOffset - 1 = 0 by omega, List.drop_zero]
    refine List.filter_eq_self.mpr fun e he => ?_
    obtain ⟨j, hj⟩ := List.mem_iff_getElem?.mp he
    have := h j e hj
    exact decide_eq_true (by omega)
  · have hdrop := IndexedFrom.filter_eq_drop h (i - s.logOffset - 1)
    rwa [show s.logOffset + (i - s.logOffset - 1) + 1 = i by omega] at hdrop

theorem getEntry_eq_some_iff (h : s.Aligned) {i : ℕ} {e : LogEntry} :
    s.getEntry i = some e ↔ e ∈ s.log ∧ e.index = i := by
  rw [List.mem_iff_getElem?]
  constructor
  · intro he
    refine ⟨?_, h.getEntry_index he⟩
    rw [getEntry] at he
    split_ifs at he
    exact ⟨_, he⟩
  · rintro ⟨⟨j, hj⟩, rfl⟩
    have hindex := h j e hj
    rw [getEntry, if_neg (by omega), hindex,
      show s.logOffset + 1 + j - s.logOffset - 1 = j by omega, hj]

theorem getEntriesFrom_eq_filter (h : s.Aligned) (i : ℕ) :
    s.getEntriesFrom i = s.log.filter fun e => i ≤ e.index := by
  rw [h.filter_ge]
  cases i with
  | zero =>
    have hzero : s.getEntriesFrom 0 = s.getEntriesFrom (s.logOffset + 1) := by
      simp only [RaftState.getEntriesFrom, Nat.succ_ne_zero, if_true, if_false, max_self]
    rw [hzero, h.getEntriesFrom_succ, Nat.sub_self, Nat.zero_sub, Nat.zero_sub]
  | succ i => rw [h.getEntriesFrom_succ, show i + 1 - s.logOffset - 1 = i - s.logOffset by omega]

theorem truncateAndAppend_eq_filter (h : s.Aligned) {fromIndex : ℕ}
    (hfrom : s.logOffset < fromIndex) (entries : List LogEntry) :
    s.truncateAndAppend fromIndex entries =
      { s with log := (s.log.filter fun e => e.index < fromIndex) ++ entries } := by
  have htake := IndexedFrom.filter_eq_take h (fromIndex - s.logOffset - 1)
  rw [show s.logOffset + (fromIndex - s.logOffset - 1) + 1 = fromIndex by omega] at htake
  rw [truncateAndAppend, if_neg (by omega), htake]

theorem truncateAndAppend (h : s.Aligned) {fromIndex : ℕ} (hfrom : s.logOffset < fromIndex)
    (hlast : fromIndex ≤ s.lastLogIndex + 1) {entries : List LogEntry}
    (hentries : IndexedFrom (fromIndex - 1) entries) :
    (s.truncateAndAppend fromIndex entries).Aligned := by
  rw [h.lastLogIndex] at hlast
  have hbase : s.logOffset + (s.log.take (fromIndex - s.logOffset - 1)).length =
      fromIndex - 1 := by
    rw [List.length_take]
    omega
  rw [RaftState.truncateAndAppend, if_neg (by omega)]
  exact IndexedFrom.append (h.take _) (hbase ▸ hentries)

/-- A newer snapshot leaves the same log behind whether entries are dropped by count or by
index. -/
theorem compactLog_installSnapshot (h : s.Aligned) {snapshot : Snapshot}
    (hnew : s.logOffset < snapshot.lastIncludedIndex) :
    (s.compactLog snapshot).log =
        s.log.filter (fun e => snapshot.lastIncludedIndex < e.index) ∧
      (s.installSnapshot snapshot).1.log =
        s.log.filter (fun e => snapshot.lastIncludedIndex < e.index) := by
  rw [RaftState.compactLog, if_neg (by omega), RaftState.installSnapshot, if_neg (by omega)]
  refine ⟨?_, rfl⟩
  have hdrop := h.filter_ge (snapshot.lastIncludedIndex + 1)
  rw [show snapshot.lastIncludedIndex + 1 - s.logOffset - 1 =
    snapshot.lastIncludedIndex - s.logOffset by omega] at hdrop
  exact hdrop.symm

end RaftState.Aligned

namespace RaftState

/-- On an aligned state whose indices leave room for one more, the arithmetic on positions does
not overflow and every operation of the log is the one by index. -/
theorem position_arithmetic_is_by_index {s : RaftState} (h : s.Aligned)
    (hroom : s.lastLogIndex < 2 ^ 64 - 1) :
    (∀ i, ∃ found, s.checkedGetEntry i = some found ∧
      ∀ e, found = some e ↔ e ∈ s.log ∧ e.index = i) ∧
    (∀ i, s.checkedGetEntriesFrom i = some (s.log.filter fun e => i ≤ e.index)) ∧
    (∀ fromIndex entries, s.logOffset < fromIndex → fromIndex ≤ s.lastLogIndex + 1 →
      ∃ s', s.checkedTruncateAndAppend fromIndex entries = some s' ∧
        s' = { s with log := (s.log.filter fun e => e.index < fromIndex) ++ entries } ∧
        (IndexedFrom (fromIndex - 1) entries → s'.Aligned)) ∧
    ∀ snapshot : Snapshot, s.logOffset < snapshot.lastIncludedIndex →
      snapshot.lastIncludedIndex < 2 ^ 64 - 1 →
      ∃ compacted installed, s.checkedCompactLog snapshot = some compacted ∧
        s.checkedInstallSnapshot snapshot = some (installed, true) ∧
        ∀ s' ∈ [compacted, installed],
          s'.log = s.log.filter (fun e => snapshot.lastIncludedIndex < e.index) ∧
          s'.logOffset = snapshot.lastIncludedIndex ∧ s'.snapshot = some snapshot := by
  have hoffset : s.logOffset + 1 < u64 := by
    rw [h.lastLogIndex] at hroom
    rw [u64]
    omega
  refine ⟨fun i => ?_, fun i => ?_, fun fromIndex entries hfrom hlast => ?_,
    fun snapshot hnew hbound => ?_⟩
  · exact ⟨s.getEntry i, s.checkedGetEntry_eq i, fun e => h.getEntry_eq_some_iff⟩
  · rw [checkedGetEntriesFrom_eq hoffset, h.getEntriesFrom_eq_filter]
  · exact ⟨_, s.checkedTruncateAndAppend_eq fromIndex entries,
      h.truncateAndAppend_eq_filter hfrom entries, h.truncateAndAppend hfrom hlast⟩
  · obtain ⟨hcompact, hinstall⟩ := h.compactLog_installSnapshot hnew
    have hnot : ¬ snapshot.lastIncludedIndex ≤ s.logOffset := not_le.mpr hnew
    have hcompacted : (s.compactLog snapshot).logOffset = snapshot.lastIncludedIndex ∧
        (s.compactLog snapshot).snapshot = some snapshot := by
      rw [compactLog, if_neg hnot]
      exact ⟨rfl, rfl⟩
    have hinstalled : (s.installSnapshot snapshot).1.logOffset = snapshot.lastIncludedIndex ∧
        (s.installSnapshot snapshot).1.snapshot = some snapshot ∧
        (s.installSnapshot snapshot).2 = true := by
      rw [installSnapshot, if_neg hnot]
      exact ⟨rfl, rfl, rfl⟩
    refine ⟨s.compactLog snapshot, (s.installSnapshot snapshot).1, s.checkedCompactLog_eq snapshot,
      ?_, fun s' hs' => ?_⟩
    · rw [checkedInstallSnapshot_eq s (by rw [u64]; omega), ← hinstalled.2.2]
    · rcases List.mem_pair.mp hs' with rfl | rfl
      · exact ⟨hcompact, hcompacted⟩
      · exact ⟨hinstall, hinstalled.1, hinstalled.2.1⟩

def compactedOnce : RaftState :=
  { RaftState.new with logOffset := 3, log := [⟨1, 4, .noop⟩, ⟨1, 5, .noop⟩] }

theorem compactedOnce_snapshot_beyond_end :
    ∃ compacted installed, compactedOnce.checkedCompactLog ⟨9, 2, [], []⟩ = some compacted ∧
      compactedOnce.checkedInstallSnapshot ⟨9, 2, [], []⟩ = some (installed, true) ∧
      compacted.log = [] ∧ installed.log = [] := by
  obtain ⟨compacted, installed, hcompacted, hinstalled, hboth⟩ :=
    (position_arithmetic_is_by_index (s := compactedOnce) (by decide) (by decide)).2.2.2
      ⟨9, 2, [], []⟩ (by decide) (by decide)
  refine ⟨compacted, installed, hcompacted, hinstalled, ?_, ?_⟩
  · exact (hboth compacted (List.mem_cons_self ..)).1
  · exact (hboth installed (List.mem_cons_of_mem _ (List.mem_cons_self ..))).1

example : RaftState.new.checkedInstallSnapshot ⟨2 ^ 64 - 1, 1, [], []⟩ = none := by decide

end RaftState
end NomadLite
