import NomadLite.LogAlignment
import NomadLite.RaftNode
import NomadLite.ReplicatedLog

/-!
# The whole log behind a compacted state

`s.Holds lib h` says that `h` is the log of `s` as it would be had nothing been
compacted, its entries in the form they have on the wire. The state keeps the part
above `log_offset` and, in its snapshot, the term of the entry at `log_offset`. The
accessors of the state answer from `h`, and the operations on the log act on it.
-/

namespace NomadLite

open ReplicatedLog

structure RaftState.Holds (lib : WireLib) (s : RaftState) (h : List LogEntry) : Prop where
  log_eq : s.log.map (LogEntry.onWire lib) = h.drop s.logOffset
  offset_le : s.logOffset ≤ h.length
  indexed : IndexedFrom 0 h
  snapshot_none : s.logOffset = 0 → s.snapshot = none
  snapshot_some : 0 < s.logOffset → ∃ snapshot, s.snapshot = some snapshot ∧
    snapshot.lastIncludedIndex = s.logOffset ∧
    (h[s.logOffset - 1]?).map LogEntry.term = some snapshot.lastIncludedTerm

namespace RaftState.Holds

variable {lib : WireLib} {s s' : RaftState} {h L : List LogEntry}

theorem start (lib : WireLib) : RaftState.new.Holds lib [] :=
  ⟨rfl, le_rfl, .nil 0, fun _ => rfl, fun hpos => absurd hpos (lt_irrefl 0)⟩

theorem of_aligned (haligned : s.Aligned) (hoff : s.logOffset = 0) (hsnap : s.snapshot = none) :
    s.Holds lib (s.log.map (LogEntry.onWire lib)) where
  log_eq := by rw [hoff, List.drop_zero]
  offset_le := hoff ▸ Nat.zero_le _
  indexed j e hj := by
    obtain ⟨e', he', rfl⟩ := Option.map_eq_some_iff.mp (List.getElem?_map .. ▸ hj)
    rw [LogEntry.onWire_index, haligned j e' he', hoff]
  snapshot_none _ := hsnap
  snapshot_some hpos := absurd hoff hpos.ne'

theorem congr (hs : s.Holds lib h) (hlog : s'.log = s.log) (hoff : s'.logOffset = s.logOffset)
    (hsnap : s'.snapshot = s.snapshot) : s'.Holds lib h := by
  obtain ⟨h₁, h₂, h₃, h₄, h₅⟩ := hs
  constructor <;> simpa only [hlog, hoff, hsnap]

theorem length_eq (hs : s.Holds lib h) : s.logOffset + s.log.length = h.length := by
  have hlen := congrArg List.length hs.log_eq
  rw [List.length_map, List.length_drop] at hlen
  have := hs.offset_le
  omega

theorem aligned (hs : s.Holds lib h) : s.Aligned := by
  intro j e hj
  have hget : (h.drop s.logOffset)[j]? = some (e.onWire lib) := by
    rw [← hs.log_eq, List.getElem?_map, hj, Option.map_some]
  have := (hs.indexed.drop s.logOffset) j _ hget
  rwa [Nat.zero_add, LogEntry.onWire_index] at this

theorem lastLogIndex (hs : s.Holds lib h) : s.lastLogIndex = h.length :=
  hs.aligned.lastLogIndex.trans hs.length_eq

theorem lastLogTerm (hs : s.Holds lib h) : s.lastLogTerm = lastTerm LogEntry.term h := by
  have hlast : (h.drop s.logOffset).getLast? = s.log.getLast?.map (LogEntry.onWire lib) := by
    rw [← hs.log_eq, List.getLast?_map]
  rw [List.getLast?_drop] at hlast
  rw [RaftState.lastLogTerm, lastTerm]
  split_ifs at hlast with hall
  · have hnil : s.log.getLast? = none := Option.map_eq_none_iff.mp hlast.symm
    rw [hnil, Option.map_none, Option.getD_none]
    have hoff : s.logOffset = h.length := le_antisymm hs.offset_le hall
    rcases Nat.eq_zero_or_pos s.logOffset with hzero | hpos
    · rw [hs.snapshot_none hzero, List.length_eq_zero_iff.mp (hoff.symm.trans hzero)]
      rfl
    · obtain ⟨snapshot, hsnap, -, hterm⟩ := hs.snapshot_some hpos
      rw [hsnap, Option.map_some, Option.getD_some, List.getLast?_eq_getElem?, ← hoff, hterm,
        Option.getD_some]
  · obtain ⟨e, he⟩ : ∃ e, s.log.getLast? = some e := by
      cases hlog : s.log.getLast? with
      | some e => exact ⟨e, rfl⟩
      | none =>
        have := hs.length_eq
        rw [List.getLast?_eq_none_iff.mp hlog, List.length_nil] at this
        omega
    rw [hlast, he]
    rfl

theorem getEntry (hs : s.Holds lib h) {i : ℕ} (hi : s.logOffset < i) :
    (s.getEntry i).map (LogEntry.onWire lib) = h[i - 1]? := by
  rw [RaftState.getEntry, if_neg (by omega), ← List.getElem?_map, hs.log_eq, List.getElem?_drop]
  congr 1
  omega

theorem getEntry_term (hs : s.Holds lib h) {i : ℕ} (hi : s.logOffset < i) :
    (s.getEntry i).map LogEntry.term = (h[i - 1]?).map LogEntry.term := by
  rw [← hs.getEntry hi, Option.map_map]
  rfl

theorem eq_of_offset (hs : s.Holds lib h) (hs' : s.Holds lib L) (hzero : s.logOffset = 0) :
    h = L := by
  have hlog := hs.log_eq.symm.trans hs'.log_eq
  rwa [hzero, List.drop_zero, List.drop_zero] at hlog

theorem getEntry_of_mem (hs : s.Holds lib h) (hzero : s.logOffset = 0) {j : ℕ} {e : LogEntry}
    (he : s.log[j]? = some e) : h[j]? = some (e.onWire lib) := by
  have hlog := hs.log_eq
  rw [hzero, List.drop_zero] at hlog
  rw [← hlog, List.getElem?_map, he, Option.map_some]

theorem lt_length (hs : s.Holds lib h) {i : ℕ} {e : LogEntry} (he : s.getEntry i = some e) :
    s.logOffset < i ∧ i ≤ h.length := by
  rw [RaftState.getEntry] at he
  split_ifs at he with hi
  have := (List.getElem?_eq_some_iff.mp he).1
  have := hs.length_eq
  omega

/-! ### The operations on the log -/

theorem appendEntry (hs : s.Holds lib h) (command : Command) :
    (s.appendEntry command).Holds lib (h ++ [(s.newEntry command).onWire lib]) where
  log_eq := by
    change (s.log ++ [s.newEntry command]).map (LogEntry.onWire lib) = List.drop s.logOffset _
    rw [List.map_append, hs.log_eq, List.drop_append_of_le_length hs.offset_le]
    rfl
  offset_le := by
    rw [List.length_append]
    exact hs.offset_le.trans (Nat.le_add_right _ _)
  indexed := by
    refine hs.indexed.append fun j e hj => ?_
    obtain ⟨rfl, rfl⟩ : j = 0 ∧ (s.newEntry command).onWire lib = e := by
      cases j with
      | zero => exact ⟨rfl, Option.some.inj hj⟩
      | succ j => cases hj
    have hlast : (s.newEntry command).index = s.lastLogIndex + 1 := rfl
    rw [LogEntry.onWire_index, hlast, hs.lastLogIndex]
    omega
  snapshot_none := hs.snapshot_none
  snapshot_some hpos := by
    obtain ⟨snapshot, hsnap, hindex, hterm⟩ := hs.snapshot_some hpos
    refine ⟨snapshot, hsnap, hindex, ?_⟩
    change ((h ++ _)[s.logOffset - 1]?).map LogEntry.term = _
    have := hs.offset_le
    have hpos : 0 < s.logOffset := hpos
    rwa [List.getElem?_append_left (by omega)]

/-- The snapshot still describes any log that agrees with the old one up to the offset. -/
theorem snapshot_of_take (hs : s.Holds lib h) (hpos : 0 < s.logOffset)
    (htake : h.take s.logOffset = L.take s.logOffset) :
    ∃ snapshot, s.snapshot = some snapshot ∧ snapshot.lastIncludedIndex = s.logOffset ∧
      (L[s.logOffset - 1]?).map LogEntry.term = some snapshot.lastIncludedTerm := by
  obtain ⟨snapshot, hsnap, hindex, hterm⟩ := hs.snapshot_some hpos
  refine ⟨snapshot, hsnap, hindex, ?_⟩
  have hget := congrArg (fun l => l[s.logOffset - 1]?) htake
  simp only [List.getElem?_take_of_lt (show s.logOffset - 1 < s.logOffset by omega)] at hget
  rw [← hget, hterm]

theorem cut (hs : s.Holds lib h) {n : ℕ} (hn : s.logOffset ≤ n) :
    { s with log := s.log.take (n - s.logOffset) }.Holds lib (h.take n) where
  log_eq := by
    change (s.log.take (n - s.logOffset)).map (LogEntry.onWire lib) = (h.take n).drop s.logOffset
    rw [List.map_take, hs.log_eq, List.drop_take]
  offset_le := by
    rw [List.length_take]
    exact le_min hn hs.offset_le
  indexed := hs.indexed.take n
  snapshot_none := hs.snapshot_none
  snapshot_some hpos := by
    refine hs.snapshot_of_take hpos ?_
    rw [List.take_take, min_eq_left hn]

/-- Entries of another log are spliced in where the two logs still agree. -/
theorem splice (hs : s.Holds lib h) {n : ℕ} {entries : List LogEntry} (hn : s.logOffset ≤ n)
    (hle : n ≤ h.length) (htake : h.take n = L.take n) (hL : IndexedFrom 0 L)
    (hentries : entries.map (LogEntry.onWire lib) <+: L.drop n) :
    (s.truncateAndAppend (n + 1) entries).Holds lib (L.take (n + entries.length)) := by
  have hnL : n ≤ L.length := by
    have hlen := congrArg List.length htake
    rw [List.length_take, List.length_take] at hlen
    omega
  have hentries' : entries.map (LogEntry.onWire lib) = (L.drop n).take entries.length := by
    have heq := List.prefix_iff_eq_take.mp hentries
    rwa [List.length_map] at heq
  have hlog : (s.log.take (n - s.logOffset) ++ entries).map (LogEntry.onWire lib) =
      (L.take (n + entries.length)).drop s.logOffset := by
    rw [List.map_append, List.map_take, hs.log_eq, ← List.drop_take, htake, hentries',
      List.take_add, List.drop_append_of_le_length]
    rw [List.length_take]
    omega
  rw [RaftState.truncateAndAppend, if_neg (by omega), show n + 1 - s.logOffset - 1 = n - s.logOffset
    by omega]
  refine ⟨hlog, ?_, hL.take _, hs.snapshot_none, fun hpos => hs.snapshot_of_take hpos ?_⟩
  · change s.logOffset ≤ _
    rw [List.length_take]
    omega
  · have hshort := congrArg (List.take s.logOffset) htake
    rw [List.take_take, List.take_take, min_eq_left hn] at hshort
    rw [List.take_take, min_eq_left (by omega), hshort]

/-- A snapshot that describes the entry at its index moves the offset up. -/
theorem compact (hs : s.Holds lib h) {snapshot : Snapshot}
    (hnew : s.logOffset < snapshot.lastIncludedIndex)
    (hterm : (h[snapshot.lastIncludedIndex - 1]?).map LogEntry.term =
      some snapshot.lastIncludedTerm)
    (hlog : s'.log = s.log.drop (snapshot.lastIncludedIndex - s.logOffset))
    (hoff : s'.logOffset = snapshot.lastIncludedIndex) (hsnap : s'.snapshot = some snapshot) :
    s'.Holds lib h where
  log_eq := by
    rw [hlog, hoff, List.map_drop, hs.log_eq, List.drop_drop]
    congr 1
    omega
  offset_le := by
    obtain ⟨e, he, -⟩ := Option.map_eq_some_iff.mp hterm
    have := (List.getElem?_eq_some_iff.mp he).1
    omega
  indexed := hs.indexed
  snapshot_none hzero := by omega
  snapshot_some _ := ⟨snapshot, hsnap, hoff.symm, hoff ▸ hterm⟩

theorem compactLog (hs : s.Holds lib h) {snapshot : Snapshot}
    (hterm : s.logOffset < snapshot.lastIncludedIndex →
      (h[snapshot.lastIncludedIndex - 1]?).map LogEntry.term = some snapshot.lastIncludedTerm) :
    (s.compactLog snapshot).Holds lib h := by
  rw [RaftState.compactLog]
  split_ifs with hle
  · exact hs
  · exact hs.compact (not_le.mp hle) (hterm (not_le.mp hle)) rfl rfl rfl

theorem installSnapshot_log (hs : s.Holds lib h) {snapshot : Snapshot}
    (hnew : s.logOffset < snapshot.lastIncludedIndex) :
    (s.installSnapshot snapshot).1.log = s.log.drop (snapshot.lastIncludedIndex - s.logOffset) ∧
      (s.installSnapshot snapshot).1.logOffset = snapshot.lastIncludedIndex ∧
      (s.installSnapshot snapshot).1.snapshot = some snapshot := by
  have hfilter := hs.aligned.filter_eq_drop (snapshot.lastIncludedIndex - s.logOffset)
  rw [Nat.add_sub_cancel' hnew.le] at hfilter
  rw [RaftState.installSnapshot, if_neg (not_le.mpr hnew)]
  exact ⟨hfilter, rfl, rfl⟩

/-- A snapshot at or past the end of the log replaces it by the log the snapshot was taken of. -/
theorem replace (hs : s.Holds lib h) {snapshot : Snapshot} (hL : IndexedFrom 0 L)
    (hnew : s.logOffset < snapshot.lastIncludedIndex)
    (hpast : h.length ≤ snapshot.lastIncludedIndex)
    (hterm : (L[snapshot.lastIncludedIndex - 1]?).map LogEntry.term =
      some snapshot.lastIncludedTerm)
    (hlog : s'.log = s.log.drop (snapshot.lastIncludedIndex - s.logOffset))
    (hoff : s'.logOffset = snapshot.lastIncludedIndex) (hsnap : s'.snapshot = some snapshot) :
    s'.Holds lib (L.take snapshot.lastIncludedIndex) where
  log_eq := by
    have := hs.length_eq
    rw [hlog, hoff, List.drop_eq_nil_of_le (by omega), List.drop_eq_nil_of_le]
    · rfl
    · rw [List.length_take]
      exact min_le_left _ _
  offset_le := by
    obtain ⟨e, he, -⟩ := Option.map_eq_some_iff.mp hterm
    have := (List.getElem?_eq_some_iff.mp he).1
    rw [List.length_take]
    omega
  indexed := hL.take _
  snapshot_none hzero := by omega
  snapshot_some _ := by
    refine ⟨snapshot, hsnap, hoff.symm, ?_⟩
    rw [hoff, List.getElem?_take_of_lt (by omega), hterm]

end RaftState.Holds
end NomadLite
