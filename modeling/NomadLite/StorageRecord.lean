import NomadLite.StandardStorage

/-!
# What the storage records

A database after any sequence of storage operations, against the sequence itself: the
hard state, the offset and the snapshot are those written last, and an entry is there
if nothing after its append has overridden it.
-/

namespace NomadLite

open OrderedScan

inductive StorageOp where
  | saveHardState (term : ℕ) (votedFor : Option ℕ) (logOffset : ℕ)
  | appendEntry (entry : LogEntry)
  | truncateFrom (fromIndex : ℕ)
  | saveSnapshot (snapshot : Snapshot) (logOffset : ℕ)

namespace StorageOp

def run (lib : StorageLib) (db : Db) : StorageOp → Db
  | .saveHardState term votedFor logOffset =>
    RaftStorage.saveHardState lib db term votedFor logOffset
  | .appendEntry entry => RaftStorage.appendEntry lib db entry
  | .truncateFrom fromIndex => RaftStorage.truncateFrom db fromIndex
  | .saveSnapshot snapshot logOffset => RaftStorage.saveSnapshot lib db snapshot logOffset

def runAll (lib : StorageLib) (ops : List StorageOp) : Db := ops.foldl (run lib) ∅

def InRange : StorageOp → Prop
  | .saveHardState term _ logOffset => term < 2 ^ 64 ∧ logOffset ≤ 2 ^ 64 - 2
  | .appendEntry entry => 1 ≤ entry.index ∧ entry.index ≤ 2 ^ 64 - 2
  | .truncateFrom fromIndex => 1 ≤ fromIndex ∧ fromIndex ≤ 2 ^ 64 - 2
  | .saveSnapshot _ logOffset => logOffset ≤ 2 ^ 64 - 2

instance : (op : StorageOp) → Decidable op.InRange
  | .saveHardState .. => inferInstanceAs (Decidable (_ ∧ _))
  | .appendEntry _ => inferInstanceAs (Decidable (_ ∧ _))
  | .truncateFrom _ => inferInstanceAs (Decidable (_ ∧ _))
  | .saveSnapshot .. => inferInstanceAs (Decidable (_ ≤ _))

/-! ### The record -/

def hardState : StorageOp → Option (ℕ × Option ℕ)
  | .saveHardState term votedFor _ => some (term, votedFor)
  | _ => none

def logOffset : StorageOp → Option ℕ
  | .saveHardState _ _ logOffset | .saveSnapshot _ logOffset => some logOffset
  | _ => none

def snapshot : StorageOp → Option Snapshot
  | .saveSnapshot snapshot _ => some snapshot
  | _ => none

def last {α : Type} (written : StorageOp → Option α) (ops : List StorageOp) : Option α :=
  (ops.filterMap written).getLast?

def Overrides (index : ℕ) : StorageOp → Prop
  | .saveHardState .. => False
  | .appendEntry entry => entry.index = index
  | .truncateFrom fromIndex => fromIndex ≤ index
  | .saveSnapshot _ logOffset => index ≤ logOffset

instance (index : ℕ) : (op : StorageOp) → Decidable (op.Overrides index)
  | .saveHardState .. => .isFalse id
  | .appendEntry _ => inferInstanceAs (Decidable (_ = _))
  | .truncateFrom _ => inferInstanceAs (Decidable (_ ≤ _))
  | .saveSnapshot .. => inferInstanceAs (Decidable (_ ≤ _))

def Live (ops : List StorageOp) (entry : LogEntry) : Prop :=
  ∃ before after, ops = before ++ .appendEntry entry :: after ∧
    ∀ op ∈ after, ¬ op.Overrides entry.index

structure Recorded (ops : List StorageOp) (state : PersistedState) : Prop where
  hardState : last hardState ops = some (state.currentTerm, state.votedFor)
  logOffset : (last logOffset ops).getD 0 = state.logOffset
  snapshot : last snapshot ops = state.snapshot
  increasing : state.log.Pairwise fun e e' => e.index < e'.index
  entries : ∀ e, e ∈ state.log ↔ state.logOffset < e.index ∧ Live ops e

theorem last_concat {α : Type} (written : StorageOp → Option α) (ops : List StorageOp)
    (op : StorageOp) : last written (ops ++ [op]) = (written op).or (last written ops) := by
  rw [last, List.filterMap_append, List.getLast?_append, List.filterMap_cons]
  cases written op <;> rfl

theorem live_concat {ops : List StorageOp} {op : StorageOp} {e : LogEntry} :
    Live (ops ++ [op]) e ↔ op = .appendEntry e ∨ Live ops e ∧ ¬ op.Overrides e.index := by
  constructor
  · rintro ⟨before, after, heq, hafter⟩
    rcases after.eq_nil_or_concat with rfl | ⟨after', op', rfl⟩
    · exact .inl (List.append_inj_right' heq rfl |> List.singleton_inj.mp)
    · rw [List.concat_eq_append] at heq hafter
      rw [← List.cons_append, ← List.append_assoc] at heq
      obtain ⟨hops, hop⟩ := List.append_inj' heq rfl
      obtain rfl := List.singleton_inj.mp hop
      obtain ⟨hbefore, hlast⟩ := List.forall_mem_append.mp hafter
      exact .inr ⟨⟨before, after', hops, hbefore⟩, hlast op (List.mem_singleton_self op)⟩
  · rintro (rfl | ⟨⟨before, after, rfl, hafter⟩, hop⟩)
    · exact ⟨ops, [], rfl, by simp⟩
    · refine ⟨before, after ++ [op], by simp, List.forall_mem_append.mpr ⟨hafter, ?_⟩⟩
      exact List.forall_mem_singleton.mpr hop

/-! ### The disk keeps the record -/

def writes (d : Disk) : StorageOp → List DiskWrite
  | .saveHardState term votedFor logOffset => Disk.saveHardState term votedFor logOffset
  | .appendEntry entry => Disk.appendEntry entry
  | .truncateFrom fromIndex => d.truncateFrom fromIndex
  | .saveSnapshot snapshot logOffset => d.saveSnapshot snapshot logOffset

theorem represents_run {lib : StorageLib} {db : Db} {d : Disk} {op : StorageOp}
    (h : d.Represents lib db) (hop : op.InRange) :
    (d.writeAll (op.writes d)).Represents lib (op.run lib db) := by
  cases op with
  | saveHardState term votedFor logOffset =>
    exact h.saveHardState hop.1 (lt_of_le_of_lt hop.2 (by omega)) votedFor
  | appendEntry entry => exact h.appendEntry (lt_of_le_of_lt hop.2 (by omega))
  | truncateFrom fromIndex => exact h.truncateFrom (lt_of_le_of_lt hop.2 (by omega))
  | saveSnapshot snapshot logOffset =>
    exact h.saveSnapshot (lt_of_le_of_lt hop (by omega)) snapshot

theorem head_writeAll (d : Disk) (op : StorageOp) :
    (d.writeAll (op.writes d)).term = (op.hardState.map Prod.fst).or d.term ∧
      (d.writeAll (op.writes d)).votedFor = (op.hardState.map Prod.snd).or d.votedFor ∧
      (d.writeAll (op.writes d)).logOffset = op.logOffset.or d.logOffset ∧
      (d.writeAll (op.writes d)).snapshot = op.snapshot.or d.snapshot := by
  cases op with
  | saveHardState term votedFor logOffset => exact ⟨rfl, rfl, rfl, rfl⟩
  | appendEntry entry => exact ⟨rfl, rfl, rfl, rfl⟩
  | truncateFrom fromIndex =>
    obtain ⟨hterm, hvoted, hoffset, hsnapshot⟩ := d.sameHead_deletes (keysFrom d.log fromIndex)
    exact ⟨hterm, hvoted, hoffset, hsnapshot⟩
  | saveSnapshot snapshot logOffset =>
    obtain ⟨hterm, hvoted, hoffset, hsnapshot⟩ := d.sameHead_saveSnapshot snapshot logOffset
    exact ⟨hterm, hvoted, hoffset, hsnapshot⟩

theorem lookup_writeAll (d : Disk) (op : StorageOp) {k : ℕ} (hk : 1 ≤ k) (e : LogEntry) :
    (d.writeAll (op.writes d)).log.lookup k = some e ↔
      op = .appendEntry e ∧ e.index = k ∨ d.log.lookup k = some e ∧ ¬ op.Overrides k := by
  cases op with
  | saveHardState term votedFor logOffset =>
    change d.log.lookup k = some e ↔ _
    simp [Overrides]
  | appendEntry entry =>
    change (d.log.insert entry.index entry).lookup k = some e ↔ _
    by_cases heq : k = entry.index
    · subst heq
      rw [Finmap.lookup_insert]
      simp only [Overrides, not_true_eq_false, and_false, or_false, appendEntry.injEq,
        Option.some.injEq]
      exact ⟨fun h => ⟨h, h ▸ rfl⟩, fun h => h.1⟩
    · rw [Finmap.lookup_insert_of_ne _ heq]
      constructor
      · exact fun h => .inr ⟨h, fun hover => heq hover.symm⟩
      · rintro (⟨hop, hindex⟩ | h)
        · exact absurd (appendEntry.inj hop ▸ hindex.symm) heq
        · exact h.1
  | truncateFrom fromIndex =>
    change (d.writeAll (d.truncateFrom fromIndex)).log.lookup k = some e ↔ _
    rw [Disk.lookup_truncateFrom]
    by_cases hle : fromIndex ≤ k <;> simp [Overrides, hle]
  | saveSnapshot snapshot logOffset =>
    change (d.writeAll (d.saveSnapshot snapshot logOffset)).log.lookup k = some e ↔ _
    rw [Disk.lookup_saveSnapshot]
    by_cases hle : k ≤ logOffset <;> simp [Overrides, hle, hk]

structure Kept (ops : List StorageOp) (d : Disk) : Prop where
  term : d.term = (last hardState ops).map Prod.fst
  votedFor : d.votedFor = (last hardState ops).map Prod.snd
  logOffset : d.logOffset = last logOffset ops
  snapshot : d.snapshot = last snapshot ops
  log : ∀ k, 1 ≤ k → ∀ e, d.log.lookup k = some e ↔ e.index = k ∧ Live ops e

theorem kept_nil : Kept [] .empty := by
  refine ⟨rfl, rfl, rfl, rfl, fun k _ e => ⟨fun h => (nomatch h), ?_⟩⟩
  rintro ⟨-, before, after, hnil, -⟩
  simp at hnil

theorem Kept.concat {ops : List StorageOp} {d : Disk} (h : Kept ops d) (op : StorageOp) :
    Kept (ops ++ [op]) (d.writeAll (op.writes d)) := by
  obtain ⟨hterm, hvoted, hoffset, hsnapshot⟩ := head_writeAll d op
  refine ⟨?_, ?_, ?_, ?_, fun k hk e => ?_⟩
  · rw [hterm, h.term, last_concat, Option.map_or]
  · rw [hvoted, h.votedFor, last_concat, Option.map_or]
  · rw [hoffset, h.logOffset, last_concat]
  · rw [hsnapshot, h.snapshot, last_concat]
  · rw [lookup_writeAll d op hk, h.log k hk, live_concat]
    constructor
    · rintro (⟨hop, hindex⟩ | ⟨⟨hindex, hlive⟩, hover⟩)
      · exact ⟨hindex, .inl hop⟩
      · exact ⟨hindex, .inr ⟨hlive, hindex ▸ hover⟩⟩
    · rintro ⟨rfl, hop | ⟨hlive, hover⟩⟩
      · exact .inl ⟨hop, rfl⟩
      · exact .inr ⟨⟨rfl, hlive⟩, hover⟩

/-- After any operations the database represents a disk with their record. -/
theorem exists_kept (lib : StorageLib) {ops : List StorageOp} (h : ∀ op ∈ ops, op.InRange) :
    ∃ d : Disk, d.Represents lib (runAll lib ops) ∧ Kept ops d := by
  induction ops using List.reverseRecOn with
  | nil => exact ⟨.empty, .empty lib, kept_nil⟩
  | append_singleton ops op ih =>
    obtain ⟨hops, hop⟩ := List.forall_mem_append.mp h
    obtain ⟨d, hrep, hkept⟩ := ih hops
    refine ⟨d.writeAll (op.writes d), ?_, hkept.concat op⟩
    rw [runAll, List.foldl_concat]
    exact represents_run hrep (hop op (List.mem_singleton_self op))

theorem Kept.recorded {ops : List StorageOp} {d : Disk} {state : PersistedState}
    (h : Kept ops d) (hload : d.load = some state) : Recorded ops state := by
  obtain ⟨term, hterm, rfl⟩ := Option.map_eq_some_iff.mp hload
  have hlookup : ∀ k e, d.logOffset.getD 0 + 1 ≤ k → d.log.lookup k = some e → e.index = k :=
    fun k e hk he => ((h.log k (by omega) e).mp he).1
  refine ⟨?_, by rw [h.logOffset], h.snapshot.symm, pairwise_scanFrom _ _ hlookup, fun e => ?_⟩
  · rw [h.term] at hterm
    obtain ⟨⟨term', votedFor⟩, hlast, rfl⟩ := Option.map_eq_some_iff.mp hterm
    rw [h.votedFor, hlast]
    rfl
  · rw [mem_scanFrom]
    constructor
    · rintro ⟨k, hk, he⟩
      obtain ⟨rfl, hlive⟩ := (h.log k (by omega) e).mp he
      exact ⟨hk, hlive⟩
    · rintro ⟨hlt, hlive⟩
      exact ⟨e.index, hlt, (h.log e.index (by omega) e).mpr ⟨rfl, hlive⟩⟩

theorem last_eq_none_iff {α : Type} {written : StorageOp → Option α} {ops : List StorageOp} :
    last written ops = none ↔ ∀ op ∈ ops, written op = none := by
  rw [last, List.getLast?_eq_none_iff, List.filterMap_eq_nil_iff]

/-- Loading never fails, finds a fresh database exactly if no hard state was saved, and returns
the record otherwise. -/
theorem load_returns_record (lib : StorageLib) (ops : List StorageOp)
    (h : ∀ op ∈ ops, op.InRange) :
    ∃ result, RaftStorage.load lib (runAll lib ops) = .ok result ∧
      (result = none ↔ ∀ op ∈ ops, op.hardState = none) ∧
      ∀ state ∈ result, Recorded ops state := by
  obtain ⟨d, hrep, hkept⟩ := exists_kept lib h
  refine ⟨d.load, hrep.load, ?_, fun state hstate => hkept.recorded hstate⟩
  rw [← last_eq_none_iff, Disk.load, Option.map_eq_none_iff, hkept.term, Option.map_eq_none_iff]

def trimmedLog : List StorageOp :=
  [.saveHardState 3 (some 2) 0, .appendEntry ⟨1, 1, .noop⟩, .appendEntry ⟨2, 2, .noop⟩,
    .appendEntry ⟨2, 3, .noop⟩, .truncateFrom 3, .saveSnapshot ⟨1, 1, [], [1]⟩ 1]

theorem trimmed_log_loads :
    ∃ state, RaftStorage.load .standard (runAll .standard trimmedLog) = .ok (some state) ∧
      state.currentTerm = 3 ∧ state.votedFor = some 2 ∧ state.logOffset = 1 ∧
      state.snapshot = some ⟨1, 1, [], [1]⟩ ∧ ⟨2, 2, .noop⟩ ∈ state.log ∧
      ∀ e ∈ state.log, e.index ≠ 1 := by
  obtain ⟨result, hload, hfresh, hrecord⟩ := load_returns_record .standard trimmedLog (by decide)
  cases result with
  | none => exact absurd (hfresh.mp rfl) (by decide)
  | some state =>
    obtain ⟨hhard, hoffset, hsnapshot, -, hentries⟩ := hrecord state rfl
    obtain ⟨hterm, hvoted⟩ := Prod.mk.inj (Option.some.inj hhard)
    refine ⟨state, hload, hterm.symm, hvoted.symm, hoffset.symm, hsnapshot.symm, ?_, ?_⟩
    · refine (hentries _).mpr ⟨hoffset ▸ by decide, trimmedLog.take 2, trimmedLog.drop 3, rfl, ?_⟩
      decide
    · intro e he hone
      have hlt := ((hentries e).mp he).1
      rw [hone, ← hoffset] at hlt
      exact absurd hlt (by decide)

end StorageOp
end NomadLite
