import NomadLite.OrderedScan
import NomadLite.LogAlignment

/-!
# The storage of a node

The keys of the database are the three parts of the hard state, the snapshot and one
key for each log index, whose order is that of the indices. Serialised values are
identified with what they stand for. A storage operation is the list of its writes in
program order; each write is atomic, and a process that stops in between leaves the
effect of a first part of the list.
-/

namespace NomadLite

open OrderedScan

structure Disk where
  term : Option ℕ
  votedFor : Option (Option ℕ)
  logOffset : Option ℕ
  snapshot : Option Snapshot
  log : Finmap (fun _ : ℕ => LogEntry)
deriving DecidableEq

/-- One `put` or `delete`. An entry is stored under its own index. -/
inductive DiskWrite where
  | putTerm (term : ℕ)
  | putVotedFor (votedFor : Option ℕ)
  | putLogOffset (logOffset : ℕ)
  | putSnapshot (snapshot : Snapshot)
  | putEntry (entry : LogEntry)
  | deleteEntry (index : ℕ)
deriving DecidableEq

def DiskWrite.touches (i : ℕ) : DiskWrite → Bool
  | putEntry e => e.index = i
  | deleteEntry j => j = i
  | _ => false

structure PersistedState where
  currentTerm : ℕ
  votedFor : Option ℕ
  logOffset : ℕ
  snapshot : Option Snapshot
  log : List LogEntry
deriving DecidableEq

namespace Disk

def empty : Disk := ⟨none, none, none, none, ∅⟩

def write (d : Disk) : DiskWrite → Disk
  | .putTerm term => { d with term := some term }
  | .putVotedFor votedFor => { d with votedFor := some votedFor }
  | .putLogOffset logOffset => { d with logOffset := some logOffset }
  | .putSnapshot snapshot => { d with snapshot := some snapshot }
  | .putEntry entry => { d with log := d.log.insert entry.index entry }
  | .deleteEntry index => { d with log := d.log.erase index }

def writeAll (d : Disk) (ws : List DiskWrite) : Disk := ws.foldl write d

def saveHardState (term : ℕ) (votedFor : Option ℕ) (logOffset : ℕ) : List DiskWrite :=
  [.putTerm term, .putVotedFor votedFor, .putLogOffset logOffset]

def appendEntry (entry : LogEntry) : List DiskWrite := [.putEntry entry]

/-- The keys are collected first and then deleted from the lowest one upwards. -/
def truncateFrom (d : Disk) (fromIndex : ℕ) : List DiskWrite :=
  (keysFrom d.log fromIndex).map .deleteEntry

def saveSnapshot (d : Disk) (snapshot : Snapshot) (logOffset : ℕ) : List DiskWrite :=
  [.putSnapshot snapshot, .putLogOffset logOffset] ++
    if 0 < logOffset then
      ((keysFrom d.log 1).takeWhile (· < logOffset + 1)).map .deleteEntry
    else []

/-- The presence of the term tells a used database from a fresh one. -/
def load (d : Disk) : Option PersistedState :=
  d.term.map fun term =>
    { currentTerm := term
      votedFor := d.votedFor.getD none
      logOffset := d.logOffset.getD 0
      snapshot := d.snapshot
      log := scanFrom d.log (d.logOffset.getD 0 + 1) }

/-! ### What a list of writes leaves -/

variable (d : Disk)

theorem writeAll_append (ws ws' : List DiskWrite) :
    d.writeAll (ws ++ ws') = (d.writeAll ws).writeAll ws' := List.foldl_append ..

theorem writeAll_cons (w : DiskWrite) (ws : List DiskWrite) :
    d.writeAll (w :: ws) = (d.write w).writeAll ws := rfl

structure SameHead (d d' : Disk) : Prop where
  term : d'.term = d.term
  votedFor : d'.votedFor = d.votedFor
  logOffset : d'.logOffset = d.logOffset
  snapshot : d'.snapshot = d.snapshot

theorem SameHead.refl : SameHead d d := ⟨rfl, rfl, rfl, rfl⟩

variable {d}

theorem SameHead.trans {d' d'' : Disk} (h : SameHead d d') (h' : SameHead d' d'') :
    SameHead d d'' :=
  ⟨h'.term.trans h.term, h'.votedFor.trans h.votedFor, h'.logOffset.trans h.logOffset,
    h'.snapshot.trans h.snapshot⟩

theorem sameHead_deletes (d : Disk) (indices : List ℕ) :
    SameHead d (d.writeAll (indices.map .deleteEntry)) := by
  induction indices generalizing d with
  | nil => exact .refl d
  | cons i indices ih =>
    have hfirst : SameHead d (d.write (.deleteEntry i)) := ⟨rfl, rfl, rfl, rfl⟩
    exact hfirst.trans (ih _)

theorem sameHead_puts (d : Disk) (entries : List LogEntry) :
    SameHead d (d.writeAll (entries.map .putEntry)) := by
  induction entries generalizing d with
  | nil => exact .refl d
  | cons e entries ih =>
    have hfirst : SameHead d (d.write (.putEntry e)) := ⟨rfl, rfl, rfl, rfl⟩
    exact hfirst.trans (ih _)

theorem lookup_deletes (d : Disk) (indices : List ℕ) (k : ℕ) :
    (d.writeAll (indices.map .deleteEntry)).log.lookup k =
      if k ∈ indices then none else d.log.lookup k := by
  induction indices generalizing d with
  | nil => rw [if_neg List.not_mem_nil, List.map_nil]; rfl
  | cons i indices ih =>
    rw [List.map_cons, writeAll_cons, ih]
    by_cases hki : k = i
    · subst hki
      rw [if_pos (List.mem_cons_self ..)]
      split_ifs
      · rfl
      · exact Finmap.lookup_erase ..
    · simp only [List.mem_cons, hki, false_or]
      split_ifs
      · rfl
      · exact Finmap.lookup_erase_ne hki

theorem lookup_puts (d : Disk) {base : ℕ} {entries : List LogEntry}
    (h : IndexedFrom base entries) (k : ℕ) :
    (d.writeAll (entries.map .putEntry)).log.lookup k =
      if base < k ∧ k ≤ base + entries.length then entries[k - base - 1]? else d.log.lookup k := by
  induction entries generalizing d base with
  | nil =>
    rw [if_neg fun hk => not_lt.mpr hk.2 hk.1]
    rfl
  | cons e entries ih =>
    have he : e.index = base + 1 := h 0 e rfl
    rw [List.map_cons, writeAll_cons, ih _ h.tail, List.length_cons]
    have hinsert : ((d.write (.putEntry e)).log).lookup k =
        if k = base + 1 then some e else d.log.lookup k := by
      change (d.log.insert e.index e).lookup k = _
      split_ifs with hk
      · rw [hk, he, Finmap.lookup_insert]
      · exact Finmap.lookup_insert_of_ne _ (he ▸ hk)
    rw [hinsert]
    by_cases hk : k = base + 1
    · subst hk
      rw [if_neg fun hc => lt_irrefl _ hc.1, if_pos rfl, if_pos ⟨by omega, by omega⟩,
        show base + 1 - base - 1 = 0 by omega]
      rfl
    · rw [if_neg hk]
      by_cases hin : base + 1 < k ∧ k ≤ base + 1 + entries.length
      · rw [if_pos hin, if_pos ⟨by omega, by omega⟩,
          show k - base - 1 = k - (base + 1) - 1 + 1 by omega, List.getElem?_cons_succ]
      · rw [if_neg hin, if_neg fun hc => hin ⟨by omega, by omega⟩]

theorem lookup_truncateFrom (d : Disk) (fromIndex k : ℕ) :
    (d.writeAll (d.truncateFrom fromIndex)).log.lookup k =
      if fromIndex ≤ k then none else d.log.lookup k := by
  rw [truncateFrom, lookup_deletes]
  by_cases hle : fromIndex ≤ k
  · rw [if_pos hle]
    split_ifs with hmem
    · rfl
    · rw [mem_keysFrom, not_and] at hmem
      exact Finmap.lookup_eq_none.mpr (hmem hle)
  · rw [if_neg hle, if_neg fun hmem => hle ((mem_keysFrom ..).mp hmem).1]

/-- Of the rest of the disk only the snapshot and the offset change. -/
theorem sameHead_saveSnapshot (d : Disk) (snapshot : Snapshot) (logOffset : ℕ) :
    SameHead { d with snapshot := some snapshot, logOffset := some logOffset }
      (d.writeAll (d.saveSnapshot snapshot logOffset)) := by
  rw [saveSnapshot, writeAll_append]
  split_ifs
  · exact sameHead_deletes (d.writeAll [.putSnapshot snapshot, .putLogOffset logOffset]) _
  · exact .refl _

theorem lookup_saveSnapshot (d : Disk) (snapshot : Snapshot) (logOffset k : ℕ) :
    (d.writeAll (d.saveSnapshot snapshot logOffset)).log.lookup k =
      if 1 ≤ k ∧ k ≤ logOffset then none else d.log.lookup k := by
  rw [saveSnapshot, writeAll_append]
  by_cases hpos : 0 < logOffset
  · rw [if_pos hpos, lookup_deletes]
    simp only [mem_takeWhile_lt (pairwise_keysFrom d.log 1), mem_keysFrom]
    by_cases hk : 1 ≤ k ∧ k ≤ logOffset
    · rw [if_pos hk]
      split_ifs with hmem
      · rfl
      · exact Finmap.lookup_eq_none.mpr fun hin => hmem ⟨⟨hk.1, hin⟩, by omega⟩
    · rw [if_neg hk, if_neg fun hmem => hk ⟨hmem.1.1, by omega⟩]
      rfl
  · rw [if_neg hpos, if_neg (by omega)]
    rfl

end Disk
end NomadLite
