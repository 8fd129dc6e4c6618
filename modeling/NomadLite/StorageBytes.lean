import NomadLite.BigEndian
import NomadLite.Storage

/-!
# The storage on byte strings

The database is a map on byte strings that is iterated in lexicographic order. Log
entries are stored under a common first part followed by the index in big-endian form,
so that a scan from the key of an index meets the entries above it in order and then a
key of another kind. `Represents` says that a database holds what a `Disk` holds, and
every operation of the storage does to the one what it does to the other. The JSON
encodings enter as a `StorageLib`.
-/

namespace NomadLite

open BigEndian OrderedScan

/-- `to_vec` and `from_slice` of `serde_json` for one type. -/
structure Json (α : Type) where
  toVec : α → Bytes
  fromSlice : Bytes → Option α
  fromSlice_toVec : ∀ a, fromSlice (toVec a) = some a

structure StorageLib where
  votedFor : Json (Option ℕ)
  entry : Json LogEntry
  snapshot : Json Snapshot

abbrev Db := Finmap (fun _ : Bytes => Bytes)

/-- What `load` panics over. -/
inductive StorageFailure where
  | invalidTerm
  | invalidVotedFor
  | invalidLogOffset
  | invalidSnapshot
  | invalidEntry
deriving DecidableEq

namespace RaftStorage

/-! ### Keys -/

def ascii (s : String) : Bytes :=
  s.toList.map fun c => ⟨c.toNat % 256, Nat.mod_lt _ (by decide)⟩

def termKey : Bytes := ascii "term"

def votedForKey : Bytes := ascii "voted_for"

def logOffsetKey : Bytes := ascii "log_offset"

def snapshotKey : Bytes := ascii "snapshot"

def logPrefix : Bytes := ascii "log\x00"

def logKey (index : ℕ) : Bytes := logPrefix ++ toBytes 8 index

/-! ### Operations -/

variable (lib : StorageLib)

def saveHardState (db : Db) (term : ℕ) (votedFor : Option ℕ) (logOffset : ℕ) : Db :=
  ((db.insert termKey (toBytes 8 term)).insert votedForKey (lib.votedFor.toVec votedFor)).insert
    logOffsetKey (toBytes 8 logOffset)

def appendEntry (db : Db) (entry : LogEntry) : Db :=
  db.insert (logKey entry.index) (lib.entry.toVec entry)

def deleteAll (db : Db) (keys : List Bytes) : Db := keys.foldl (fun db key => db.erase key) db

def truncateFrom (db : Db) (fromIndex : ℕ) : Db :=
  deleteAll db (((pairsFrom db (logKey fromIndex)).takeWhile fun kv =>
    logPrefix.isPrefixOf kv.1).map Prod.fst)

def saveSnapshot (db : Db) (snapshot : Snapshot) (logOffset : ℕ) : Db :=
  let db := (db.insert snapshotKey (lib.snapshot.toVec snapshot)).insert logOffsetKey
    (toBytes 8 logOffset)
  if 0 < logOffset then
    deleteAll db (((pairsFrom db (logKey 1)).takeWhile fun kv =>
      decide (kv.1 < logKey (logOffset + 1)) && logPrefix.isPrefixOf kv.1).map Prod.fst)
  else db

def fromBeBytes (bytes : Bytes) : Option ℕ :=
  if bytes.length = 8 then some (ofBytes bytes) else none

def decode {α : Type} (read : Bytes → Option α) (failure : StorageFailure) (bytes : Bytes) :
    Except StorageFailure α :=
  (read bytes).elim (.error failure) .ok

def load (db : Db) : Except StorageFailure (Option PersistedState) := do
  let some termBytes := db.lookup termKey | return none
  let term ← decode fromBeBytes .invalidTerm termBytes
  let votedFor ← (db.lookup votedForKey).elim (.ok none)
    (decode lib.votedFor.fromSlice .invalidVotedFor)
  let logOffset ← (db.lookup logOffsetKey).elim (.ok 0) (decode fromBeBytes .invalidLogOffset)
  let snapshot ← (db.lookup snapshotKey).elim (.ok none) fun bytes =>
    (decode lib.snapshot.fromSlice .invalidSnapshot bytes).map some
  let log ← ((pairsFrom db (logKey (logOffset + 1))).takeWhile fun kv =>
    logPrefix.isPrefixOf kv.1).mapM fun kv => decode lib.entry.fromSlice .invalidEntry kv.2
  return some ⟨term, votedFor, logOffset, snapshot, log⟩

/-! ### The order of the keys -/

def headKeys : List Bytes := [termKey, votedForKey, logOffsetKey, snapshotKey]

/-- A key after those of the log entries and before the others. -/
def logEnd : Bytes := ascii "log\x01"

theorem logKey_eq (i : ℕ) : logKey i = 108 :: 111 :: 103 :: 0 :: toBytes 8 i := rfl

theorem logKey_lt_logKey {i j : ℕ} (hi : i < 2 ^ 64) (hj : j < 2 ^ 64) :
    logKey i < logKey j ↔ i < j := by
  rw [logKey_eq, logKey_eq, List.cons_lt_cons_self, List.cons_lt_cons_self,
    List.cons_lt_cons_self, List.cons_lt_cons_self]
  exact toBytes_lt_toBytes hi hj

theorem logKey_inj {i j : ℕ} (hi : i < 2 ^ 64) (hj : j < 2 ^ 64) (h : logKey i = logKey j) :
    i = j :=
  toBytes_inj hi hj (List.append_cancel_left h)

theorem logKey_lt_logEnd (i : ℕ) : logKey i < logEnd := by
  rw [logKey_eq, show logEnd = [108, 111, 103, 1] from rfl, List.cons_lt_cons_self,
    List.cons_lt_cons_self, List.cons_lt_cons_self, List.cons_lt_cons_iff]
  exact .inl (by decide)

theorem logEnd_le_of_mem : ∀ k ∈ headKeys, logEnd ≤ k := by decide

theorem logKey_lt_of_mem (i : ℕ) {k : Bytes} (hk : k ∈ headKeys) : logKey i < k :=
  (logKey_lt_logEnd i).trans_le (logEnd_le_of_mem k hk)

theorem isPrefixOf_logKey (i : ℕ) : logPrefix.isPrefixOf (logKey i) = true :=
  List.isPrefixOf_iff_prefix.mpr (List.prefix_append ..)

theorem not_isPrefixOf_of_mem : ∀ k ∈ headKeys, logPrefix.isPrefixOf k = false := by decide

/-! ### Representing a disk -/

def put (db : Db) : DiskWrite → Db
  | .putTerm term => db.insert termKey (toBytes 8 term)
  | .putVotedFor votedFor => db.insert votedForKey (lib.votedFor.toVec votedFor)
  | .putLogOffset logOffset => db.insert logOffsetKey (toBytes 8 logOffset)
  | .putSnapshot snapshot => db.insert snapshotKey (lib.snapshot.toVec snapshot)
  | .putEntry entry => db.insert (logKey entry.index) (lib.entry.toVec entry)
  | .deleteEntry index => db.erase (logKey index)

end RaftStorage

/-- The numbers of the write are `u64`, with room for one more above the log offset. -/
def DiskWrite.Fits : DiskWrite → Prop
  | .putTerm term => term < 2 ^ 64
  | .putLogOffset logOffset => logOffset < 2 ^ 64 - 1
  | .putEntry entry => entry.index < 2 ^ 64
  | .deleteEntry index => index < 2 ^ 64
  | .putVotedFor _ | .putSnapshot _ => True

open RaftStorage

structure Disk.Represents (lib : StorageLib) (db : Db) (d : Disk) : Prop where
  term : db.lookup termKey = d.term.map (toBytes 8)
  votedFor : db.lookup votedForKey = d.votedFor.map lib.votedFor.toVec
  logOffset : db.lookup logOffsetKey = d.logOffset.map (toBytes 8)
  snapshot : db.lookup snapshotKey = d.snapshot.map lib.snapshot.toVec
  entries : ∀ i < 2 ^ 64, db.lookup (logKey i) = (d.log.lookup i).map lib.entry.toVec
  only : ∀ k ∈ db, k ∈ headKeys ∨ ∃ i < 2 ^ 64, k = logKey i
  term_lt : ∀ term ∈ d.term, term < 2 ^ 64
  logOffset_lt : ∀ logOffset ∈ d.logOffset, logOffset < 2 ^ 64 - 1
  index_lt : ∀ i ∈ d.log, i < 2 ^ 64

namespace Disk.Represents

variable {lib : StorageLib} {db : Db} {d : Disk}

theorem empty (lib : StorageLib) : Disk.empty.Represents lib ∅ where
  term := rfl
  votedFor := rfl
  logOffset := rfl
  snapshot := rfl
  entries _ _ := rfl
  only k hk := absurd hk (Finmap.notMem_empty)
  term_lt _ h := by cases h
  logOffset_lt _ h := by cases h
  index_lt i hi := absurd hi (Finmap.notMem_empty)

theorem lookup_logKey_insert (db : Db) {k : Bytes} (hk : k ∈ headKeys) (v : Bytes) (i : ℕ) :
    (db.insert k v).lookup (logKey i) = db.lookup (logKey i) :=
  Finmap.lookup_insert_of_ne _ (logKey_lt_of_mem i hk).ne

theorem mem_insert_head (h : d.Represents lib db) {k : Bytes} (hk : k ∈ headKeys) (v : Bytes) :
    ∀ k' ∈ db.insert k v, k' ∈ headKeys ∨ ∃ i < 2 ^ 64, k' = logKey i := by
  intro k' hk'
  rcases Finmap.mem_insert.mp hk' with rfl | hmem
  · exact .inl hk
  · exact h.only k' hmem

theorem lookup_head_insert (db : Db) {k : Bytes} (hk : k ∈ headKeys) (i : ℕ) (v : Bytes) :
    (db.insert (logKey i) v).lookup k = db.lookup k :=
  Finmap.lookup_insert_of_ne _ (logKey_lt_of_mem i hk).ne'

theorem lookup_head_erase (db : Db) {k : Bytes} (hk : k ∈ headKeys) (i : ℕ) :
    (db.erase (logKey i)).lookup k = db.lookup k :=
  Finmap.lookup_erase_ne (logKey_lt_of_mem i hk).ne'

theorem putEntry (h : d.Represents lib db) {entry : LogEntry} (hindex : entry.index < 2 ^ 64) :
    (d.write (.putEntry entry)).Represents lib (put lib db (.putEntry entry)) where
  term := (lookup_head_insert db (by decide) ..).trans h.term
  votedFor := (lookup_head_insert db (by decide) ..).trans h.votedFor
  logOffset := (lookup_head_insert db (by decide) ..).trans h.logOffset
  snapshot := (lookup_head_insert db (by decide) ..).trans h.snapshot
  entries i hi := by
    change (db.insert (logKey entry.index) _).lookup _ =
      ((d.log.insert entry.index entry).lookup i).map _
    by_cases heq : i = entry.index
    · rw [heq, Finmap.lookup_insert, Finmap.lookup_insert, Option.map_some]
    · rw [Finmap.lookup_insert_of_ne _ heq,
        Finmap.lookup_insert_of_ne _ fun hkey => heq (logKey_inj hi hindex hkey), h.entries i hi]
  only k hk := by
    rcases Finmap.mem_insert.mp hk with rfl | hmem
    · exact .inr ⟨_, hindex, rfl⟩
    · exact h.only k hmem
  term_lt := h.term_lt
  logOffset_lt := h.logOffset_lt
  index_lt i hi := by
    rcases Finmap.mem_insert.mp hi with rfl | hmem
    · exact hindex
    · exact h.index_lt i hmem

theorem deleteEntry (h : d.Represents lib db) {index : ℕ} (hindex : index < 2 ^ 64) :
    (d.write (.deleteEntry index)).Represents lib (put lib db (.deleteEntry index)) where
  term := (lookup_head_erase db (by decide) _).trans h.term
  votedFor := (lookup_head_erase db (by decide) _).trans h.votedFor
  logOffset := (lookup_head_erase db (by decide) _).trans h.logOffset
  snapshot := (lookup_head_erase db (by decide) _).trans h.snapshot
  entries i hi := by
    change (db.erase (logKey index)).lookup _ = ((d.log.erase index).lookup i).map _
    by_cases heq : i = index
    · rw [heq, Finmap.lookup_erase, Finmap.lookup_erase, Option.map_none]
    · rw [Finmap.lookup_erase_ne heq,
        Finmap.lookup_erase_ne fun hkey => heq (logKey_inj hi hindex hkey), h.entries i hi]
  only k hk := h.only k (Finmap.mem_erase.mp hk).2
  term_lt := h.term_lt
  logOffset_lt := h.logOffset_lt
  index_lt i hi := h.index_lt i (Finmap.mem_erase.mp hi).2

theorem put (h : d.Represents lib db) {w : DiskWrite} (hw : w.Fits) :
    (d.write w).Represents lib (put lib db w) := by
  have hne : ∀ {k k' v}, k ≠ k' → (db.insert k' v).lookup k = db.lookup k := fun hk =>
    Finmap.lookup_insert_of_ne _ hk
  cases w with
  | putTerm term =>
    exact ⟨Finmap.lookup_insert _, (hne (by decide)).trans h.votedFor,
      (hne (by decide)).trans h.logOffset, (hne (by decide)).trans h.snapshot,
      fun i hi => (lookup_logKey_insert db (by decide) _ i).trans (h.entries i hi),
      h.mem_insert_head (by decide) _, fun t ht => Option.some.inj ht ▸ hw, h.logOffset_lt,
      h.index_lt⟩
  | putVotedFor votedFor =>
    exact ⟨(hne (by decide)).trans h.term, Finmap.lookup_insert _,
      (hne (by decide)).trans h.logOffset, (hne (by decide)).trans h.snapshot,
      fun i hi => (lookup_logKey_insert db (by decide) _ i).trans (h.entries i hi),
      h.mem_insert_head (by decide) _, h.term_lt, h.logOffset_lt, h.index_lt⟩
  | putLogOffset logOffset =>
    exact ⟨(hne (by decide)).trans h.term, (hne (by decide)).trans h.votedFor,
      Finmap.lookup_insert _, (hne (by decide)).trans h.snapshot,
      fun i hi => (lookup_logKey_insert db (by decide) _ i).trans (h.entries i hi),
      h.mem_insert_head (by decide) _, h.term_lt, fun n hn => Option.some.inj hn ▸ hw,
      h.index_lt⟩
  | putSnapshot snapshot =>
    exact ⟨(hne (by decide)).trans h.term, (hne (by decide)).trans h.votedFor,
      (hne (by decide)).trans h.logOffset, Finmap.lookup_insert _,
      fun i hi => (lookup_logKey_insert db (by decide) _ i).trans (h.entries i hi),
      h.mem_insert_head (by decide) _, h.term_lt, h.logOffset_lt, h.index_lt⟩
  | putEntry entry => exact h.putEntry hw
  | deleteEntry index => exact h.deleteEntry hw

theorem putAll (h : d.Represents lib db) {ws : List DiskWrite} (hws : ∀ w ∈ ws, w.Fits) :
    (d.writeAll ws).Represents lib (ws.foldl (RaftStorage.put lib) db) := by
  induction ws generalizing db d with
  | nil => exact h
  | cons w ws ih =>
    obtain ⟨hw, hrest⟩ := List.forall_mem_cons.mp hws
    exact ih (h.put hw) hrest

/-! ### Scans -/

theorem mem_log_iff (h : d.Represents lib db) {i : ℕ} (hi : i < 2 ^ 64) :
    logKey i ∈ db ↔ i ∈ d.log := by
  rw [← Finmap.lookup_isSome, ← Finmap.lookup_isSome, h.entries i hi, Option.isSome_map]

/-- From the key of an index on there are the entries in the order of their indices, and then the
other keys. -/
theorem keysFrom_logKey (h : d.Represents lib db) {n : ℕ} (hn : n < 2 ^ 64) :
    keysFrom db (logKey n) = (keysFrom d.log n).map logKey ++ keysFrom db logEnd := by
  have hlt : ∀ {i}, i ∈ keysFrom d.log n → i < 2 ^ 64 := fun hi =>
    h.index_lt _ ((mem_keysFrom ..).mp hi).2
  refine keysFrom_eq db (logKey n) ?_ fun k => ?_
  · refine List.pairwise_append.mpr ⟨?_, pairwise_keysFrom db logEnd, fun k hk k' hk' => ?_⟩
    · refine List.pairwise_map.mpr ((pairwise_keysFrom d.log n).imp_of_mem fun hi hj hij => ?_)
      exact (logKey_lt_logKey (hlt hi) (hlt hj)).mpr hij
    · obtain ⟨i, -, rfl⟩ := List.mem_map.mp hk
      exact (logKey_lt_logEnd i).trans_le ((mem_keysFrom ..).mp hk').1
  · rw [List.mem_append, List.mem_map, mem_keysFrom]
    constructor
    · rintro (⟨i, hi, rfl⟩ | ⟨hle, hmem⟩)
      · have hbound := hlt hi
        obtain ⟨hni, hmem⟩ := (mem_keysFrom ..).mp hi
        refine ⟨not_lt.mp fun hgt => ?_, (h.mem_log_iff hbound).mpr hmem⟩
        exact not_lt.mpr hni ((logKey_lt_logKey hbound hn).mp hgt)
      · exact ⟨(logKey_lt_logEnd n).le.trans hle, hmem⟩
    · rintro ⟨hle, hmem⟩
      rcases h.only k hmem with hhead | ⟨i, hi, rfl⟩
      · exact .inr ⟨logEnd_le_of_mem k hhead, hmem⟩
      · refine .inl ⟨i, (mem_keysFrom ..).mpr ⟨not_lt.mp fun hgt => ?_, ?_⟩, rfl⟩
        · exact not_lt.mpr hle ((logKey_lt_logKey hi hn).mpr hgt)
        · exact (h.mem_log_iff hi).mp hmem

theorem mem_headKeys_of_logEnd_le (h : d.Represents lib db) {k : Bytes}
    (hk : k ∈ keysFrom db logEnd) : k ∈ headKeys := by
  obtain ⟨hle, hmem⟩ := (mem_keysFrom ..).mp hk
  rcases h.only k hmem with hhead | ⟨i, -, rfl⟩
  · exact hhead
  · exact absurd (logKey_lt_logEnd i) (not_lt.mpr hle)

/-- A scan that stops at keys of another kind is a scan of the log. -/
theorem takeWhile_keysFrom (h : d.Represents lib db) {n : ℕ} (hn : n < 2 ^ 64) {p : Bytes → Bool}
    {q : ℕ → Bool} (hlog : ∀ i < 2 ^ 64, p (logKey i) = q i)
    (hhead : ∀ k ∈ headKeys, p k = false) :
    (keysFrom db (logKey n)).takeWhile p = ((keysFrom d.log n).takeWhile q).map logKey := by
  have hrest : (keysFrom db logEnd).takeWhile p = [] := by
    cases hkeys : keysFrom db logEnd with
    | nil => rfl
    | cons k ks =>
      have hk : k ∈ headKeys := h.mem_headKeys_of_logEnd_le (hkeys ▸ List.mem_cons_self ..)
      exact List.takeWhile_cons_of_neg (by rw [hhead k hk]; exact Bool.false_ne_true)
  rw [h.keysFrom_logKey hn]
  exact takeWhile_map_append (fun i hi => hlog i (h.index_lt i ((mem_keysFrom ..).mp hi).2)) hrest

theorem takeWhile_isPrefixOf (h : d.Represents lib db) {n : ℕ} (hn : n < 2 ^ 64) :
    (keysFrom db (logKey n)).takeWhile logPrefix.isPrefixOf = (keysFrom d.log n).map logKey := by
  rw [h.takeWhile_keysFrom hn (fun i _ => isPrefixOf_logKey i) not_isPrefixOf_of_mem]
  congr 1
  exact List.takeWhile_eq_self_iff.mpr fun _ _ => rfl

theorem map_fst_takeWhile (db : Db) (start : Bytes) (p : Bytes → Bool) :
    ((pairsFrom db start).takeWhile fun kv => p kv.1).map Prod.fst =
      (keysFrom db start).takeWhile p := by
  have hmem : ∀ k ∈ keysFrom db start, k ∈ db := fun k hk => ((mem_keysFrom ..).mp hk).2
  rw [pairsFrom, takeWhile_pairs hmem,
    map_fst_pairs fun k hk => hmem k ((List.takeWhile_prefix p).subset hk)]

theorem deleteAll_logKey (lib : StorageLib) (db : Db) (indices : List ℕ) :
    deleteAll db (indices.map logKey) =
      (indices.map DiskWrite.deleteEntry).foldl (RaftStorage.put lib) db := by
  rw [deleteAll, List.foldl_map, List.foldl_map]
  rfl

/-! ### The operations -/

theorem saveHardState (h : d.Represents lib db) {term logOffset : ℕ} (hterm : term < 2 ^ 64)
    (hoffset : logOffset < 2 ^ 64 - 1) (votedFor : Option ℕ) :
    (d.writeAll (Disk.saveHardState term votedFor logOffset)).Represents lib
      (RaftStorage.saveHardState lib db term votedFor logOffset) :=
  ((h.put (w := .putTerm term) hterm).put (w := .putVotedFor votedFor) trivial).put
    (w := .putLogOffset logOffset) hoffset

theorem appendEntry (h : d.Represents lib db) {entry : LogEntry} (hindex : entry.index < 2 ^ 64) :
    (d.writeAll (Disk.appendEntry entry)).Represents lib (RaftStorage.appendEntry lib db entry) :=
  h.putEntry hindex

theorem fits_deletes (h : d.Represents lib db) {indices : List ℕ}
    (hmem : ∀ i ∈ indices, i ∈ d.log) : ∀ w ∈ indices.map DiskWrite.deleteEntry, w.Fits := by
  intro w hw
  obtain ⟨i, hi, rfl⟩ := List.mem_map.mp hw
  exact h.index_lt i (hmem i hi)

theorem truncateFrom (h : d.Represents lib db) {fromIndex : ℕ} (hfrom : fromIndex < 2 ^ 64) :
    (d.writeAll (d.truncateFrom fromIndex)).Represents lib
      (RaftStorage.truncateFrom db fromIndex) := by
  rw [RaftStorage.truncateFrom, map_fst_takeWhile, h.takeWhile_isPrefixOf hfrom,
    deleteAll_logKey lib]
  exact h.putAll (h.fits_deletes fun i hi => ((mem_keysFrom ..).mp hi).2)

theorem saveSnapshot (h : d.Represents lib db) {logOffset : ℕ} (hoffset : logOffset < 2 ^ 64 - 1)
    (snapshot : Snapshot) :
    (d.writeAll (d.saveSnapshot snapshot logOffset)).Represents lib
      (RaftStorage.saveSnapshot lib db snapshot logOffset) := by
  have hhead : (d.writeAll [.putSnapshot snapshot, .putLogOffset logOffset]).Represents lib
      ((db.insert snapshotKey (lib.snapshot.toVec snapshot)).insert logOffsetKey
        (toBytes 8 logOffset)) :=
    (h.put (w := .putSnapshot snapshot) trivial).put (w := .putLogOffset logOffset) hoffset
  rw [Disk.saveSnapshot, writeAll_append, RaftStorage.saveSnapshot]
  split_ifs with hpos
  · have hbelow : ∀ i < 2 ^ 64, (decide (logKey i < logKey (logOffset + 1)) &&
        logPrefix.isPrefixOf (logKey i)) = decide (i < logOffset + 1) := fun i hi => by
      rw [isPrefixOf_logKey, Bool.and_true]
      exact decide_eq_decide.mpr (logKey_lt_logKey hi (by omega))
    have hother : ∀ k ∈ headKeys, (decide (k < logKey (logOffset + 1)) &&
        logPrefix.isPrefixOf k) = false := fun k hk => by
      rw [not_isPrefixOf_of_mem k hk, Bool.and_false]
    rw [map_fst_takeWhile _ _ fun k => decide (k < logKey (logOffset + 1)) &&
      logPrefix.isPrefixOf k, hhead.takeWhile_keysFrom (by omega) hbelow hother,
      deleteAll_logKey lib]
    refine hhead.putAll (hhead.fits_deletes fun i hi => ?_)
    exact ((mem_keysFrom ..).mp ((List.takeWhile_prefix _).subset hi)).2
  · exact hhead

/-! ### Loading -/

theorem fromBeBytes_toBytes {v : ℕ} (h : v < 2 ^ 64) : fromBeBytes (toBytes 8 v) = some v := by
  rw [fromBeBytes, if_pos (length_toBytes 8 v), ofBytes_toBytes h]

theorem decode_of_some {α : Type} {read : Bytes → Option α} {bytes : Bytes} {a : α}
    (h : read bytes = some a) (failure : StorageFailure) : decode read failure bytes = .ok a := by
  rw [decode, h]
  rfl

theorem mapM_entries (h : d.Represents lib db) {indices : List ℕ}
    (hlt : ∀ i ∈ indices, i < 2 ^ 64) :
    ((indices.map logKey).filterMap (pairAt db)).mapM
        (fun kv => decode lib.entry.fromSlice .invalidEntry kv.2) =
      .ok (indices.filterMap d.log.lookup) := by
  induction indices with
  | nil => rfl
  | cons i indices ih =>
    obtain ⟨hi, hrest⟩ := List.forall_mem_cons.mp hlt
    have hpair : pairAt db (logKey i) =
        (d.log.lookup i).map fun e => (logKey i, lib.entry.toVec e) := by
      -- the scan decides the equality of keys by their order
      unfold pairAt
      convert congrArg (Option.map fun v => (logKey i, v)) (h.entries i hi) using 1
      · congr
      · exact (Option.map_map ..).symm
    rw [List.map_cons, List.filterMap_cons, List.filterMap_cons, hpair]
    cases d.log.lookup i with
    | none => exact ih hrest
    | some e =>
      simp only [Option.map_some, List.mapM_cons, ih hrest,
        decode_of_some (lib.entry.fromSlice_toVec e)]
      rfl

theorem mapM_pairsFrom (h : d.Represents lib db) {n : ℕ} (hn : n < 2 ^ 64) :
    ((pairsFrom db (logKey n)).takeWhile fun kv => logPrefix.isPrefixOf kv.1).mapM
        (fun kv => decode lib.entry.fromSlice .invalidEntry kv.2) =
      .ok (scanFrom d.log n) := by
  have hmem : ∀ k ∈ keysFrom db (logKey n), k ∈ db := fun k hk => ((mem_keysFrom ..).mp hk).2
  rw [pairsFrom, takeWhile_pairs hmem, h.takeWhile_isPrefixOf hn, h.mapM_entries fun i hi =>
    h.index_lt i ((mem_keysFrom ..).mp hi).2, scanFrom]

theorem load (h : d.Represents lib db) : RaftStorage.load lib db = .ok d.load := by
  rw [RaftStorage.load, Disk.load, h.term]
  cases hterm : d.term with
  | none => rfl
  | some term =>
    have hvoted : (db.lookup votedForKey).elim (.ok none)
        (decode lib.votedFor.fromSlice .invalidVotedFor) = .ok (d.votedFor.getD none) := by
      rw [h.votedFor]
      cases d.votedFor with
      | none => rfl
      | some votedFor => exact decode_of_some (lib.votedFor.fromSlice_toVec votedFor) _
    have hoffset : (db.lookup logOffsetKey).elim (.ok 0) (decode fromBeBytes .invalidLogOffset) =
        .ok (d.logOffset.getD 0) ∧ d.logOffset.getD 0 < 2 ^ 64 - 1 := by
      rw [h.logOffset]
      cases hoff : d.logOffset with
      | none => exact ⟨rfl, by decide⟩
      | some logOffset =>
        have hlt := h.logOffset_lt logOffset hoff
        exact ⟨decode_of_some (fromBeBytes_toBytes (by omega)) .invalidLogOffset, hlt⟩
    have hsnapshot : ((db.lookup snapshotKey).elim (.ok none) fun bytes =>
        (decode lib.snapshot.fromSlice .invalidSnapshot bytes).map some) = .ok d.snapshot := by
      rw [h.snapshot]
      cases d.snapshot with
      | none => rfl
      | some snapshot =>
        exact congrArg (Except.map some) (decode_of_some (lib.snapshot.fromSlice_toVec snapshot) _)
    have hlog := h.mapM_pairsFrom (n := d.logOffset.getD 0 + 1) (by omega)
    simp only [Option.map_some, decode_of_some (fromBeBytes_toBytes (h.term_lt term hterm)),
      hvoted, hoffset.1, hsnapshot, hlog, bind, Except.bind, pure, Except.pure]

end Disk.Represents
end NomadLite
