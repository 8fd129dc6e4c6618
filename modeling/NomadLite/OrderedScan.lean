import Mathlib.Data.Finmap
import Mathlib.Data.List.Sort
import Mathlib.Data.List.TakeWhile

/-!
# Ordered scans of a finite map

A store that keeps its keys in order can be read from a key upwards. The scan of a
map from a base is determined by the lookups: if the keys from the base on are used
without a gap, it returns the values in their order.
-/

namespace OrderedScan

section Keys

variable {K V : Type*} [LinearOrder K]

def keysFrom (m : Finmap (fun _ : K => V)) (base : K) : List K :=
  Quot.liftOn m.keys.val (fun l => (l.filter (base ≤ ·)).insertionSort (· ≤ ·)) fun _ _ h =>
    List.Perm.eq_of_pairwise' (r := (· ≤ ·)) (List.pairwise_insertionSort _ _)
      (List.pairwise_insertionSort _ _)
      ((List.perm_insertionSort _ _).trans
        ((h.filter _).trans (List.perm_insertionSort _ _).symm))

def scanFrom (m : Finmap (fun _ : K => V)) (base : K) : List V :=
  (keysFrom m base).filterMap m.lookup

def pairAt (m : Finmap (fun _ : K => V)) (k : K) : Option (K × V) :=
  (m.lookup k).map fun v => (k, v)

def pairsFrom (m : Finmap (fun _ : K => V)) (base : K) : List (K × V) :=
  (keysFrom m base).filterMap (pairAt m)

variable (m : Finmap (fun _ : K => V)) (base : K)

theorem exists_keysFrom_eq : ∃ l : List K, l.Nodup ∧ (∀ k, k ∈ l ↔ k ∈ m) ∧
    keysFrom m base = (l.filter (base ≤ ·)).insertionSort (· ≤ ·) := by
  obtain ⟨l, hl⟩ := Quot.exists_rep m.keys.val
  refine ⟨l, ?_, fun k => ?_, ?_⟩
  · have hnodup := m.keys.nodup
    rw [← hl] at hnodup
    exact hnodup
  · rw [← Finmap.mem_keys, ← Finset.mem_val, ← hl]
    rfl
  · rw [keysFrom, ← hl]

theorem mem_keysFrom {k : K} : k ∈ keysFrom m base ↔ base ≤ k ∧ k ∈ m := by
  obtain ⟨l, -, hmem, heq⟩ := exists_keysFrom_eq m base
  rw [heq, List.mem_insertionSort, List.mem_filter, hmem, decide_eq_true_iff, and_comm]

theorem pairwise_keysFrom : (keysFrom m base).Pairwise (· < ·) := by
  obtain ⟨l, hnodup, -, heq⟩ := exists_keysFrom_eq m base
  have hsorted := List.pairwise_insertionSort (· ≤ ·) (l.filter (base ≤ ·))
  have hdistinct : ((l.filter (base ≤ ·)).insertionSort (· ≤ ·)).Nodup :=
    (List.perm_insertionSort _ _).nodup_iff.mpr (hnodup.filter _)
  rw [heq]
  exact (hsorted.and hdistinct).imp fun h => lt_of_le_of_ne h.1 h.2

theorem keysFrom_eq {l : List K} (hl : l.Pairwise (· < ·))
    (hmem : ∀ k, k ∈ l ↔ base ≤ k ∧ k ∈ m) : keysFrom m base = l := by
  have hnodup := (pairwise_keysFrom m base).imp fun h => ne_of_lt h
  have hperm : (keysFrom m base).Perm l := by
    refine (List.perm_ext_iff_of_nodup hnodup (hl.imp fun h => ne_of_lt h)).mpr fun k => ?_
    rw [mem_keysFrom, hmem]
  exact List.Perm.eq_of_pairwise' (r := (· < ·)) (pairwise_keysFrom m base) hl hperm

theorem mem_scanFrom {v : V} : v ∈ scanFrom m base ↔ ∃ k, base ≤ k ∧ m.lookup k = some v := by
  rw [scanFrom, List.mem_filterMap]
  constructor
  · rintro ⟨k, hk, hv⟩
    exact ⟨k, ((mem_keysFrom ..).mp hk).1, hv⟩
  · rintro ⟨k, hle, hv⟩
    have hmem : k ∈ m := Finmap.lookup_isSome.mp (by rw [hv]; rfl)
    exact ⟨k, (mem_keysFrom ..).mpr ⟨hle, hmem⟩, hv⟩

theorem pairwise_scanFrom {key : V → K}
    (hkey : ∀ k v, base ≤ k → m.lookup k = some v → key v = k) :
    (scanFrom m base).Pairwise fun v w => key v < key w := by
  refine List.pairwise_filterMap.mpr ((pairwise_keysFrom m base).imp_of_mem ?_)
  intro k k' hk hk' hlt v hv w hw
  rwa [hkey k v ((mem_keysFrom ..).mp hk).1 hv, hkey k' w ((mem_keysFrom ..).mp hk').1 hw]

omit [LinearOrder K] in
/-- In an increasing list the elements below a bound come first. -/
theorem mem_takeWhile_lt [Preorder K] [DecidableLT K] {l : List K} (hl : l.Pairwise (· < ·))
    {k bound : K} : k ∈ l.takeWhile (· < bound) ↔ k ∈ l ∧ k < bound := by
  induction l with
  | nil => simp
  | cons a l ih =>
    obtain ⟨ha, htail⟩ := List.pairwise_cons.mp hl
    rw [List.takeWhile_cons]
    by_cases hlt : a < bound
    · rw [if_pos (decide_eq_true hlt), List.mem_cons, ih htail, List.mem_cons]
      constructor
      · rintro (rfl | h)
        · exact ⟨.inl rfl, hlt⟩
        · exact ⟨.inr h.1, h.2⟩
      · rintro ⟨rfl | h, hk⟩
        · exact .inl rfl
        · exact .inr ⟨h, hk⟩
    · rw [if_neg (by rwa [decide_eq_true_iff])]
      refine ⟨fun h => absurd h List.not_mem_nil, ?_⟩
      rintro ⟨hmem, hk⟩
      rcases List.mem_cons.mp hmem with rfl | hmem
      · exact absurd hk hlt
      · exact absurd ((ha k hmem).trans hk) hlt

variable {m} {l : List K}

theorem exists_pairAt {k : K} (hk : k ∈ m) : ∃ v, pairAt m k = some (k, v) := by
  obtain ⟨v, hv⟩ := Option.isSome_iff_exists.mp (Finmap.lookup_isSome.mpr hk)
  exact ⟨v, by rw [pairAt, hv, Option.map_some]⟩

/-- An iterator that stops by its keys returns the keys up to there. -/
theorem takeWhile_pairs (hl : ∀ k ∈ l, k ∈ m) (p : K → Bool) :
    (l.filterMap (pairAt m)).takeWhile (fun kv => p kv.1) =
      (l.takeWhile p).filterMap (pairAt m) := by
  induction l with
  | nil => rfl
  | cons k l ih =>
    obtain ⟨hk, hrest⟩ := List.forall_mem_cons.mp hl
    obtain ⟨v, hv⟩ := exists_pairAt hk
    rw [List.filterMap_cons_some hv, List.takeWhile_cons, List.takeWhile_cons]
    split_ifs
    · rw [List.filterMap_cons_some hv, ih hrest]
    · rfl

omit [LinearOrder K] in
theorem takeWhile_map_append {I : Type*} {f : I → K} {p : K → Bool} {q : I → Bool} {is : List I}
    (hpq : ∀ i ∈ is, p (f i) = q i) (hl : l.takeWhile p = []) :
    (is.map f ++ l).takeWhile p = (is.takeWhile q).map f := by
  induction is with
  | nil => exact hl
  | cons i is ih =>
    obtain ⟨hi, hrest⟩ := List.forall_mem_cons.mp hpq
    rw [List.map_cons, List.cons_append, List.takeWhile_cons, List.takeWhile_cons, hi]
    split_ifs
    · rw [ih hrest, List.map_cons]
    · rfl

theorem map_fst_pairs (hl : ∀ k ∈ l, k ∈ m) : (l.filterMap (pairAt m)).map Prod.fst = l := by
  induction l with
  | nil => rfl
  | cons k l ih =>
    obtain ⟨hk, hrest⟩ := List.forall_mem_cons.mp hl
    obtain ⟨v, hv⟩ := exists_pairAt hk
    rw [List.filterMap_cons_some hv, List.map_cons, ih hrest]

end Keys

variable {V : Type*} {m : Finmap (fun _ : ℕ => V)} {base : ℕ} {l : List V}

theorem keysFrom_eq_range' (h : ∀ j, m.lookup (base + j) = l[j]?) :
    keysFrom m base = List.range' base l.length := by
  refine keysFrom_eq m base (List.pairwise_lt_range' ..) fun k => ?_
  rw [List.mem_range'_1, ← Finmap.lookup_isSome]
  constructor
  · rintro ⟨hle, hlt⟩
    have hget := h (k - base)
    rw [Nat.add_sub_cancel' hle, List.getElem?_eq_getElem (by omega)] at hget
    exact ⟨hle, by rw [hget]; rfl⟩
  · rintro ⟨hle, hsome⟩
    have hget := h (k - base)
    rw [Nat.add_sub_cancel' hle] at hget
    rw [hget] at hsome
    have hlt := (List.getElem?_eq_some_iff.mp (Option.some_get hsome).symm).1
    omega

theorem filterMap_range' {f : ℕ → Option V} (h : ∀ j, f (base + j) = l[j]?) :
    (List.range' base l.length).filterMap f = l := by
  induction l generalizing base with
  | nil => rfl
  | cons v l ih =>
    have hhead : f base = some v := h 0
    have htail : ∀ j, f (base + 1 + j) = l[j]? := fun j => by
      rw [Nat.add_assoc, Nat.add_comm 1 j]
      exact h (j + 1)
    rw [List.length_cons, List.range'_succ, List.filterMap_cons_some hhead, ih htail]

/-- Keys used without a gap from the base on: the scan returns the values. -/
theorem scanFrom_eq (h : ∀ j, m.lookup (base + j) = l[j]?) : scanFrom m base = l := by
  rw [scanFrom, keysFrom_eq_range' h]
  exact filterMap_range' h

end OrderedScan
