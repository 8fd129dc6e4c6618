import NomadLite.LogRequests
import NomadLite.SortedCount

/-!
# The commit rule counts replicas

The leader sorts the match indices of its peers together with its own last index and
takes the entry in the middle. At least half of the cluster, rounded up, has
reported that index or a greater one.
-/

namespace NomadLite

namespace IndexMap

theorem exists_keys (m : IndexMap) (N : ℕ) :
    ∃ F : Finset ℕ, F.card = SortedCount.reached m.sortedValues N ∧
      ∀ p ∈ F, ∃ v, m.lookup p = some v ∧ N ≤ v := by
  induction m using Finmap.induction_on with
  | _ al =>
    have hnodup : ((al.entries.filter fun e => N ≤ e.2).map Sigma.fst).Nodup :=
      al.nodupKeys.sublist List.filter_sublist
    refine ⟨((al.entries.filter fun e => N ≤ e.2).map Sigma.fst).toFinset, ?_, fun p hp => ?_⟩
    · change _ = ((al.entries.map Sigma.snd).insertionSort (· ≤ ·)).countP _
      rw [List.toFinset_card_of_nodup hnodup, List.length_map,
        (List.perm_insertionSort _ _).countP_eq, List.countP_map, List.countP_eq_length_filter]
      rfl
    · obtain ⟨⟨q, v⟩, he, rfl⟩ := List.mem_map.mp (List.mem_toFinset.mp hp)
      obtain ⟨hmem, hle⟩ := List.mem_filter.mp he
      exact ⟨v, AList.mem_lookup_iff.mpr hmem, of_decide_eq_true hle⟩

theorem length_sortedValues {m : IndexMap} {ps : List ℕ} (hps : ps.Nodup)
    (hkeys : ∀ p, p ∈ m ↔ p ∈ ps) : m.sortedValues.length = ps.length := by
  induction m using Finmap.induction_on with
  | _ al =>
    change ((al.entries.map Sigma.snd).insertionSort (· ≤ ·)).length = ps.length
    rw [List.length_insertionSort, List.length_map, ← List.length_map Sigma.fst]
    exact ((List.perm_ext_iff_of_nodup al.nodupKeys hps).mpr hkeys).length_eq

theorem lookup_foldl_insert (ps : List ℕ) (c : ℕ) (m : IndexMap) (p : ℕ) :
    (ps.foldl (fun m q => m.insert q c) m).lookup p = if p ∈ ps then some c else m.lookup p := by
  induction ps generalizing m with
  | nil => rfl
  | cons q ps ih =>
    rw [List.foldl_cons, ih]
    by_cases hp : p ∈ ps
    · rw [if_pos hp, if_pos (List.mem_cons_of_mem q hp)]
    · by_cases hq : p = q
      · subst hq
        rw [if_neg hp, if_pos List.mem_cons_self, Finmap.lookup_insert]
      · rw [if_neg hp, if_neg (by simp [hp, hq]), Finmap.lookup_insert_of_ne _ hq]

end IndexMap

namespace RaftState

def matchIndices (s : RaftState) : List ℕ :=
  (s.matchIndex.sortedValues ++ [s.lastLogIndex]).insertionSort (· ≤ ·)

theorem perm_matchIndices (s : RaftState) :
    s.matchIndices.Perm (s.matchIndex.sortedValues ++ [s.lastLogIndex]) :=
  List.perm_insertionSort _ _

theorem pairwise_matchIndices (s : RaftState) : s.matchIndices.Pairwise (· ≤ ·) :=
  List.pairwise_insertionSort _ _

theorem half_lt_length_matchIndices (s : RaftState) :
    s.matchIndices.length / 2 < s.matchIndices.length := by
  rw [s.perm_matchIndices.length_eq, List.length_append, List.length_singleton]
  omega

theorem length_matchIndices {s : RaftState} {ps : List ℕ} (hps : ps.Nodup)
    (hkeys : ∀ p, p ∈ s.matchIndex ↔ p ∈ ps) : s.matchIndices.length = ps.length + 1 := by
  rw [s.perm_matchIndices.length_eq, List.length_append,
    IndexMap.length_sortedValues hps hkeys, List.length_singleton]

theorem majorityIndex_eq_getElem (s : RaftState)
    (h : s.matchIndices.length / 2 < s.matchIndices.length) :
    s.majorityIndex = s.matchIndices[s.matchIndices.length / 2] := by
  change s.matchIndices.getD (s.matchIndices.length / 2) 0 = _
  rw [List.getD_eq_getElem?_getD, List.getElem?_eq_getElem h, Option.getD_some]

/-- The members of the cluster that hold the majority index, according to the leader `x`. -/
theorem exists_quorum {s : RaftState} {ps : List ℕ} {x : ℕ} (hps : ps.Nodup)
    (hx : x ∉ ps) (hkeys : ∀ p, p ∈ s.matchIndex ↔ p ∈ ps) :
    ∃ C : Finset ℕ, ps.length + 1 - (ps.length + 1) / 2 ≤ C.card ∧
      ∀ v ∈ C, v = x ∨ ∃ m, s.matchIndex.lookup v = some m ∧ s.majorityIndex ≤ m := by
  obtain ⟨F, hcard, hF⟩ := s.matchIndex.exists_keys s.majorityIndex
  have hxF : x ∉ F := by
    intro hmem
    obtain ⟨m, hm, -⟩ := hF x hmem
    exact hx ((hkeys x).mp (Finmap.mem_of_lookup_eq_some hm))
  refine ⟨insert x F, ?_, fun v hv => (Finset.mem_insert.mp hv).imp_right (hF v)⟩
  have hsort := SortedCount.length_sub_le_reached s.pairwise_matchIndices
    s.half_lt_length_matchIndices
  rw [← s.majorityIndex_eq_getElem s.half_lt_length_matchIndices,
    SortedCount.reached_perm s.perm_matchIndices, SortedCount.reached_append, ← hcard,
    length_matchIndices hps hkeys] at hsort
  have hone : SortedCount.reached [s.lastLogIndex] s.majorityIndex ≤ 1 := List.countP_le_length
  rw [Finset.card_insert_of_notMem hxF]
  omega

/-- An index that half of the peers and the leader itself have reached is at most the majority
index. -/
theorem le_majorityIndex {s : RaftState} {ps : List ℕ} {n : ℕ} (hps : ps.Nodup)
    (hkeys : ∀ p, p ∈ s.matchIndex ↔ p ∈ ps) (hlast : n ≤ s.lastLogIndex)
    (hcount : ps.length / 2 ≤ SortedCount.reached s.matchIndex.sortedValues n) :
    n ≤ s.majorityIndex := by
  by_contra hlt
  rw [s.majorityIndex_eq_getElem s.half_lt_length_matchIndices, not_le] at hlt
  have hle := SortedCount.reached_le_length_sub s.pairwise_matchIndices _ hlt
  have hone : SortedCount.reached [s.lastLogIndex] n = 1 := by
    rw [SortedCount.reached, List.countP_singleton, if_pos (decide_eq_true hlast)]
  rw [SortedCount.reached_perm s.perm_matchIndices, SortedCount.reached_append, hone,
    length_matchIndices hps hkeys] at hle
  omega

theorem majorityIndex_le {s : RaftState}
    (hmatch : ∀ p m, s.matchIndex.lookup p = some m → m ≤ s.lastLogIndex) :
    s.majorityIndex ≤ s.lastLogIndex := by
  have hmem : s.majorityIndex ∈ s.matchIndices := by
    rw [s.majorityIndex_eq_getElem s.half_lt_length_matchIndices]
    exact List.getElem_mem _
  rcases List.mem_append.mp (s.perm_matchIndices.mem_iff.mp hmem) with hvalue | hlast
  · obtain ⟨p, hp⟩ := IndexMap.mem_sortedValues.mp hvalue
    exact hmatch p _ hp
  · exact (List.mem_singleton.mp hlast).le

end RaftState
end NomadLite
