import NomadLite.Cluster
import NomadLite.NodeTransition
import Mathlib.Data.Finset.Card

/-!
# Counting the votes of a running election

`start_election` asks each connected peer once and counts the grants it receives.
Whatever a grant stands for, the count never exceeds the number of distinct voters
who gave one, the candidate included.
-/

namespace NomadLite

theorem mem_peersOf {ids : List ℕ} {x p : ℕ} : p ∈ peersOf ids x ↔ p ∈ ids ∧ p ≠ x := by
  simp [peersOf]

theorem length_peersOf {ids : List ℕ} {x : ℕ} (hids : ids.Nodup) (hx : x ∈ ids) :
    (peersOf ids x).length + 1 = ids.length := by
  have herase : peersOf ids x = ids.erase x := by
    rw [hids.erase_eq_filter, peersOf]
    exact List.filter_congr fun p _ => by by_cases hp : p = x <;> simp [hp]
  have hpos := List.length_pos_of_mem hx
  rw [herase, List.length_erase_of_mem hx]
  omega

/-- `granted v req` is what a granted vote of `v` for the request `req` establishes. -/
structure VoteCount (ids : List ℕ) (x : ℕ) (granted : ℕ → VoteRequest → Prop) (e : Election) :
    Prop where
  pending_nodup : e.pending.Nodup
  pending_peer : ∀ p ∈ e.pending, p ∈ ids ∧ p ≠ x
  voters : ∃ V : Finset ℕ, e.voteCount ≤ V.card + 1 ∧
    ∀ v ∈ V, v ∈ ids ∧ v ≠ x ∧ v ∉ e.pending ∧ granted v e.request

namespace VoteCount

variable {ids : List ℕ} {x : ℕ} {granted granted' : ℕ → VoteRequest → Prop} {e : Election}

theorem start {req : VoteRequest} {order : List ℕ} {caller : Option (ℕ × TimeoutNowRequest)}
    (hnodup : order.Nodup) (hpeers : ∀ p ∈ order, p ∈ peersOf ids x) :
    VoteCount ids x granted ⟨req, order, 1, caller⟩ where
  pending_nodup := hnodup
  pending_peer p hp := mem_peersOf.mp (hpeers p hp)
  voters := ⟨∅, by simp, by simp⟩

theorem mono (h : VoteCount ids x granted e)
    (himp : ∀ v, granted v e.request → granted' v e.request) : VoteCount ids x granted' e where
  pending_nodup := h.pending_nodup
  pending_peer := h.pending_peer
  voters := by
    obtain ⟨V, hcard, hV⟩ := h.voters
    refine ⟨V, hcard, fun v hv => ?_⟩
    obtain ⟨hmem, hne, hpend, hg⟩ := hV v hv
    exact ⟨hmem, hne, hpend, himp v hg⟩

theorem count (h : VoteCount ids x granted e) {src : ℕ} (hsrc : e.pending.head? = some src)
    {b : Bool} (hg : b = true → granted src e.request) : VoteCount ids x granted (e.count b) := by
  obtain ⟨rest, hrest⟩ : ∃ rest, e.pending = src :: rest :=
    ⟨e.pending.tail, (List.eq_cons_of_mem_head? hsrc)⟩
  have hnodup := h.pending_nodup
  rw [hrest] at hnodup
  have hsub : ∀ p, p ∉ e.pending → p ∉ (e.count b).pending := fun p hp hmem =>
    hp (List.mem_of_mem_tail hmem)
  obtain ⟨V, hcard, hV⟩ := h.voters
  have hold : ∀ v ∈ V, v ∈ ids ∧ v ≠ x ∧ v ∉ (e.count b).pending ∧ granted v e.request := by
    intro v hv
    obtain ⟨hmem, hne, hpend, hgv⟩ := hV v hv
    exact ⟨hmem, hne, hsub v hpend, hgv⟩
  refine ⟨h.pending_nodup.sublist (List.tail_sublist _),
    fun p hp => h.pending_peer p (List.mem_of_mem_tail hp), ?_⟩
  cases b with
  | false => exact ⟨V, hcard, hold⟩
  | true =>
    have hsrcV : src ∉ V := fun hmem => (hV src hmem).2.2.1 (hrest ▸ List.mem_cons_self ..)
    refine ⟨insert src V, ?_, fun v hv => ?_⟩
    · rw [Finset.card_insert_of_notMem hsrcV]
      exact Nat.succ_le_succ hcard
    · rcases Finset.mem_insert.mp hv with rfl | hv
      · obtain ⟨hmem, hne⟩ := h.pending_peer v (hrest ▸ List.mem_cons_self ..)
        refine ⟨hmem, hne, ?_, hg rfl⟩
        change v ∉ e.pending.tail
        rw [hrest]
        exact (List.nodup_cons.mp hnodup).1
      · exact hold v hv

theorem exists_majority (h : VoteCount ids x granted e) (hids : ids.Nodup) (hx : x ∈ ids)
    {n : ℕ} (hn : (peersOf ids x).length = n) (hmaj : (n + 1) / 2 + 1 ≤ e.voteCount) :
    ∃ Q : Finset ℕ, Q ⊆ ids.toFinset ∧ ids.toFinset.card / 2 + 1 ≤ Q.card ∧
      ∀ v ∈ Q, v = x ∨ granted v e.request := by
  obtain ⟨V, hcard, hV⟩ := h.voters
  have hxV : x ∉ V := fun hmem => (hV x hmem).2.1 rfl
  refine ⟨insert x V, fun v hv => ?_, ?_, fun v hv => ?_⟩
  · rcases Finset.mem_insert.mp hv with rfl | hv
    · exact List.mem_toFinset.mpr hx
    · exact List.mem_toFinset.mpr (hV v hv).1
  · rw [List.toFinset_card_of_nodup hids, Finset.card_insert_of_notMem hxV]
    have := length_peersOf hids hx
    omega
  · rcases Finset.mem_insert.mp hv with rfl | hv
    · exact .inl rfl
    · exact .inr (hV v hv).2.2.2

end VoteCount
end NomadLite
