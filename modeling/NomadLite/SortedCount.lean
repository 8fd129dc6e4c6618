import Mathlib.Data.List.Sort

/-!
# Counting in a sorted list

How many members of a list are at least a given value is read off a position of the
sorted list. The value in the middle is reached by half of the members, rounded up. It
is the greatest value that more than half of them reach unless some value is reached
by exactly half.
-/

namespace SortedCount

variable {α : Type*} [LinearOrder α]

def reached (l : List α) (a : α) : ℕ := l.countP fun b => a ≤ b

variable {l l' : List α} {a b : α} {k : ℕ}

theorem reached_perm (h : l.Perm l') (a : α) : reached l a = reached l' a := h.countP_eq _

theorem reached_append (l l' : List α) (a : α) : reached (l ++ l') a = reached l a + reached l' a :=
  List.countP_append

theorem reached_anti (h : a ≤ b) : reached l b ≤ reached l a :=
  List.countP_mono_left fun _ _ hc => decide_eq_true (h.trans (of_decide_eq_true hc))

theorem length_sub_le_reached (hl : l.Pairwise (· ≤ ·)) (hk : k < l.length) :
    l.length - k ≤ reached l l[k] := by
  have hall : ∀ v ∈ l.drop k, decide (l[k] ≤ v) = true := by
    intro v hv
    obtain ⟨j, hj, rfl⟩ := List.mem_iff_getElem.mp hv
    rw [List.length_drop] at hj
    rw [List.getElem_drop]
    rcases Nat.eq_zero_or_pos j with rfl | hpos
    · exact decide_eq_true le_rfl
    · exact decide_eq_true (List.pairwise_iff_getElem.mp hl k (k + j) hk (by omega) (by omega))
  calc l.length - k = (l.drop k).countP (fun v => l[k] ≤ v) := by
        rw [List.countP_eq_length.mpr hall, List.length_drop]
    _ ≤ reached l l[k] := (List.drop_sublist k l).countP_le

theorem reached_le_length_sub (hl : l.Pairwise (· ≤ ·)) (hk : k < l.length) (hlt : l[k] < a) :
    reached l a ≤ l.length - (k + 1) := by
  have hnone : (l.take (k + 1)).countP (fun v => a ≤ v) = 0 := by
    refine List.countP_eq_zero.mpr fun v hv => ?_
    obtain ⟨j, hj, rfl⟩ := List.mem_iff_getElem.mp hv
    rw [List.length_take] at hj
    rw [List.getElem_take, decide_eq_true_eq, not_le]
    rcases (show j ≤ k by omega).lt_or_eq with hjk | rfl
    · exact (List.pairwise_iff_getElem.mp hl j k (by omega) hk hjk).trans_lt hlt
    · exact hlt
  calc reached l a = (l.take (k + 1)).countP (fun v => a ≤ v) +
          (l.drop (k + 1)).countP (fun v => a ≤ v) := by
        rw [← List.countP_append, List.take_append_drop, reached]
    _ ≤ l.length - (k + 1) := by
        rw [hnone, Nat.zero_add, ← List.length_drop]
        exact List.countP_le_length

def IsGreatestReached (l : List α) (m : ℕ) (a : α) : Prop :=
  m ≤ reached l a ∧ ∀ b, m ≤ reached l b → b ≤ a

/-- The middle is the greatest value reached by more than half exactly when no value splits the
list into halves. -/
theorem isGreatestReached_middle_iff (hl : l.Pairwise (· ≤ ·)) (hmid : l.length / 2 < l.length) :
    IsGreatestReached l (l.length / 2 + 1) l[l.length / 2] ↔ ∀ b, 2 * reached l b ≠ l.length := by
  have hlow := length_sub_le_reached hl hmid
  constructor
  · rintro ⟨hreached, -⟩ b hhalf
    have hlt : l[l.length / 2] < b := by
      by_contra hle
      have := reached_anti (l := l) (not_lt.mp hle)
      omega
    have := reached_le_length_sub hl hmid hlt
    omega
  · intro hnone
    refine ⟨?_, fun b hb => ?_⟩
    · have := hnone l[l.length / 2]
      omega
    · by_contra hlt
      have := reached_le_length_sub hl hmid (not_le.mp hlt)
      omega

end SortedCount
