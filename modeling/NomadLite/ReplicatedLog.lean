import Mathlib.Data.List.Infix
import Mathlib.Data.Set.Insert
import Mathlib.Order.Basic
import Mathlib.Tactic.Common

/-!
# Logs anchored in the logs of leaders

A leader of a term only appends to its log, and everybody else copies from leaders.
A log is anchored when each of its entries, with all that precedes it, is a prefix
of the log of the leader of the entry's term. Anchored logs that agree on the term
of an entry agree on everything up to it.
-/

namespace ReplicatedLog

variable {E : Type*} {tm : E → ℕ}

/-- Each entry of `h` and what precedes it come from the log of the leader of its term. -/
def Anchored (tm : E → ℕ) (leader : ℕ → Option (List E)) (h : List E) : Prop :=
  ∀ i e, h[i]? = some e → ∃ L, leader (tm e) = some L ∧ h.take (i + 1) <+: L

def Matching (tm : E → ℕ) (h h' : List E) : Prop :=
  ∀ i e e', h[i]? = some e → h'[i]? = some e' → tm e = tm e' → h.take (i + 1) = h'.take (i + 1)

def LeadersGrow (tm : E → ℕ) (leader leader' : ℕ → Option (List E)) : Prop :=
  ∀ T L, leader T = some L → ∃ ext, leader' T = some (L ++ ext) ∧ ∀ e ∈ ext, tm e = T

def lastTerm (tm : E → ℕ) (h : List E) : ℕ := (h.getLast?.map tm).getD 0

variable {leader leader' leader'' : ℕ → Option (List E)} {h h' L : List E}

theorem take_length_eq_iff : h.take h'.length = h' ↔
    ∀ i, 0 < i → i ≤ h'.length → h[i - 1]? = h'[i - 1]? := by
  constructor
  · intro htake i hpos hle
    rw [← htake, List.getElem?_take_of_lt (by omega)]
  · intro hall
    refine List.ext_getElem? fun j => ?_
    rcases lt_or_ge j h'.length with hlt | hge
    · rw [List.getElem?_take_of_lt hlt]
      exact hall (j + 1) (Nat.succ_pos j) hlt
    · rw [List.getElem?_take_eq_none hge, List.getElem?_eq_none hge]

theorem LeadersGrow.refl (leader : ℕ → Option (List E)) : LeadersGrow tm leader leader :=
  fun _ _ hL => ⟨[], by rwa [List.append_nil], fun _ he => absurd he List.not_mem_nil⟩

theorem LeadersGrow.trans (h₁ : LeadersGrow tm leader leader')
    (h₂ : LeadersGrow tm leader' leader'') : LeadersGrow tm leader leader'' := by
  intro T L hL
  obtain ⟨ext, hext, hterm⟩ := h₁ T L hL
  obtain ⟨ext', hext', hterm'⟩ := h₂ T _ hext
  refine ⟨ext ++ ext', by rwa [← List.append_assoc], fun e he => ?_⟩
  rcases List.mem_append.mp he with he | he
  · exact hterm e he
  · exact hterm' e he

theorem getElem?_of_isPrefix (hp : h <+: h') {i : ℕ} {e : E} (he : h[i]? = some e) :
    h'[i]? = some e := by
  obtain ⟨t, rfl⟩ := hp
  rw [List.getElem?_append_left (List.getElem?_eq_some_iff.mp he).1]
  exact he

theorem matching_of_isPrefix (hp : h' <+: h) : Matching tm h h' := by
  intro i e e' _ he' _
  obtain ⟨t, rfl⟩ := hp
  exact List.take_append_of_le_length (List.getElem?_eq_some_iff.mp he').1

theorem Matching.take (hmatch : Matching tm h h') (n : ℕ) : Matching tm (h.take n) h' := by
  intro i e e' he he' htm
  have hlt : i < n := by
    have := (List.getElem?_eq_some_iff.mp he).1
    rw [List.length_take] at this
    omega
  rw [List.getElem?_take_of_lt hlt] at he
  rw [List.take_take, min_eq_left hlt]
  exact hmatch i e e' he he' htm

theorem Matching.overwrite (hmatch : Matching tm h h') {n : ℕ} (hn : n ≤ h'.length) :
    Matching tm (h'.take n ++ h.drop n) h' := by
  have hlength : (h'.take n).length = n := List.length_take_of_le hn
  intro i e e' he he' htm
  rcases Nat.lt_or_ge i n with hlt | hge
  · rw [List.take_append_of_le_length (by omega), List.take_take, min_eq_left hlt]
  · rw [List.getElem?_append_right (by omega), List.getElem?_drop, hlength,
      Nat.add_sub_cancel' hge] at he
    have htake := hmatch i e e' he he' htm
    have hdrop : (h.drop n).take (i + 1 - n) = (h'.drop n).take (i + 1 - n) := by
      rw [← List.drop_take, ← List.drop_take, htake]
    rw [List.take_append, List.take_of_length_le (by omega), hlength, hdrop, ← List.take_add,
      Nat.add_sub_cancel' (by omega)]

namespace Anchored

theorem nil : Anchored tm leader [] := by
  intro i e he
  rw [List.getElem?_nil] at he
  cases he

theorem of_isPrefix (ha : Anchored tm leader h) (hp : h' <+: h) : Anchored tm leader h' := by
  intro i e he
  obtain ⟨L, hL, hpre⟩ := ha i e (getElem?_of_isPrefix hp he)
  refine ⟨L, hL, List.IsPrefix.trans ?_ hpre⟩
  obtain ⟨t, rfl⟩ := hp
  have hlt := (List.getElem?_eq_some_iff.mp he).1
  rw [List.take_append_of_le_length hlt]

theorem grow (ha : Anchored tm leader h) (hg : LeadersGrow tm leader leader') :
    Anchored tm leader' h := by
  intro i e he
  obtain ⟨L, hL, hpre⟩ := ha i e he
  obtain ⟨ext, hext, -⟩ := hg _ L hL
  exact ⟨L ++ ext, hext, hpre.trans (List.prefix_append _ _)⟩

theorem tm_ne (ha : Anchored tm leader h) {T : ℕ} (hnone : leader T = none) {e : E}
    (he : e ∈ h) : tm e ≠ T := by
  rintro rfl
  obtain ⟨i, hi⟩ := List.mem_iff_getElem?.mp he
  obtain ⟨L, hL, -⟩ := ha i e hi
  rw [hnone] at hL
  cases hL

/-- Anchored logs with entries of one term at one position agree up to that position. -/
theorem take_eq_take (ha : Anchored tm leader h) (ha' : Anchored tm leader h') {i : ℕ} {e e' : E}
    (he : h[i]? = some e) (he' : h'[i]? = some e') (htm : tm e = tm e') :
    h.take (i + 1) = h'.take (i + 1) := by
  obtain ⟨L, hL, hpre⟩ := ha i e he
  obtain ⟨L', hL', hpre'⟩ := ha' i e' he'
  rw [htm, hL'] at hL
  obtain rfl := Option.some.inj hL
  have hlen : (h.take (i + 1)).length = (h'.take (i + 1)).length := by
    have := (List.getElem?_eq_some_iff.mp he).1
    have := (List.getElem?_eq_some_iff.mp he').1
    rw [List.length_take, List.length_take]
    omega
  exact (List.prefix_of_prefix_length_le hpre hpre' hlen.le).eq_of_length hlen

theorem matching (ha : Anchored tm leader h) (ha' : Anchored tm leader h') : Matching tm h h' :=
  fun _ _ _ => ha.take_eq_take ha'

/-- A nonempty anchored log is a prefix of the log of the leader of its last term. -/
theorem isPrefix_leader (ha : Anchored tm leader h) (hne : h ≠ []) :
    ∃ L, leader (lastTerm tm h) = some L ∧ h <+: L := by
  have hlast := List.getLast?_eq_some_getLast hne
  have hget : h[h.length - 1]? = some (h.getLast hne) := by
    rw [← List.getLast?_eq_getElem?, hlast]
  obtain ⟨L, hL, hpre⟩ := ha _ _ hget
  have hpos := List.length_pos_of_ne_nil hne
  rw [Nat.sub_add_cancel hpos, List.take_length] at hpre
  refine ⟨L, ?_, hpre⟩
  rw [lastTerm, hlast]
  exact hL

/-- A leader that appends an entry of its own term keeps its log anchored. -/
theorem concat {T : ℕ} {e : E} (ha : Anchored tm leader L) (htm : tm e = T)
    (hg : LeadersGrow tm leader leader') (hL : leader' T = some (L ++ [e])) :
    Anchored tm leader' (L ++ [e]) := by
  intro i d hd
  rcases lt_or_ge i L.length with hlt | hge
  · rw [List.getElem?_append_left hlt] at hd
    obtain ⟨L', hL', hpre⟩ := ha.grow hg i d hd
    exact ⟨L', hL', by rwa [List.take_append_of_le_length hlt]⟩
  · have hi : i = L.length := by
      have := (List.getElem?_eq_some_iff.mp hd).1
      rw [List.length_append, List.length_singleton] at this
      omega
    subst hi
    rw [List.getElem?_concat_length] at hd
    obtain rfl := Option.some.inj hd
    exact ⟨L ++ [e], htm ▸ hL, List.take_prefix _ _⟩

end Anchored
end ReplicatedLog
