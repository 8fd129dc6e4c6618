import Mathlib.Data.Finset.Insert
import Mathlib.Data.Finset.Erase
import Mathlib.Data.Set.Insert

/-!
# A tally next to a record

A record places keys, `place k = some w`, and a tally keeps for some of the places the
set of their keys. The two are changed one after the other: `Agrees` compares them up
to the pairs for which only one of them has been changed so far.
-/

namespace Tally

variable {K W : Type*} [DecidableEq K] [DecidableEq W]

def Agrees (skip : Set (K × W)) (place : K → Option W) (tally : W → Option (Finset K)) : Prop :=
  ∀ w keys, tally w = some keys → ∀ k, (k, w) ∉ skip → (k ∈ keys ↔ place k = some w)

variable {skip skip' : Set (K × W)} {place : K → Option W} {tally : W → Option (Finset K)}
  {k : K} {w : W}

namespace Agrees

omit [DecidableEq K] [DecidableEq W] in
theorem mono (h : Agrees skip place tally) (hskip : skip ⊆ skip') : Agrees skip' place tally :=
  fun w keys hkeys k hk => h w keys hkeys k fun hmem => hk (hskip hmem)

omit [DecidableEq K] in
theorem reset (h : Agrees skip place tally) (hplace : ∀ k, place k ≠ some w) :
    Agrees skip place (Function.update tally w (some ∅)) := by
  intro w' keys hkeys k hk
  by_cases hw : w' = w
  · subst hw
    rw [Function.update_self] at hkeys
    obtain rfl := Option.some.inj hkeys
    simp [hplace k]
  · rw [Function.update_of_ne hw] at hkeys
    exact h w' keys hkeys k hk

omit [DecidableEq W] in
theorem place_some (h : Agrees skip place tally) (hk : place k = none) (w : W) :
    Agrees (insert (k, w) skip) (Function.update place k (some w)) tally := by
  intro w' keys hkeys k' hk'
  obtain ⟨hne, hskip⟩ := not_or.mp hk'
  have hiff := h w' keys hkeys k' hskip
  by_cases heq : k' = k
  · subst heq
    have hw : w ≠ w' := fun hw => hne (by rw [hw])
    rw [Function.update_self, hiff, hk]
    simp [hw]
  · rwa [Function.update_of_ne heq]

omit [DecidableEq W] in
theorem place_none (h : Agrees skip place tally) (hk : ∀ w' ∈ place k, w' = w) :
    Agrees (insert (k, w) skip) (Function.update place k none) tally := by
  intro w' keys hkeys k' hk'
  obtain ⟨hne, hskip⟩ := not_or.mp hk'
  have hiff := h w' keys hkeys k' hskip
  by_cases heq : k' = k
  · subst heq
    have hw : place k' ≠ some w' := fun hw => hne (by rw [hk w' hw])
    rw [Function.update_self, hiff]
    simp [hw]
  · rwa [Function.update_of_ne heq]

theorem follow {f : Finset K → Finset K} (h : Agrees (insert (k, w) skip) place tally)
    (hself : ∀ keys, k ∈ f keys ↔ place k = some w)
    (hother : ∀ keys, ∀ k' ≠ k, k' ∈ f keys ↔ k' ∈ keys) :
    Agrees skip place (Function.update tally w ((tally w).map f)) := by
  intro w' keys hkeys k' hk'
  by_cases hw : w' = w
  · subst hw
    rw [Function.update_self] at hkeys
    obtain ⟨old, hold, rfl⟩ := Option.map_eq_some_iff.mp hkeys
    by_cases heq : k' = k
    · subst heq
      exact hself old
    · rw [hother old k' heq]
      exact h w' old hold k' (not_or.mpr ⟨fun hpair => heq (Prod.mk.inj hpair).1, hk'⟩)
  · rw [Function.update_of_ne hw] at hkeys
    exact h w' keys hkeys k' (not_or.mpr ⟨fun hpair => hw (Prod.mk.inj hpair).2, hk'⟩)

theorem insert (h : Agrees (insert (k, w) skip) place tally) (hk : place k = some w) :
    Agrees skip place (Function.update tally w ((tally w).map (Insert.insert k))) :=
  h.follow (by simp [hk]) fun keys k' hne => by simp [hne]

theorem erase (h : Agrees (Insert.insert (k, w) skip) place tally) (hk : place k ≠ some w) :
    Agrees skip place (Function.update tally w ((tally w).map (·.erase k))) :=
  h.follow (by simp [hk]) fun keys k' hne => by simp [hne]

end Agrees
end Tally
