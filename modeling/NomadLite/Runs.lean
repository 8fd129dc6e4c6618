import Mathlib.Data.List.Basic

/-!
# Runs of a partial step function

A system is a step function `step : σ → α → Option σ` that refuses the actions not
enabled in a state. Safety results quantify over the states reached by steps that
all meet a condition; exact results compare two properties of one list of actions.
-/

namespace Runs

variable {σ α : Type*}

/-- The states reached from `s₀` by steps that each meet `Q` in the state before them. -/
inductive Reach (step : σ → α → Option σ) (Q : σ → α → Prop) (s₀ : σ) : σ → Prop where
  | init : Reach step Q s₀ s₀
  | next {s s' : σ} {a : α} (h : Reach step Q s₀ s) (hq : Q s a) (hs : step s a = some s') :
      Reach step Q s₀ s'

variable {step : σ → α → Option σ} {Q : σ → α → Prop} {s₀ s s' : σ}

theorem Reach.invariant {P : σ → Prop} (h : Reach step Q s₀ s) (h₀ : P s₀)
    (hstep : ∀ {s s' a}, P s → Q s a → step s a = some s' → P s') : P s := by
  induction h with
  | init => exact h₀
  | next _ hq hs ih => exact hstep ih hq hs

/-- An invariant may be proved with the help of one already established. -/
theorem Reach.invariant_of {P R : σ → Prop} (hR : ∀ {s}, Reach step Q s₀ s → R s)
    (h : Reach step Q s₀ s) (h₀ : P s₀)
    (hstep : ∀ {s s' a}, R s → R s' → P s → Q s a → step s a = some s' → P s') : P s := by
  induction h with
  | init => exact h₀
  | next hr hq hs ih => exact hstep (hR hr) (hR (hr.next hq hs)) ih hq hs

theorem Reach.mono {Q' : σ → α → Prop} (hQ : ∀ s a, Q s a → Q' s a) (h : Reach step Q s₀ s) :
    Reach step Q' s₀ s := by
  induction h with
  | init => exact .init
  | next _ hq hs ih => exact ih.next (hQ _ _ hq) hs

theorem Reach.trans (h : Reach step Q s₀ s) (h' : Reach step Q s s') : Reach step Q s₀ s' := by
  induction h' with
  | init => exact h
  | next _ hq hs ih => exact ih.next hq hs

/-- What comes to hold on the way is brought about by one of the steps. -/
theorem Reach.exists_step {P : σ → Prop} (h : Reach step Q s₀ s) (h₀ : ¬ P s₀) (hs : P s) :
    ∃ t t' a, Reach step Q s₀ t ∧ step t a = some t' ∧ Reach step Q t' s ∧ ¬ P t ∧ P t' := by
  induction h with
  | init => exact absurd hs h₀
  | @next s s' a h hq hstep ih =>
    by_cases hP : P s
    · obtain ⟨t, t', b, ht, hb, hrest, hcomes⟩ := ih hP
      exact ⟨t, t', b, ht, hb, hrest.next hq hstep, hcomes⟩
    · exact ⟨s, s', a, h, hstep, .init, hP, hs⟩

/-- A measure that can always be lowered without leaving `I` can be brought to zero. -/
theorem exists_reach_of_measure {I : σ → Prop} (m : σ → ℕ)
    (hless : ∀ s, I s → 0 < m s → ∃ s', Reach step Q s s' ∧ I s' ∧ m s' < m s) (h : I s) :
    ∃ s', Reach step Q s s' ∧ I s' ∧ m s' = 0 := by
  induction hm : m s using Nat.strongRecOn generalizing s with
  | ind n ih =>
    rcases Nat.eq_zero_or_pos n with hzero | hpos
    · exact ⟨s, .init, h, hm.trans hzero⟩
    · obtain ⟨t, hst, hI, hlt⟩ := hless s h (hm ▸ hpos)
      obtain ⟨u, htu, hu, hzero⟩ := ih (m t) (hm ▸ hlt) hI rfl
      exact ⟨u, hst.trans htu, hu, hzero⟩

/-- Execute a list of actions, stopping at one that is refused or does not meet `Q`. -/
def guardedRun (step : σ → α → Option σ) (Q : σ → α → Prop) [∀ s a, Decidable (Q s a)] :
    σ → List α → Option σ
  | s, [] => some s
  | s, a :: as => if Q s a then (step s a).bind (guardedRun step Q · as) else none

theorem reach_of_guardedRun [∀ s a, Decidable (Q s a)] {as : List α}
    (h : guardedRun step Q s as = some s') : Reach step Q s s' := by
  induction as generalizing s with
  | nil => exact Option.some.inj h ▸ .init
  | cons a as ih =>
    rw [guardedRun] at h
    split_ifs at h with hq
    obtain ⟨m, hm, hrest⟩ := Option.bind_eq_some_iff.mp h
    exact (Reach.init.next hq hm).trans (ih hrest)

theorem counted_of_guardedRun [∀ s a, Decidable (Q s a)] {P : ℕ → σ → Prop} {as : List α} {n : ℕ}
    (h : guardedRun step Q s as = some s') (h₀ : P n s)
    (hstep : ∀ {n s s' a}, P n s → Q s a → step s a = some s' → P (n + 1) s') :
    P (n + as.length) s' := by
  induction as generalizing n s with
  | nil => exact Option.some.inj h ▸ h₀
  | cons a as ih =>
    rw [guardedRun] at h
    split_ifs at h with hq
    obtain ⟨m, hm, hrest⟩ := Option.bind_eq_some_iff.mp h
    have hrun := ih hrest (hstep h₀ hq hm)
    rwa [List.length_cons, Nat.add_comm as.length, ← Nat.add_assoc]

theorem exists_reach_of_guardedRun (step : σ → α → Option σ) (Q : σ → α → Prop)
    [∀ s a, Decidable (Q s a)] (P : σ → Prop) [DecidablePred P] (s : σ) (as : List α)
    (h : (guardedRun step Q s as).any (fun s' => decide (P s')) = true) :
    ∃ s', Reach step Q s s' ∧ P s' := by
  obtain ⟨s', hs', hP⟩ := (Option.any_eq_true _ _).mp h
  exact ⟨s', reach_of_guardedRun hs', of_decide_eq_true hP⟩

def Always (step : σ → α → Option σ) (P : σ → Prop) : σ → List α → Prop
  | s, [] => P s
  | s, a :: as => P s ∧ ∀ s', step s a = some s' → Always step P s' as

def Along (step : σ → α → Option σ) (Q : σ → α → Prop) : σ → List α → Prop
  | _, [] => True
  | s, a :: as => Q s a ∧ ∀ s', step s a = some s' → Along step Q s' as

theorem along_of_guardedRun [∀ s a, Decidable (Q s a)] {as : List α}
    (h : (guardedRun step Q s as).isSome = true) : Along step Q s as := by
  induction as generalizing s with
  | nil => trivial
  | cons a as ih =>
    rw [guardedRun] at h
    split_ifs at h with hq
    · refine ⟨hq, fun s' hs' => ih ?_⟩
      rwa [hs', Option.bind_some] at h
    · cases h

theorem Always.head {P : σ → Prop} {as : List α} (h : Always step P s as) : P s := by
  cases as with
  | nil => exact h
  | cons a as => exact h.1

theorem Always.last {P : σ → Prop} {as : List α} (h : Always step P s as)
    (hrun : guardedRun step (fun _ _ => True) s as = some s') : P s' := by
  induction as generalizing s with
  | nil => exact Option.some.inj hrun ▸ h
  | cons a as ih =>
    obtain ⟨m, hm, hrest⟩ := Option.bind_eq_some_iff.mp ((if_pos trivial).symm.trans hrun)
    exact ih (h.2 m hm) hrest

/-- What follows step by step from a property of all the states holds in all of them. -/
theorem Always.invariant {P R : σ → Prop} {as : List α} (h : Always step P s as) (h₀ : R s)
    (hstep : ∀ {s s' : σ} {a : α}, P s → P s' → R s → step s a = some s' → R s') :
    Always step R s as := by
  induction as generalizing s with
  | nil => exact h₀
  | cons a as ih =>
    exact ⟨h₀, fun s' hs' => ih (h.2 s' hs') (hstep h.1 (h.2 s' hs').head h₀ hs')⟩

theorem Always.mono {P R : σ → Prop} {as : List α} (h : Always step P s as)
    (hPR : ∀ s, P s → R s) : Always step R s as := by
  induction as generalizing s with
  | nil => exact hPR s h
  | cons a as ih => exact ⟨hPR s h.1, fun s' hs' => ih (h.2 s' hs')⟩

theorem along_congr {Q' : σ → α → Prop} (h : ∀ s a, Q s a ↔ Q' s a) (s : σ) (as : List α) :
    Along step Q s as ↔ Along step Q' s as := by
  induction as generalizing s with
  | nil => exact Iff.rfl
  | cons a as ih =>
    exact and_congr (h s a) (forall_congr' fun s' => imp_congr_right fun _ => ih s')

theorem along_true (step : σ → α → Option σ) (s : σ) (as : List α) :
    Along step (fun _ _ => True) s as := by
  induction as generalizing s with
  | nil => trivial
  | cons a as ih => exact ⟨trivial, fun s' _ => ih s'⟩

/-- When among the steps that meet `G` those that meet `Q` keep `P` and meet `R`, and no others
do, a run of such steps keeps `P` throughout and meets `R` exactly when all its steps meet `Q`. -/
theorem always_and_along_iff {G : σ → α → Prop} {P : σ → Prop} {R : σ → α → Prop} {as : List α}
    (hG : Along step G s as) (h₀ : P s)
    (hstep : ∀ {s s' : σ} {a : α}, a ∈ as → G s a → P s → step s a = some s' →
      (P s' ∧ R s a ↔ Q s a))
    (htotal : ∀ s, ∀ a ∈ as, ∃ s', step s a = some s') :
    Always step P s as ∧ Along step R s as ↔ Along step Q s as := by
  induction as generalizing s with
  | nil => exact ⟨fun _ => trivial, fun _ => ⟨h₀, trivial⟩⟩
  | cons a as ih =>
    obtain ⟨m, hm⟩ := htotal s a (List.mem_cons_self ..)
    have hrest : P m → (Always step P m as ∧ Along step R m as ↔ Along step Q m as) := fun hP =>
      ih (hG.2 m hm) hP (fun ha => hstep (List.mem_cons_of_mem _ ha))
        (fun t b hb => htotal t b (List.mem_cons_of_mem _ hb))
    have hkey := hstep (List.mem_cons_self ..) hG.1 h₀ hm
    have hnext : ∀ {X : σ → Prop}, (∀ s', step s a = some s' → X s') ↔ X m := fun {X} => by
      refine ⟨fun h => h m hm, fun h s' hs' => ?_⟩
      obtain rfl : m = s' := Option.some.inj (hm.symm.trans hs')
      exact h
    simp only [Always, Along, hnext]
    constructor
    · rintro ⟨⟨-, hA⟩, hR, hS⟩
      have hP := hA.head
      exact ⟨hkey.mp ⟨hP, hR⟩, (hrest hP).mp ⟨hA, hS⟩⟩
    · rintro ⟨hQ, h⟩
      obtain ⟨hP, hR⟩ := hkey.mpr hQ
      obtain ⟨hA, hS⟩ := (hrest hP).mpr h
      exact ⟨⟨h₀, hA⟩, hR, hS⟩

/-- When `Q` is what a step needs to keep `P`, a run keeps `P` throughout exactly when all its
steps meet `Q`. -/
theorem always_iff_along {G : σ → α → Prop} {P : σ → Prop} {as : List α}
    (hG : Along step G s as) (h₀ : P s)
    (hstep : ∀ {s s' : σ} {a : α}, a ∈ as → G s a → P s → step s a = some s' → (P s' ↔ Q s a))
    (htotal : ∀ s, ∀ a ∈ as, ∃ s', step s a = some s') :
    Always step P s as ↔ Along step Q s as := by
  have h := always_and_along_iff (R := fun _ _ => True) hG h₀
    (fun ha hg hP hs => (and_iff_left trivial).trans (hstep ha hg hP hs)) htotal
  exact (and_iff_left (along_true step s as)).symm.trans h

theorem always_iff_along_of_enabled {P : σ → Prop} {as : List α} (h₀ : P s)
    (hstep : ∀ {s s' : σ} {a : α}, a ∈ as → P s → step s a = some s' → (P s' ↔ Q s a)) :
    Always step P s as ↔ Along step (fun s a => (step s a).isSome → Q s a) s as := by
  induction as generalizing s with
  | nil => exact ⟨fun _ => trivial, fun _ => h₀⟩
  | cons a as ih =>
    have hkey : ∀ {s'}, step s a = some s' → (P s' ↔ Q s a) := hstep (List.mem_cons_self ..) h₀
    have hrest : ∀ {s'}, P s' → (Always step P s' as ↔
        Along step (fun s a => (step s a).isSome → Q s a) s' as) := fun hP =>
      ih hP fun ha => hstep (List.mem_cons_of_mem _ ha)
    constructor
    · rintro ⟨-, hall⟩
      refine ⟨fun hsome => ?_, fun s' hs' => (hrest (hall s' hs').head).mp (hall s' hs')⟩
      obtain ⟨s', hs'⟩ := Option.isSome_iff_exists.mp hsome
      exact (hkey hs').mp (hall s' hs').head
    · rintro ⟨hQ, hall⟩
      refine ⟨h₀, fun s' hs' => ?_⟩
      have hP := (hkey hs').mpr (hQ (Option.isSome_iff_exists.mpr ⟨s', hs'⟩))
      exact (hrest hP).mpr (hall s' hs')

end Runs
