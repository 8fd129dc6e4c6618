import Mathlib.Algebra.Group.Nat.Defs
import Mathlib.Data.Nat.Basic

/-!
# Machine words as bounded natural numbers

A word is a natural number below `size`. Addition and subtraction are checked: where
the exact result is not a word there is none, which covers both a build that panics
and one that wraps. `wrappingAdd` and `wrappingSub` are those of the latter alone. The
decimal text of a word is read digit by digit, with the same check at each digit and an
optional plus sign in front.
-/

namespace MachineWord

def u32 : ℕ := 2 ^ 32

def u64 : ℕ := 2 ^ 64

variable (size : ℕ)

def checkedAdd (a b : ℕ) : Option ℕ := if a + b < size then some (a + b) else none

def checkedSub (a b : ℕ) : Option ℕ := if b ≤ a then some (a - b) else none

def wrappingAdd (a b : ℕ) : ℕ := (a + b) % size

def wrappingSub (a b : ℕ) : ℕ := (a + (size - b)) % size

theorem wrappingAdd_eq {a b : ℕ} (h : a + b < size) : wrappingAdd size a b = a + b :=
  Nat.mod_eq_of_lt h

theorem wrappingAdd_eq_zero {a b : ℕ} (h : a + b = size) : wrappingAdd size a b = 0 := by
  rw [wrappingAdd, h, Nat.mod_self]

theorem wrappingSub_eq {a b : ℕ} (hle : b ≤ a) (ha : a < size) :
    wrappingSub size a b = a - b := by
  rw [wrappingSub, show a + (size - b) = a - b + size by omega, Nat.add_mod_right,
    Nat.mod_eq_of_lt (by omega)]

/-- Counting on from a word goes back to zero or to a greater word. -/
theorem le_wrappingAdd_one_iff {n : ℕ} (hsize : 1 < size) :
    n ≤ wrappingAdd size n 1 ↔ n + 1 < size := by
  rcases lt_or_ge (n + 1) size with hlt | hge
  · rw [wrappingAdd_eq size hlt]
    exact iff_of_true (Nat.le_succ n) hlt
  · refine iff_of_false (not_le.mpr ?_) (not_lt.mpr hge)
    rcases Nat.lt_or_eq_of_le hge with hgt | heq
    · have hmod : (n + 1) % size < size := Nat.mod_lt _ (by omega)
      rw [wrappingAdd]
      omega
    · rw [wrappingAdd, ← heq, Nat.mod_self]
      omega

theorem checkedAdd_eq {a b : ℕ} (h : a + b < size) : checkedAdd size a b = some (a + b) :=
  if_pos h

theorem checkedSub_eq {a b : ℕ} (h : b ≤ a) : checkedSub a b = some (a - b) :=
  if_pos h

/-! ### Decimal text -/

def digit (c : Char) : Option ℕ := if c.isDigit then some (c.toNat - '0'.toNat) else none

def pushDigit (n : ℕ) (c : Char) : Option ℕ :=
  (digit c).bind fun d => if 10 * n + d < size then some (10 * n + d) else none

def fromDigits (cs : List Char) : Option ℕ :=
  if cs = [] then none else cs.foldlM (pushDigit size) 0

def fromStr (s : String) : Option ℕ :=
  match s.toList with
  | '+' :: cs => fromDigits size cs
  | cs => fromDigits size cs

theorem le_ofDigitChars (cs : List Char) (n : ℕ) : n ≤ Nat.ofDigitChars 10 cs n := by
  rw [Nat.ofDigitChars_eq_ofDigitChars_zero]
  have hpow : 1 * n ≤ 10 ^ cs.length * n :=
    Nat.mul_le_mul_right n (Nat.one_le_pow _ _ (by omega))
  omega

/-- The digits are all read while the number they stand for is a word. -/
theorem foldlM_pushDigit {cs : List Char} {n : ℕ} (hdigits : ∀ c ∈ cs, c.isDigit)
    (h : Nat.ofDigitChars 10 cs n < size) :
    cs.foldlM (pushDigit size) n = some (Nat.ofDigitChars 10 cs n) := by
  induction cs generalizing n with
  | nil => rfl
  | cons c cs ih =>
    have hc : digit c = some (c.toNat - '0'.toNat) := if_pos (hdigits c (List.mem_cons_self ..))
    rw [Nat.ofDigitChars_cons] at h ⊢
    have hle := le_ofDigitChars cs (10 * n + (c.toNat - '0'.toNat))
    have hpush : pushDigit size n c = some (10 * n + (c.toNat - '0'.toNat)) := by
      rw [pushDigit, hc, Option.bind_some, if_pos (Nat.lt_of_le_of_lt hle h)]
    rw [List.foldlM_cons, hpush]
    exact ih (fun c' hc' => hdigits c' (List.mem_cons_of_mem _ hc')) h

theorem repr_ne_empty (n : ℕ) : n.repr ≠ "" := by
  intro hempty
  have hpos := Nat.length_repr_pos (n := n)
  rw [hempty] at hpos
  cases hpos

theorem fromStr_repr {n : ℕ} (h : n < size) : fromStr size n.repr = some n := by
  have hdigits : ∀ c ∈ Nat.toDigits 10 n, c.isDigit := fun c hc =>
    Nat.isDigit_of_mem_toDigits (by omega) (by omega) hc
  have hread : fromDigits size (Nat.toDigits 10 n) = some n := by
    rw [fromDigits, if_neg Nat.toDigits_ne_nil,
      foldlM_pushDigit size hdigits (by rwa [Nat.ofDigitChars_ten_toDigits]),
      Nat.ofDigitChars_ten_toDigits]
  rw [fromStr, Nat.toList_repr]
  split
  · rename_i cs heq
    have hplus := hdigits '+' (heq ▸ List.mem_cons_self ..)
    cases hplus
  · exact hread

end MachineWord
