import Mathlib.Data.List.Lex
import Mathlib.Data.Nat.ModEq
import Mathlib.Tactic.Ring

/-!
# Big-endian numbers of a fixed width

The bytes of a number, most significant first. Strings of one width are ordered
lexicographically as the numbers they stand for, and reading them gives the number
back up to the width.
-/

namespace BigEndian

abbrev Byte := Fin 256

abbrev Bytes := List Byte

def toBytes : ℕ → ℕ → Bytes
  | 0, _ => []
  | width + 1, v => Fin.ofNat 256 (v / 256 ^ width) :: toBytes width v

def ofBytes (bytes : Bytes) : ℕ := bytes.foldl (fun v byte => 256 * v + byte.val) 0

@[simp] theorem length_toBytes (width v : ℕ) : (toBytes width v).length = width := by
  induction width with
  | zero => rfl
  | succ width ih => rw [toBytes, List.length_cons, ih]

theorem mod_pow_succ (width v : ℕ) :
    v % 256 ^ (width + 1) = 256 ^ width * (v / 256 ^ width % 256) + v % 256 ^ width := by
  rw [pow_succ, Nat.mod_mul, Nat.add_comm]

theorem foldl_toBytes (width v acc : ℕ) :
    (toBytes width v).foldl (fun v byte => 256 * v + byte.val) acc =
      256 ^ width * acc + v % 256 ^ width := by
  induction width generalizing acc with
  | zero => rw [toBytes, List.foldl_nil, pow_zero, Nat.mod_one, one_mul, add_zero]
  | succ width ih =>
    rw [toBytes, List.foldl_cons, ih, mod_pow_succ]
    change 256 ^ width * (256 * acc + v / 256 ^ width % 256) + v % 256 ^ width = _
    ring

theorem ofBytes_toBytes {width v : ℕ} (h : v < 256 ^ width) : ofBytes (toBytes width v) = v := by
  rw [ofBytes, foldl_toBytes, mul_zero, zero_add, Nat.mod_eq_of_lt h]

theorem toBytes_lt_toBytes_iff (width v w : ℕ) :
    toBytes width v < toBytes width w ↔ v % 256 ^ width < w % 256 ^ width := by
  induction width with
  | zero => simp [toBytes, Nat.mod_one]
  | succ width ih =>
    have hv := Nat.mod_lt v (Nat.pow_pos (n := width) (show 0 < 256 by omega))
    have hw := Nat.mod_lt w (Nat.pow_pos (n := width) (show 0 < 256 by omega))
    rw [toBytes, toBytes, List.cons_lt_cons_iff, ih, mod_pow_succ, mod_pow_succ, Fin.lt_def,
      Fin.ext_iff]
    change v / 256 ^ width % 256 < w / 256 ^ width % 256 ∨
      v / 256 ^ width % 256 = w / 256 ^ width % 256 ∧ _ ↔ _
    generalize v / 256 ^ width % 256 = a
    generalize w / 256 ^ width % 256 = b
    rcases lt_trichotomy a b with hlt | heq | hgt
    · have := Nat.mul_le_mul_left (256 ^ width) hlt
      rw [Nat.mul_succ] at this
      omega
    · subst heq
      omega
    · have := Nat.mul_le_mul_left (256 ^ width) hgt
      rw [Nat.mul_succ] at this
      omega

theorem toBytes_lt_toBytes {width v w : ℕ} (hv : v < 256 ^ width) (hw : w < 256 ^ width) :
    toBytes width v < toBytes width w ↔ v < w := by
  rw [toBytes_lt_toBytes_iff, Nat.mod_eq_of_lt hv, Nat.mod_eq_of_lt hw]

theorem toBytes_inj {width v w : ℕ} (hv : v < 256 ^ width) (hw : w < 256 ^ width)
    (h : toBytes width v = toBytes width w) : v = w := by
  rw [← ofBytes_toBytes hv, h, ofBytes_toBytes hw]

end BigEndian
