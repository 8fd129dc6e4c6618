import Mathlib.Data.Nat.Digits.Lemmas
import NomadLite.TextCodec
import NomadLite.Wire

/-!
# The wire library of the crates

Identifiers are printed as the `uuid` crate prints them, 32 lower-case hexadecimal
digits in five groups, and read in all the spellings that it accepts. The accepted
milliseconds are those of the `chrono` crate.
-/

namespace NomadLite

namespace Hex

open TextCodec

theorem hexChar_ne : ∀ d < 16, hexChar d ∉ ['u', openBrace] := by decide

/-- The 32 hexadecimal digits of an identifier, least significant first. -/
def digits (u : Uuid) : List ℕ :=
  Nat.digits 16 u.toNat ++ List.replicate (32 - (Nat.digits 16 u.toNat).length) 0

theorem digits_lt {u : Uuid} {d : ℕ} (h : d ∈ digits u) : d < 16 := by
  rcases List.mem_append.mp h with h | h
  · exact Nat.digits_lt_base (by omega) h
  · rw [List.eq_of_mem_replicate h]
    omega

theorem ofDigits_digits (u : Uuid) : Nat.ofDigits 16 (digits u) = u.toNat := by
  rw [digits, Nat.ofDigits_append_replicate_zero, Nat.ofDigits_digits]

theorem length_digits (u : Uuid) : (digits u).length = 32 := by
  have hlen : (Nat.digits 16 u.toNat).length ≤ 32 :=
    (Nat.digits_length_le_iff (by omega) _).mpr (u.isLt.trans_le (by norm_num))
  rw [digits, List.length_append, List.length_replicate]
  omega

/-! ### Hyphens -/

def hyphenate : List ℕ → Text → Text
  | [], cs => cs
  | n :: ns, cs => cs.take n ++ '-' :: hyphenate ns (cs.drop n)

def unhyphenate : List ℕ → Text → Option Text
  | [], cs => some cs
  | n :: ns, cs =>
    if cs[n]? = some '-' then (unhyphenate ns (cs.drop (n + 1))).map fun rest => cs.take n ++ rest
    else none

theorem unhyphenate_hyphenate {ns : List ℕ} {cs : Text} (h : ns.sum ≤ cs.length) :
    unhyphenate ns (hyphenate ns cs) = some cs := by
  induction ns generalizing cs with
  | nil => rfl
  | cons n ns ih =>
    rw [List.sum_cons] at h
    have hn : (cs.take n).length = n := List.length_take_of_le (by omega)
    have hhyphen : (cs.take n ++ '-' :: hyphenate ns (cs.drop n))[n]? = some '-' := by
      rw [List.getElem?_append_right hn.le, hn, Nat.sub_self, List.getElem?_cons_zero]
    have hdrop : (cs.take n ++ '-' :: hyphenate ns (cs.drop n)).drop (n + 1) =
        hyphenate ns (cs.drop n) := by
      rw [List.append_cons, List.drop_left' (by rw [List.length_append, hn]; rfl)]
    rw [hyphenate, unhyphenate, if_pos hhyphen, hdrop,
      ih (by rw [List.length_drop]; omega), Option.map_some, List.take_left' hn,
      List.take_append_drop]

theorem mem_hyphenate {ns : List ℕ} {cs : Text} {c : Char} (h : c ∈ hyphenate ns cs) :
    c = '-' ∨ c ∈ cs := by
  induction ns generalizing cs with
  | nil => exact .inr h
  | cons n ns ih =>
    rcases List.mem_append.mp h with htake | hrest
    · exact .inr (List.mem_of_mem_take htake)
    · rcases List.mem_cons.mp hrest with hhyphen | hdrop
      · exact .inl hhyphen
      · exact (ih hdrop).imp_right List.mem_of_mem_drop

theorem length_hyphenate {ns : List ℕ} {cs : Text} (h : ns.sum ≤ cs.length) :
    (hyphenate ns cs).length = cs.length + ns.length := by
  induction ns generalizing cs with
  | nil => rfl
  | cons n ns ih =>
    rw [List.sum_cons] at h
    rw [hyphenate, List.length_append, List.length_cons, ih (by rw [List.length_drop]; omega),
      List.length_take, List.length_drop, List.length_cons]
    omega

/-! ### Printing and parsing -/

def groups : List ℕ := [8, 4, 4, 4]

def print (u : Uuid) : String :=
  String.ofList (hyphenate groups ((digits u).map hexChar).reverse)

def parseSimple (cs : Text) : Option Uuid :=
  if cs.length = 32 then
    (cs.reverse.mapM hexDigit).map fun ds => BitVec.ofNat 128 (Nat.ofDigits 16 ds)
  else none

def unwrap (cs : Text) : Text :=
  if "urn:uuid:".toList.isPrefixOf cs then cs.drop 9
  else if cs.head? = some openBrace ∧ cs.getLast? = some closeBrace then cs.tail.dropLast
  else cs

/-- `Uuid::parse_str`: 32 digits, or the hyphenated form by itself, as a URN or in braces. -/
def parse (s : String) : Option Uuid :=
  if s.toList.length = 32 then parseSimple s.toList
  else (unhyphenate groups (unwrap s.toList)).bind parseSimple

theorem mapM_hexDigit {ds : List ℕ} (h : ∀ d ∈ ds, d < 16) :
    (ds.map hexChar).mapM hexDigit = some ds := by
  induction ds with
  | nil => rfl
  | cons d ds ih =>
    rw [List.map_cons, List.mapM_cons, hexDigit_hexChar d (h d (List.mem_cons_self ..)),
      ih fun e he => h e (List.mem_cons_of_mem _ he)]
    rfl

theorem unwrap_of_not_mem {cs : Text} (hurn : 'u' ∉ cs) (hbrace : openBrace ∉ cs) :
    unwrap cs = cs := by
  have hurn' : ¬ "urn:uuid:".toList.isPrefixOf cs = true := fun h =>
    hurn ((List.isPrefixOf_iff_prefix.mp h).subset (by decide))
  rw [unwrap, if_neg hurn', if_neg fun h => hbrace (List.mem_of_head? h.1)]

theorem parse_print (u : Uuid) : parse (print u) = some u := by
  have hlength : (((digits u).map hexChar).reverse).length = 32 := by
    rw [List.length_reverse, List.length_map, length_digits]
  have hfits : groups.sum ≤ (((digits u).map hexChar).reverse).length := by
    rw [hlength]
    decide
  have hchars : ∀ c ∈ hyphenate groups ((digits u).map hexChar).reverse,
      c ∉ ['u', openBrace] := by
    intro c hc
    rcases mem_hyphenate hc with rfl | hdigit
    · decide
    · obtain ⟨d, hd, rfl⟩ := List.mem_map.mp (List.mem_reverse.mp hdigit)
      exact hexChar_ne d (digits_lt hd)
  have hunwrap := unwrap_of_not_mem (fun h => hchars _ h (by decide))
    (fun h => hchars _ h (by decide))
  have hhyphens : (hyphenate groups ((digits u).map hexChar).reverse).length ≠ 32 := by
    rw [length_hyphenate hfits, hlength]
    decide
  rw [parse, print, String.toList_ofList, if_neg hhyphens, hunwrap, unhyphenate_hyphenate hfits,
    Option.bind_some, parseSimple, if_pos hlength, List.reverse_reverse,
    mapM_hexDigit fun d => digits_lt, Option.map_some, ofDigits_digits, BitVec.ofNat_toNat,
    BitVec.setWidth_eq]

end Hex

def WireLib.standard : WireLib where
  uuidToString := Hex.print
  parseStr := Hex.parse
  parseStr_uuidToString := Hex.parse_print
  minMillis := -8334601228800000
  maxMillis := 8210266876799999
  epoch_inRange := by decide

end NomadLite
