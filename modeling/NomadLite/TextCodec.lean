import Mathlib.Data.Int.Notation
import Mathlib.Data.List.Basic
import Mathlib.Tactic.IntervalCases

/-!
# Values written as text

A codec writes values as text and reads them off the front of a longer one. A number
ends where its digits end, so what follows a value must not begin with a digit. From
numbers and quoted strings the combinators build objects with named fields, arrays,
values that may be `null` and alternatives under the name of their variant, in the
notation of JSON.
-/

namespace TextCodec

abbrev Text := List Char

def quote : Char := Char.ofNat 34

def backslash : Char := Char.ofNat 92

def openBrace : Char := Char.ofNat 123

def closeBrace : Char := Char.ofNat 125

def Ends (rest : Text) : Prop := ∀ c ∈ rest.head?, c.isDigit = false

theorem ends_cons {c : Char} (h : c.isDigit = false) (rest : Text) : Ends (c :: rest) := by
  intro c' hc'
  rwa [← Option.some.inj hc']

def StartsOther (c : Char) (text : Text) : Prop := ∃ c' rest, text = c' :: rest ∧ c' ≠ c

structure Codec (α : Type*) where
  write : α → Text
  read : Text → Option (α × Text)
  read_write : ∀ a {rest}, Ends rest → read (write a ++ rest) = some (a, rest)

def expect : Text → Text → Option Text
  | [], cs => some cs
  | c :: lit, c' :: cs => if c = c' then expect lit cs else none
  | _ :: _, [] => none

@[simp] theorem expect_append (lit rest : Text) : expect lit (lit ++ rest) = some rest := by
  induction lit with
  | nil => rfl
  | cons c lit ih => rw [List.cons_append, expect, if_pos rfl, ih]

@[simp] theorem expect_singleton (c : Char) (rest : Text) : expect [c] (c :: rest) = some rest :=
  expect_append [c] rest

def hexChar (d : ℕ) : Char := "0123456789abcdef".toList.getD d '0'

/-- Letters are read in either case. -/
def hexDigit (c : Char) : Option ℕ := "0123456789abcdef".toList.idxOf? c.toLower

theorem hexDigit_hexChar : ∀ d < 16, hexDigit (hexChar d) = some d := by decide

namespace Codec

variable {α β : Type*}

/-! ### Numbers -/

def nat : Codec ℕ where
  write n := Nat.toDigits 10 n
  read cs :=
    let digits := cs.takeWhile Char.isDigit
    if digits = [] then none else some (Nat.ofDigitChars 10 digits 0, cs.dropWhile Char.isDigit)
  read_write n rest hrest := by
    have hdigits : ∀ c ∈ Nat.toDigits 10 n, c.isDigit = true := fun c =>
      Nat.isDigit_of_mem_toDigits (by decide) (by decide)
    have htake : rest.takeWhile Char.isDigit = [] := by
      cases rest with
      | nil => rfl
      | cons c rest => exact List.takeWhile_cons_of_neg (by simp [hrest c rfl])
    have hdrop : rest.dropWhile Char.isDigit = rest := by
      cases rest with
      | nil => rfl
      | cons c rest => exact List.dropWhile_cons_of_neg (by simp [hrest c rfl])
    simp only [List.takeWhile_append_of_pos hdigits, List.dropWhile_append_of_pos hdigits, htake,
      hdrop, List.append_nil, if_neg Nat.toDigits_ne_nil, Nat.ofDigitChars_ten_toDigits]

theorem nat_startsOther {c : Char} (hc : c.isDigit = false) (n : ℕ) :
    StartsOther c (nat.write n) := by
  obtain ⟨c', rest, heq⟩ := List.exists_cons_of_ne_nil (Nat.toDigits_ne_nil (n := n) (b := 10))
  refine ⟨c', rest, heq, fun hsame => ?_⟩
  have hdigit := Nat.isDigit_of_mem_toDigits (b := 10) (n := n) (by decide) (by decide)
    (heq ▸ List.mem_cons_self)
  rw [hsame, hc] at hdigit
  cases hdigit

def int : Codec ℤ where
  write
    | .ofNat n => nat.write n
    | .negSucc n => '-' :: nat.write (n + 1)
  read cs :=
    if cs.head? = some '-' then (nat.read cs.tail).map fun p => (-p.1, p.2)
    else (nat.read cs).map fun p => (p.1, p.2)
  read_write n rest hrest := by
    cases n with
    | ofNat n =>
      obtain ⟨c, text, heq, hne⟩ := nat_startsOther (c := '-') (by decide) n
      have hread := nat.read_write n hrest
      simp only [heq, List.cons_append, List.head?_cons, Option.some.injEq, if_neg hne] at hread ⊢
      rw [hread]
      rfl
    | negSucc n =>
      simp only [List.cons_append, List.head?_cons, if_true, List.tail_cons,
        nat.read_write (n + 1) hrest, Option.map_some]
      rfl

theorem int_startsOther {c : Char} (hc : c.isDigit = false) (hminus : c ≠ '-') (n : ℤ) :
    StartsOther c (int.write n) := by
  cases n with
  | ofNat n => exact nat_startsOther hc n
  | negSucc n => exact ⟨'-', nat.write (n + 1), rfl, hminus.symm⟩

/-! ### Strings -/

def shortForms : List (Char × Char) :=
  [(quote, quote), (backslash, backslash), (Char.ofNat 8, 'b'), (Char.ofNat 9, 't'),
    (Char.ofNat 10, 'n'), (Char.ofNat 12, 'f'), (Char.ofNat 13, 'r')]

/-- The other control characters are written by their number. -/
def escape (c : Char) : Text :=
  match shortForms.find? fun p => p.1 = c with
  | some p => [backslash, p.2]
  | none =>
    if c.toNat < 32 then
      [backslash, 'u', '0', '0', hexChar (c.toNat / 16), hexChar (c.toNat % 16)]
    else [c]

def hexValue (cs : Text) : Option ℕ :=
  (cs.mapM hexDigit).map fun ds => ds.foldl (fun n d => n * 16 + d) 0

def readEscaped : Text → Option (Char × Text)
  | 'u' :: a :: b :: c :: d :: cs => (hexValue [a, b, c, d]).map fun n => (Char.ofNat n, cs)
  | c :: cs => (shortForms.find? fun p => p.2 = c).map fun p => (p.1, cs)
  | [] => none

def readChar : Text → Option (Char × Text)
  | c :: cs => if c = backslash then readEscaped cs else some (c, cs)
  | [] => none

theorem readChar_escape_of_lt {n : ℕ} (hn : n < 32) (rest : Text) :
    readChar (escape (Char.ofNat n) ++ rest) = some (Char.ofNat n, rest) := by
  interval_cases n <;> rfl

theorem escape_of_le {c : Char} (hle : 32 ≤ c.toNat) (hquote : c ≠ quote)
    (hbackslash : c ≠ backslash) : escape c = [c] := by
  have hnone : shortForms.find? (fun p => p.1 = c) = none := by
    refine List.find?_eq_none.mpr fun p hp heq => ?_
    obtain rfl : p.1 = c := of_decide_eq_true heq
    have hforms : ∀ p ∈ shortForms, p.1 = quote ∨ p.1 = backslash ∨ p.1.toNat < 32 := by decide
    rcases hforms p hp with h | h | h
    · exact hquote h
    · exact hbackslash h
    · omega
  rw [escape, hnone]
  exact if_neg (by omega)

theorem readChar_escape (c : Char) (rest : Text) :
    readChar (escape c ++ rest) = some (c, rest) := by
  by_cases hlt : c.toNat < 32
  · rw [← Char.ofNat_toNat c]
    exact readChar_escape_of_lt hlt rest
  · by_cases hquote : c = quote
    · rw [hquote]
      rfl
    · by_cases hbackslash : c = backslash
      · rw [hbackslash]
        rfl
      · rw [escape_of_le (by omega) hquote hbackslash]
        exact if_neg hbackslash

theorem escape_startsOther (c : Char) : StartsOther quote (escape c) := by
  have hne : backslash ≠ quote := by decide
  unfold escape
  split
  · exact ⟨backslash, _, rfl, hne⟩
  · next hnone =>
    split_ifs
    · exact ⟨backslash, _, rfl, hne⟩
    · refine ⟨c, [], rfl, ?_⟩
      rintro rfl
      cases hnone

/-- Characters up to the closing quote, at most `n - 1` of them. -/
def readChars : ℕ → Text → Option (Text × Text)
  | 0, _ => none
  | n + 1, cs =>
    if cs.head? = some quote then some ([], cs.tail)
    else (readChar cs).bind fun p => (readChars n p.2).map fun q => (p.1 :: q.1, q.2)

theorem readChars_escape (chars rest : Text) {n : ℕ} (hn : chars.length < n) :
    readChars n (chars.flatMap escape ++ quote :: rest) = some (chars, rest) := by
  induction chars generalizing n with
  | nil =>
    obtain ⟨n, rfl⟩ := Nat.exists_eq_add_one_of_ne_zero (by omega : n ≠ 0)
    rfl
  | cons c chars ih =>
    obtain ⟨n, rfl⟩ := Nat.exists_eq_add_one_of_ne_zero (by omega : n ≠ 0)
    obtain ⟨c', text, heq, hne⟩ := escape_startsOther c
    have hhead : (escape c ++ (chars.flatMap escape ++ quote :: rest)).head? ≠ some quote := by
      rw [heq]
      exact fun h => hne (Option.some.inj h)
    rw [List.flatMap_cons, List.append_assoc, readChars, if_neg hhead, readChar_escape,
      Option.bind_some, ih (by rw [List.length_cons] at hn; omega), Option.map_some]

theorem length_le_length_flatMap_escape (chars : Text) :
    chars.length ≤ (chars.flatMap escape).length := by
  induction chars with
  | nil => exact le_rfl
  | cons c chars ih =>
    obtain ⟨c', text, heq, -⟩ := escape_startsOther c
    rw [List.flatMap_cons, heq, List.length_append, List.length_cons, List.length_cons]
    omega

def string : Codec String where
  write s := quote :: (s.toList.flatMap escape ++ [quote])
  read cs := (expect [quote] cs).bind fun cs =>
    (readChars cs.length cs).map fun p => (String.ofList p.1, p.2)
  read_write s rest _ := by
    have hlength := length_le_length_flatMap_escape s.toList
    simp only [List.cons_append, List.append_assoc, List.nil_append, expect_singleton,
      Option.bind_some]
    rw [readChars_escape s.toList rest, Option.map_some, String.ofList_toList]
    rw [List.length_append, List.length_cons]
    omega

/-! ### Combinators -/

/-- Values of another type that can be recovered from what is written for them. -/
def filterMap (c : Codec β) (f : α → β) (g : β → Option α) (h : ∀ a, g (f a) = some a) :
    Codec α where
  write a := c.write (f a)
  read cs := (c.read cs).bind fun p => (g p.1).map fun a => (a, p.2)
  read_write a rest hrest := by
    rw [c.read_write _ hrest, Option.bind_some, h, Option.map_some]

def enumeration (name : α → String) (all : List α)
    (h : ∀ a, all.find? (fun b => name b = name a) = some a) : Codec α :=
  string.filterMap name (fun s => all.find? fun b => name b = s) h

def literal (lit : Text) : Codec Unit where
  write _ := lit
  read cs := (expect lit cs).map fun cs => ((), cs)
  read_write _ rest _ := by rw [expect_append, Option.map_some]

def pair (c : Codec α) (d : Codec β) : Codec (α × β) where
  write p := c.write p.1 ++ ',' :: d.write p.2
  read cs := (c.read cs).bind fun p => (expect [','] p.2).bind fun cs =>
    (d.read cs).map fun q => ((p.1, q.1), q.2)
  read_write p rest hrest := by
    rw [List.append_assoc, List.cons_append, c.read_write _ (ends_cons (by decide) _)]
    simp only [Option.bind_some, expect_singleton, d.read_write _ hrest, Option.map_some]

def field (name : String) (c : Codec α) : Codec α where
  write a := string.write name ++ ':' :: c.write a
  read cs := (expect (string.write name ++ [':']) cs).bind c.read
  read_write a rest hrest := by
    have htext : string.write name ++ ':' :: c.write a ++ rest =
        (string.write name ++ [':']) ++ (c.write a ++ rest) := by
      simp only [List.append_assoc, List.cons_append, List.nil_append]
    rw [htext, expect_append, Option.bind_some, c.read_write _ hrest]

def object (c : Codec α) : Codec α where
  write a := openBrace :: (c.write a ++ [closeBrace])
  read cs := (expect [openBrace] cs).bind fun cs => (c.read cs).bind fun p =>
    (expect [closeBrace] p.2).map fun cs => (p.1, cs)
  read_write a rest _ := by
    rw [List.cons_append, List.append_assoc, expect_singleton, Option.bind_some,
      List.singleton_append, c.read_write _ (ends_cons (by decide) _), Option.bind_some,
      expect_singleton, Option.map_some]

/-- An object with a single field, whose name says what its value is. -/
def variant {ι : Type*} {T : ι → Type*} (name : Codec ι) (value : ∀ i, Codec (T i)) :
    Codec (Σ i, T i) :=
  object
    { write := fun p => name.write p.1 ++ ':' :: (value p.1).write p.2
      read := fun cs => (name.read cs).bind fun p => (expect [':'] p.2).bind fun cs =>
        ((value p.1).read cs).map fun q => (⟨p.1, q.1⟩, q.2)
      read_write := by
        intro p rest hrest
        rw [List.append_assoc, List.cons_append, name.read_write _ (ends_cons (by decide) _)]
        simp only [Option.bind_some, expect_singleton, (value p.1).read_write _ hrest,
          Option.map_some] }

def orElse (c : Codec α) (d : Codec β) (h : ∀ b rest, c.read (d.write b ++ rest) = none) :
    Codec (α ⊕ β) where
  write
    | .inl a => c.write a
    | .inr b => d.write b
  read cs :=
    match c.read cs with
    | some p => some (.inl p.1, p.2)
    | none => (d.read cs).map fun p => (.inr p.1, p.2)
  read_write v rest hrest := by
    cases v with
    | inl a => simp only [c.read_write a hrest]
    | inr b => simp only [h b rest, d.read_write b hrest, Option.map_some]

def option (c : Codec α) (h : ∀ a, StartsOther 'n' (c.write a)) : Codec (Option α) where
  write
    | none => "null".toList
    | some a => c.write a
  read cs :=
    if cs.head? = some 'n' then (expect "null".toList cs).map fun cs => (none, cs)
    else (c.read cs).map fun p => (some p.1, p.2)
  read_write v rest hrest := by
    cases v with
    | none => exact congrArg (Option.map _) (expect_append "null".toList rest)
    | some a =>
      obtain ⟨c', text, heq, hne⟩ := h a
      have hread := c.read_write a hrest
      simp only [heq, List.cons_append, List.head?_cons, Option.some.injEq, if_neg hne] at hread ⊢
      rw [hread, Option.map_some]

/-! ### Arrays -/

def writeItems (c : Codec α) : List α → Text
  | [] => [']']
  | a :: as => ',' :: (c.write a ++ writeItems c as)

def readItems (c : Codec α) : ℕ → Text → Option (List α × Text)
  | 0, cs => (expect [']'] cs).map fun cs => ([], cs)
  | n + 1, cs =>
    if cs.head? = some ']' then some ([], cs.tail)
    else (expect [','] cs).bind fun cs => (c.read cs).bind fun p =>
      (readItems c n p.2).map fun q => (p.1 :: q.1, q.2)

theorem ends_writeItems (c : Codec α) (as : List α) (rest : Text) :
    Ends (writeItems c as ++ rest) := by
  cases as with
  | nil => exact ends_cons (by decide) _
  | cons a as => exact ends_cons (by decide) _

theorem readItems_writeItems (c : Codec α) (as : List α) (rest : Text) {n : ℕ}
    (hn : as.length ≤ n) : readItems c n (writeItems c as ++ rest) = some (as, rest) := by
  induction as generalizing n with
  | nil => cases n <;> rfl
  | cons a as ih =>
    obtain ⟨n, rfl⟩ := Nat.exists_eq_add_one_of_ne_zero
      (by rw [List.length_cons] at hn; omega : n ≠ 0)
    rw [writeItems, List.cons_append, List.append_assoc, readItems, if_neg (by simp),
      expect_singleton, Option.bind_some, c.read_write _ (ends_writeItems _ _ _), Option.bind_some,
      ih (by rw [List.length_cons] at hn; omega), Option.map_some]

theorem length_le_length_writeItems (c : Codec α) (as : List α) :
    as.length ≤ (writeItems c as).length := by
  induction as with
  | nil => exact Nat.zero_le _
  | cons a as ih =>
    rw [writeItems, List.length_cons, List.length_cons, List.length_append]
    omega

def array (c : Codec α) (h : ∀ a, StartsOther ']' (c.write a)) : Codec (List α) where
  write
    | [] => ['[', ']']
    | a :: as => '[' :: (c.write a ++ writeItems c as)
  read cs := (expect ['['] cs).bind fun cs =>
    if cs.head? = some ']' then some ([], cs.tail)
    else (c.read cs).bind fun p => (readItems c p.2.length p.2).map fun q => (p.1 :: q.1, q.2)
  read_write as rest _ := by
    cases as with
    | nil => rfl
    | cons a as =>
      obtain ⟨c', text, heq, hne⟩ := h a
      have hhead : (c.write a ++ (writeItems c as ++ rest)).head? ≠ some ']' := by
        rw [heq]
        exact fun h => hne (Option.some.inj h)
      have hlength := length_le_length_writeItems c as
      rw [List.cons_append, List.append_assoc, expect_singleton, Option.bind_some, if_neg hhead,
        c.read_write _ (ends_writeItems _ _ _), Option.bind_some,
        readItems_writeItems c as rest (by rw [List.length_append]; omega), Option.map_some]

/-! ### Whole texts -/

def readAll (c : Codec α) (cs : Text) : Option α :=
  (c.read cs).bind fun p => if p.2 = [] then some p.1 else none

theorem readAll_write (c : Codec α) (a : α) : c.readAll (c.write a) = some a := by
  have hends : Ends [] := fun _ hc => by cases hc
  have hread := c.read_write a hends
  rw [List.append_nil] at hread
  rw [readAll, hread, Option.bind_some, if_pos rfl]

end Codec
end TextCodec
