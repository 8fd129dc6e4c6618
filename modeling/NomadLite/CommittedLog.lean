import Mathlib.Data.List.Infix
import Mathlib.Order.Basic

/-!
# A committed log with a snapshot below it, and its replay

`CommittedLog β α` is the abstract history behind an apply loop: a snapshot of type `β`
for the entries up to `baseIndex` and the committed entries after it. A stored log is a
`Window` on it when it agrees with the history from its own offset on. `Applies` says
that a state results from applying a list of commands in order, each at some reading of
a clock of type `τ`.
-/

structure CommittedLog (β α : Type*) where
  base : Option β
  baseIndex : ℕ
  entries : List α

namespace CommittedLog

variable {β α : Type*} (c : CommittedLog β α)

def empty : CommittedLog β α := ⟨none, 0, []⟩

def length : ℕ := c.baseIndex + c.entries.length

def upTo (n : ℕ) : List α := c.entries.take (n - c.baseIndex)

def commit (entries : List α) : CommittedLog β α := { c with entries := c.entries ++ entries }

/-- The entries up to `index` are from now on represented by the snapshot. -/
def install (snapshot : β) (index : ℕ) : CommittedLog β α :=
  ⟨some snapshot, index, c.entries.drop (index - c.baseIndex)⟩

theorem upTo_baseIndex : c.upTo c.baseIndex = [] := by
  rw [upTo, Nat.sub_self, List.take_zero]

theorem upTo_length : c.upTo c.length = c.entries := by
  rw [upTo, length, Nat.add_sub_cancel_left, List.take_length]

theorem length_commit (entries : List α) : (c.commit entries).length = c.length + entries.length := by
  rw [length, length, commit, List.length_append, Nat.add_assoc]

theorem upTo_commit (entries : List α) {n : ℕ} (hn : n ≤ c.length) :
    (c.commit entries).upTo n = c.upTo n := by
  have hle : n - c.baseIndex ≤ c.entries.length := by
    rw [length] at hn
    omega
  exact List.take_append_of_le_length hle

theorem length_install (snapshot : β) {index : ℕ} (h : c.baseIndex ≤ index) :
    (c.install snapshot index).length = max c.length index := by
  simp only [length, install, List.length_drop]
  omega

/-- The log kept from `offset` on holds the committed entries, and perhaps further ones. -/
structure Window (log : List α) (offset : ℕ) : Prop where
  base_le : c.baseIndex ≤ offset
  offset_le : offset ≤ c.length
  length_le : c.length ≤ offset + log.length
  take_eq : log.take (c.length - offset) = c.entries.drop (offset - c.baseIndex)

variable {c} {log : List α} {offset : ℕ}

theorem window_empty : (empty : CommittedLog β α).Window [] 0 :=
  ⟨le_rfl, le_rfl, le_rfl, rfl⟩

theorem Window.slice (h : c.Window log offset) {n : ℕ} (hn : offset ≤ n) :
    (log.drop (n - offset)).take (c.length - n) = c.entries.drop (n - c.baseIndex) := by
  have := h.base_le
  calc (log.drop (n - offset)).take (c.length - n)
      = (log.take (c.length - offset)).drop (n - offset) := by
        rw [List.drop_take]
        congr 1
        omega
    _ = c.entries.drop (n - c.baseIndex) := by
        rw [h.take_eq, List.drop_drop]
        congr 1
        omega

theorem Window.upTo_append_slice (h : c.Window log offset) {n : ℕ} (hn : offset ≤ n) :
    c.upTo n ++ (log.drop (n - offset)).take (c.length - n) = c.upTo c.length := by
  rw [h.slice hn, upTo, List.take_append_drop, upTo_length]

/-- A log that keeps the committed entries is a window on what it goes on to commit. -/
theorem Window.commit (h : c.Window log offset) (log' : List α) {n : ℕ} (hn : c.length ≤ n)
    (hle : n ≤ offset + log'.length)
    (hkeep : log'.take (c.length - offset) = log.take (c.length - offset)) :
    (c.commit ((log'.drop (c.length - offset)).take (n - c.length))).Window log' offset ∧
      (c.commit ((log'.drop (c.length - offset)).take (n - c.length))).length = n := by
  have hoff := h.offset_le
  have hlength : (c.commit ((log'.drop (c.length - offset)).take (n - c.length))).length = n := by
    rw [length_commit, List.length_take, List.length_drop]
    omega
  refine ⟨⟨h.base_le, ?_, ?_, ?_⟩, hlength⟩
  · omega
  · omega
  · have hsplit : n - offset = (c.length - offset) + (n - c.length) := by omega
    have hbase : offset - c.baseIndex ≤ c.entries.length := by
      have : c.length = c.baseIndex + c.entries.length := rfl
      omega
    rw [hlength, hsplit, List.take_add, hkeep, h.take_eq]
    exact (List.drop_append_of_le_length hbase).symm

theorem Window.install (h : c.Window log offset) (snapshot : β) {index : ℕ} (hlt : offset ≤ index) :
    (c.install snapshot index).Window (log.drop (index - offset)) index := by
  have hbase := h.base_le
  have hlength := c.length_install snapshot (hbase.trans hlt)
  have hlog := h.length_le
  refine ⟨le_rfl, ?_, ?_, ?_⟩
  · rw [hlength]
    exact le_max_right _ _
  · rw [hlength, List.length_drop]
    omega
  · have hsub : max c.length index - index = c.length - index := by omega
    rw [hlength, hsub, h.slice hlt]
    simp only [CommittedLog.install, Nat.sub_self, List.drop_zero]

theorem Window.compact (h : c.Window log offset) {index : ℕ} (hlt : offset ≤ index)
    (hle : index ≤ c.length) : c.Window (log.drop (index - offset)) index := by
  refine ⟨h.base_le.trans hlt, hle, ?_, h.slice hlt⟩
  have := h.length_le
  rw [List.length_drop]
  omega

end CommittedLog

section Applies

variable {σ α τ : Type*}

inductive Applies (apply : τ → σ → α → σ) (start : σ) : List α → σ → Prop where
  | nil : Applies apply start [] start
  | concat {l : List α} {s : σ} (h : Applies apply start l s) (now : τ) (a : α) :
      Applies apply start (l ++ [a]) (apply now s a)

end Applies
