import Mathlib.Data.Finset.Insert
import Mathlib.Logic.Function.Basic

/-!
# Greedy choice of a least loaded member

Members of a finite set are picked one after the other, each time one whose load is
least, and the load of the picked member grows by one. The loads need not be balanced
at the beginning. A member that has been picked is never more than one above any other.
-/

namespace GreedyLoad

variable {W : Type*} [DecidableEq W] {A : Finset W} {load : W → ℕ}

inductive Run (A : Finset W) (load : W → ℕ) : List W → (W → ℕ) → Prop where
  | nil : Run A load [] load
  | concat {picks : List W} {load' : W → ℕ} {w : W} (h : Run A load picks load') (hw : w ∈ A)
      (hleast : ∀ w' ∈ A, load' w ≤ load' w') :
      Run A load (picks ++ [w]) (Function.update load' w (load' w + 1))

namespace Run

variable {picks : List W} {load' : W → ℕ}

theorem mem (h : Run A load picks load') : ∀ w ∈ picks, w ∈ A := by
  induction h with
  | nil => simp
  | concat _ hw _ ih =>
    intro w' hw'
    rcases List.mem_append.mp hw' with hold | hnew
    · exact ih w' hold
    · rwa [List.mem_singleton.mp hnew]

theorem level (h : Run A load picks load') : ∀ w ∈ picks, ∀ w' ∈ A, load' w ≤ load' w' + 1 := by
  induction h with
  | nil => simp
  | @concat picks load' v _ _ hleast ih =>
    intro w hw w' hw'
    have hgrows : ∀ u, load' u ≤ Function.update load' v (load' v + 1) u := by
      intro u
      by_cases hu : u = v
      · rw [hu, Function.update_self]
        exact Nat.le_succ _
      · rw [Function.update_of_ne hu]
    by_cases heq : w = v
    · -- The new pick was least before it grew by one.
      rw [heq, Function.update_self]
      exact Nat.succ_le_succ ((hleast w' hw').trans (hgrows w'))
    · have hold : w ∈ picks := by simpa [heq] using hw
      rw [Function.update_of_ne heq]
      exact (ih w hold w' hw').trans (Nat.succ_le_succ (hgrows w'))

end Run
end GreedyLoad
