import Mathlib.Data.List.Basic

/-!
# Writes ahead of a log

A copy of a replayed state is changed before the log says so. Each write has a
precondition and an effect, and `ahead` is the replayed state with the outstanding
writes on top. A new write goes to the end of the list; the log catches up with the
first one.
-/

namespace Optimistic

variable {S W : Type*} (pre : W → S → Prop) (eff : W → S → S)

def Valid : S → List W → Prop
  | _, [] => True
  | s, w :: ws => pre w s ∧ Valid (eff w s) ws

def ahead (s : S) (ws : List W) : S := ws.foldl (fun s w => eff w s) s

variable {pre eff} {s : S} {w : W} {ws : List W}

theorem ahead_concat (s : S) (ws : List W) (w : W) :
    ahead eff s (ws ++ [w]) = eff w (ahead eff s ws) := List.foldl_concat ..

theorem Valid.concat (h : Valid pre eff s ws) (hw : pre w (ahead eff s ws)) :
    Valid pre eff s (ws ++ [w]) := by
  induction ws generalizing s with
  | nil => exact ⟨hw, trivial⟩
  | cons v ws ih => exact ⟨h.1, ih h.2 hw⟩

/-- A property of the state that no write in the list can spoil. -/
theorem Valid.ahead_induction {P : S → Prop} (h : Valid pre eff s ws) (hs : P s)
    (hstep : ∀ {s w}, P s → pre w s → P (eff w s)) : P (ahead eff s ws) := by
  induction ws generalizing s with
  | nil => exact hs
  | cons v ws ih => exact ih h.2 (hstep hs h.1)

theorem Valid.forall_mem {P : S → Prop} {R : W → Prop} (h : Valid pre eff s ws) (hs : P s)
    (hstep : ∀ {s w}, P s → pre w s → P (eff w s) ∧ R w) : ∀ w ∈ ws, R w := by
  induction ws generalizing s with
  | nil => exact fun w hw => absurd hw List.not_mem_nil
  | cons v ws ih =>
    obtain ⟨hP, hR⟩ := hstep hs h.1
    exact List.forall_mem_cons.mpr ⟨hR, ih h.2 hP⟩

end Optimistic
