import Mathlib.Data.List.Nodup

/-!
# Lists served in pages

A server answers a cursor with a page, and a page may name the cursor of the next one.
`follow` is the client that asks until no cursor is named, with a bound on the number of
requests. When cursors stand for offsets into one list and every page has the next
`size` elements, the client ends and has received the list.
-/

namespace CursorPaging

variable {α τ π ε : Type*}

/-- The pages from `cursor` on, unless more than `fuel` requests are needed. -/
def follow (next : π → Option τ) (serve : τ → Except ε π) : ℕ → τ → Option (Except ε (List π))
  | 0, _ => none
  | fuel + 1, cursor =>
    match serve cursor with
    | .error e => some (.error e)
    | .ok page =>
      match next page with
      | none => some (.ok [page])
      | some cursor' => (follow next serve fuel cursor').map (Except.map (page :: ·))

variable {next : π → Option τ} {serve : τ → Except ε π} {cursor cursor' : τ} {page : π}

theorem follow_last (fuel : ℕ) (hserve : serve cursor = .ok page) (hnext : next page = none) :
    follow next serve (fuel + 1) cursor = some (.ok [page]) := by
  simp only [follow, hserve, hnext]

theorem follow_more {fuel : ℕ} {pages : List π} (hserve : serve cursor = .ok page)
    (hnext : next page = some cursor') (hrest : follow next serve fuel cursor' = some (.ok pages)) :
    follow next serve (fuel + 1) cursor = some (.ok (page :: pages)) := by
  simp only [follow, hserve, hnext, hrest]
  rfl

/-- A client that has ended is not changed by a larger bound. -/
theorem follow_mono {fuel fuel' : ℕ} {result : Except ε (List π)} (hle : fuel ≤ fuel')
    (h : follow next serve fuel cursor = some result) :
    follow next serve fuel' cursor = some result := by
  induction fuel generalizing fuel' cursor result with
  | zero => cases h
  | succ fuel ih =>
    obtain ⟨fuel', rfl⟩ := Nat.exists_eq_add_of_le' (Nat.le_trans (Nat.succ_pos fuel) hle)
    rw [follow] at h ⊢
    cases hserve : serve cursor with
    | error e =>
      rw [hserve] at h
      exact h
    | ok page =>
      rw [hserve] at h
      dsimp only at h ⊢
      cases hnext : next page with
      | none =>
        rw [hnext] at h
        exact h
      | some cursor' =>
        rw [hnext] at h
        obtain ⟨rest, hrest, rfl⟩ := Option.map_eq_some_iff.mp h
        dsimp only
        rw [ih (Nat.le_of_succ_le_succ hle) hrest, Option.map_some]

/-- `At` tells the offset a cursor stands for; the page served for it meets `P` and has the next
`size` elements of the list. -/
structure Slices (next : π → Option τ) (serve : τ → Except ε π) (items : π → List α)
    (list : List α) (size : ℕ) (At : τ → ℕ → Prop) (P : π → Prop) : Prop where
  pos : 0 < size
  serves : ∀ {cursor offset}, At cursor offset → ∃ page, serve cursor = .ok page ∧ P page ∧
    items page = (list.drop offset).take size ∧
    (list.length ≤ offset + size → next page = none) ∧
    (offset + size < list.length → ∃ cursor', next page = some cursor' ∧ At cursor' (offset + size))

variable {items : π → List α} {list : List α} {size : ℕ} {At : τ → ℕ → Prop} {P : π → Prop}

theorem Slices.follow (h : Slices next serve items list size At P) {offset : ℕ}
    (hat : At cursor offset) {fuel : ℕ} (hfuel : list.length - offset < fuel * size) :
    ∃ pages, follow next serve fuel cursor = some (.ok pages) ∧
      pages.flatMap items = list.drop offset ∧ ∀ page ∈ pages, P page := by
  induction fuel generalizing cursor offset with
  | zero => omega
  | succ fuel ih =>
    obtain ⟨page, hserve, hP, hitems, hlast, hmore⟩ := h.serves hat
    by_cases hend : list.length ≤ offset + size
    · refine ⟨[page], follow_last fuel hserve (hlast hend), ?_, fun p hp => ?_⟩
      · have hlen : (list.drop offset).length ≤ size := by
          rw [List.length_drop]
          omega
        rw [List.flatMap_singleton, hitems, List.take_of_length_le hlen]
      · rwa [List.mem_singleton.mp hp]
    · obtain ⟨cursor', hnext, hat'⟩ := hmore (Nat.lt_of_not_le hend)
      have hpos := h.pos
      rw [Nat.succ_mul] at hfuel
      obtain ⟨pages, hpages, hflat, hall⟩ := ih hat' (by omega)
      refine ⟨page :: pages, follow_more hserve hnext hpages, ?_, fun p hp => ?_⟩
      · rw [List.flatMap_cons, hitems, hflat, ← List.drop_drop, List.take_append_drop]
      · rcases List.mem_cons.mp hp with rfl | hp
        · exact hP
        · exact hall p hp

/-! ### A server that changes between the requests -/

def followThrough (next : π → Option τ) (serve : ℕ → τ → Except ε π) :
    ℕ → ℕ → τ → Option (Except ε (List π))
  | 0, _, _ => none
  | fuel + 1, k, cursor =>
    match serve k cursor with
    | .error e => some (.error e)
    | .ok page =>
      match next page with
      | none => some (.ok [page])
      | some cursor' =>
        (followThrough next serve fuel (k + 1) cursor').map (Except.map (page :: ·))

theorem followThrough_const (fuel k : ℕ) (cursor : τ) :
    followThrough next (fun _ => serve) fuel k cursor = follow next serve fuel cursor := by
  induction fuel generalizing k cursor with
  | zero => rfl
  | succ fuel ih =>
    unfold followThrough follow
    simp only [ih]

end CursorPaging
