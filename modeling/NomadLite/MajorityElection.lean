import Mathlib.Data.Finset.Card
import Mathlib.Data.Set.Insert

/-!
# Elections by majority in numbered terms

Nodes move through terms, stand as candidates, grant their vote and win a term with
the votes of a majority. A node may take its vote back within a term as long as it
is itself the candidate it voted for, or the term is closed: everyone has reached
it and nobody is a candidate in it any more. At most one node wins each term.
-/

namespace MajorityElection

variable {N : Type*}

structure Ballots (N : Type*) where
  term : N → ℕ
  vote : N → Option N
  candidate : N → Prop
  grants : Set (N × N × ℕ)
  elected : Set (ℕ × N)

namespace Ballots

def initial : Ballots N := ⟨fun _ => 0, fun _ => none, fun _ => False, ∅, ∅⟩

def Closed (members : Finset N) (b : Ballots N) (T : ℕ) : Prop :=
  ∀ x ∈ members, T ≤ b.term x ∧ ¬ (b.term x = T ∧ b.candidate x)

def IsMajority (members Q : Finset N) : Prop := Q ⊆ members ∧ members.card / 2 + 1 ≤ Q.card

section Operations

open Function (update)

variable [DecidableEq N] (b : Ballots N) (v : N)

def advance (t : ℕ) : Ballots N :=
  { b with
    term := update b.term v t
    vote := update b.vote v none
    candidate := update b.candidate v False }

def withdraw : Ballots N :=
  { b with vote := update b.vote v none, candidate := update b.candidate v False }

/-- The node is no candidate any more and keeps its vote. -/
def resign : Ballots N := { b with candidate := update b.candidate v False }

/-- The node is in a later term with the vote of an earlier one. -/
def skip (t : ℕ) : Ballots N :=
  { b with term := update b.term v t, candidate := update b.candidate v False }

def stand : Ballots N :=
  { b with
    term := update b.term v (b.term v + 1)
    vote := update b.vote v (some v)
    candidate := update b.candidate v True }

def grant (c : N) : Ballots N :=
  { b with vote := update b.vote v (some c), grants := insert (v, c, b.term v) b.grants }

def win : Ballots N :=
  { b with candidate := update b.candidate v False, elected := insert (b.term v, v) b.elected }

end Operations

/-- What holds in every state: a vote lasts as long as its term, until the term is closed. -/
structure Inv (members : Finset N) (b : Ballots N) : Prop where
  candidate_vote : ∀ x, b.candidate x → b.vote x = some x
  grant_ne : ∀ v c T, (v, c, T) ∈ b.grants → c ≠ v
  grant_held : ∀ v c T, (v, c, T) ∈ b.grants →
    T ≤ b.term v ∧ (b.term v = T → b.vote v = some c ∨ b.Closed members T)
  grant_unique : ∀ v c c' T, (v, c, T) ∈ b.grants → (v, c', T) ∈ b.grants →
    c = c' ∨ b.Closed members T
  elected_held : ∀ T x, (T, x) ∈ b.elected →
    T ≤ b.term x ∧ (b.term x = T → ¬ b.candidate x ∧ (b.vote x = some x ∨ b.Closed members T))
  elected_grant : ∀ T x c, (T, x) ∈ b.elected → (x, c, T) ∈ b.grants → b.Closed members T
  elected_quorum : ∀ T x, (T, x) ∈ b.elected →
    ∃ Q, IsMajority members Q ∧ ∀ v ∈ Q, v = x ∨ (v, x, T) ∈ b.grants
  elected_unique : ∀ T x y, (T, x) ∈ b.elected → (T, y) ∈ b.elected → x = y

variable {members : Finset N} {b b' : Ballots N} {v c : N} {T t : ℕ}

theorem IsMajority.exists_common {Q Q' : Finset N} (h : IsMajority members Q)
    (h' : IsMajority members Q') : ∃ w, w ∈ Q ∧ w ∈ Q' := by
  classical
  have hcard : members.card < Q.card + Q'.card := by
    have := h.2
    have := h'.2
    omega
  obtain ⟨w, hw⟩ := Finset.inter_nonempty_of_card_lt_card_add_card h.1 h'.1 hcard
  exact ⟨w, Finset.mem_inter.mp hw⟩

theorem inv_initial : (initial : Ballots N).Inv members := by
  constructor <;> simp [initial]

structure Moves (v : N) (b b' : Ballots N) : Prop where
  other : ∀ x, x ≠ v →
    b'.term x = b.term x ∧ b'.vote x = b.vote x ∧ (b'.candidate x ↔ b.candidate x)
  term_le : b.term v ≤ b'.term v
  candidate : b'.candidate v → b.candidate v ∨ b.term v < b'.term v

theorem Moves.refl (v : N) (b : Ballots N) : Moves v b b :=
  ⟨fun _ _ => ⟨rfl, rfl, Iff.rfl⟩, le_rfl, .inl⟩

theorem Moves.trans {b'' : Ballots N} (h : Moves v b b') (h' : Moves v b' b'') :
    Moves v b b'' where
  other x hx := by
    obtain ⟨hterm, hvote, hcand⟩ := h.other x hx
    obtain ⟨hterm', hvote', hcand'⟩ := h'.other x hx
    exact ⟨hterm'.trans hterm, hvote'.trans hvote, hcand'.trans hcand⟩
  term_le := h.term_le.trans h'.term_le
  candidate hc := by
    rcases h'.candidate hc with hmid | hlt
    · exact (h.candidate hmid).imp id (·.trans_le h'.term_le)
    · exact .inr (h.term_le.trans_lt hlt)

theorem Closed.moves (h : b.Closed members T) (hm : Moves v b b') : b'.Closed members T := by
  intro x hx
  obtain ⟨hle, hnot⟩ := h x hx
  by_cases hxv : x = v
  · subst hxv
    have hterm := hm.term_le
    refine ⟨hle.trans hterm, fun ⟨heq, hc⟩ => ?_⟩
    rcases hm.candidate hc with hold | hlt
    · exact hnot ⟨by omega, hold⟩
    · omega
  · obtain ⟨hterm, -, hcand⟩ := hm.other x hxv
    rw [hterm, hcand]
    exact ⟨hle, hnot⟩

/-- The invariant after a step that grants no vote and elects nobody, from what it says about
the node that moved. -/
theorem Inv.moves (h : b.Inv members) (hm : Moves v b b') (hgrants : b'.grants = b.grants)
    (helected : b'.elected = b.elected) (hvote : b'.candidate v → b'.vote v = some v)
    (hheld : ∀ c T, (v, c, T) ∈ b.grants → b'.term v = T →
      b'.vote v = some c ∨ b'.Closed members T)
    (hlead : ∀ T, (T, v) ∈ b.elected → b'.term v = T →
      ¬ b'.candidate v ∧ (b'.vote v = some v ∨ b'.Closed members T)) : b'.Inv members where
  candidate_vote x hx := by
    by_cases hxv : x = v
    · exact hxv ▸ hvote (hxv ▸ hx)
    · obtain ⟨-, hv, hc⟩ := hm.other x hxv
      exact hv.trans (h.candidate_vote x (hc.mp hx))
  grant_ne w c T hg := h.grant_ne w c T (hgrants ▸ hg)
  grant_held w c T hg := by
    rw [hgrants] at hg
    obtain ⟨hle, hw⟩ := h.grant_held w c T hg
    by_cases hwv : w = v
    · subst hwv
      exact ⟨hle.trans hm.term_le, hheld c T hg⟩
    · obtain ⟨hterm, hv, -⟩ := hm.other w hwv
      rw [hterm, hv]
      exact ⟨hle, fun heq => (hw heq).imp id (·.moves hm)⟩
  grant_unique w c c' T hg hg' :=
    (h.grant_unique w c c' T (hgrants ▸ hg) (hgrants ▸ hg')).imp id (·.moves hm)
  elected_held T x hx := by
    rw [helected] at hx
    obtain ⟨hle, hheldx⟩ := h.elected_held T x hx
    by_cases hxv : x = v
    · subst hxv
      exact ⟨hle.trans hm.term_le, hlead T hx⟩
    · obtain ⟨hterm, hv, hc⟩ := hm.other x hxv
      rw [hterm, hv, hc]
      exact ⟨hle, fun heq => ⟨(hheldx heq).1, (hheldx heq).2.imp id (·.moves hm)⟩⟩
  elected_grant T x c hx hg := (h.elected_grant T x c (helected ▸ hx) (hgrants ▸ hg)).moves hm
  elected_quorum T x hx := by
    rw [hgrants]
    exact h.elected_quorum T x (helected ▸ hx)
  elected_unique T x y hx hy := h.elected_unique T x y (helected ▸ hx) (helected ▸ hy)

theorem Inv.grant_again (h : b.Inv members) (hfree : b.vote v = none ∨ b.vote v = some c) {c' : N}
    (hg : (v, c', b.term v) ∈ b.grants) : c' = c ∨ b.Closed members (b.term v) := by
  rcases (h.grant_held v c' _ hg).2 rfl with hvote | hclosed
  · rcases hfree with hnone | hsome
    · rw [hnone] at hvote
      cases hvote
    · rw [hsome] at hvote
      exact .inl (Option.some.inj hvote).symm
  · exact .inr hclosed

theorem Inv.elected_free (h : b.Inv members) (hne : c ≠ v)
    (hfree : b.vote v = none ∨ b.vote v = some c) (hx : (b.term v, v) ∈ b.elected) :
    b.Closed members (b.term v) := by
  rcases ((h.elected_held _ v hx).2 rfl).2 with hvote | hclosed
  · rcases hfree with hnone | hsome
    · rw [hnone] at hvote
      cases hvote
    · rw [hsome] at hvote
      exact absurd (Option.some.inj hvote) hne
  · exact hclosed

/-- A candidate with a majority is the only node that ever wins its term. -/
theorem Inv.eq_of_elected (h : b.Inv members) (hmem : v ∈ members) (hc : b.candidate v)
    {Q : Finset N} (hQ : IsMajority members Q)
    (hvotes : ∀ w ∈ Q, w = v ∨ (w, v, b.term v) ∈ b.grants) {y : N}
    (hy : (b.term v, y) ∈ b.elected) : y = v := by
  have hopen : ¬ b.Closed members (b.term v) := fun hclosed => (hclosed v hmem).2 ⟨rfl, hc⟩
  obtain ⟨Q', hQ', hvotes'⟩ := h.elected_quorum _ y hy
  obtain ⟨w, hw, hw'⟩ := hQ.exists_common hQ'
  rcases hvotes w hw with rfl | hg
  · rcases hvotes' w hw' with heq | hg'
    · exact heq.symm
    · rcases (h.grant_held w y _ hg').2 rfl with hvote | hclosed
      · exact Option.some.inj (hvote.symm.trans (h.candidate_vote w hc))
      · exact absurd hclosed hopen
  · rcases hvotes' w hw' with rfl | hg'
    · exact absurd (h.elected_grant _ w v hy hg) hopen
    · exact (h.grant_unique w y v _ hg' hg).resolve_right hopen

variable [DecidableEq N]

theorem moves_advance (ht : b.term v < t) : Moves v b (b.advance v t) where
  other x hx := by simp [advance, hx]
  term_le := by simpa [advance] using ht.le
  candidate hc := by simp [advance] at hc

theorem moves_withdraw : Moves v b (b.withdraw v) where
  other x hx := by simp [withdraw, hx]
  term_le := le_rfl
  candidate hc := by simp [withdraw] at hc

theorem moves_resign : Moves v b (b.resign v) where
  other x hx := by simp [resign, hx]
  term_le := le_rfl
  candidate hc := by simp [resign] at hc

theorem moves_skip (ht : b.term v < t) : Moves v b (b.skip v t) where
  other x hx := by simp [skip, hx]
  term_le := by simpa [skip] using ht.le
  candidate hc := by simp [skip] at hc

theorem moves_stand : Moves v b (b.stand v) where
  other x hx := by simp [stand, hx]
  term_le := by simp [stand]
  candidate _ := .inr (by simp [stand])

theorem moves_grant : Moves v b (b.grant v c) where
  other x hx := by simp [grant, hx]
  term_le := le_rfl
  candidate := .inl

theorem moves_win : Moves v b (b.win v) where
  other x hx := by simp [win, hx]
  term_le := le_rfl
  candidate hc := by simp [win] at hc

theorem Inv.resign (h : b.Inv members) : (b.resign v).Inv members := by
  have hnot : ¬ (b.resign v).candidate v := by simp [Ballots.resign]
  refine h.moves moves_resign rfl rfl (fun hc => absurd hc hnot) (fun c T hg heq => ?_)
    fun T hx heq => ⟨hnot, ?_⟩
  · exact ((h.grant_held v c T hg).2 heq).imp id (·.moves moves_resign)
  · exact ((h.elected_held T v hx).2 heq).2.imp id (·.moves moves_resign)

theorem Inv.advance (h : b.Inv members) (ht : b.term v < t) : (b.advance v t).Inv members := by
  have hterm : (b.advance v t).term v = t := by simp [Ballots.advance]
  refine h.moves (moves_advance ht) rfl rfl (fun hc => ?_) (fun c T hg heq => ?_)
    (fun T hx heq => ?_)
  · simp [Ballots.advance] at hc
  · have := (h.grant_held v c T hg).1
    omega
  · have := (h.elected_held T v hx).1
    omega

theorem Inv.skip (h : b.Inv members) (ht : b.term v < t) : (b.skip v t).Inv members := by
  have hterm : (b.skip v t).term v = t := by simp [Ballots.skip]
  refine h.moves (moves_skip ht) rfl rfl (fun hc => ?_) (fun c T hg heq => ?_)
    (fun T hx heq => ?_)
  · simp [Ballots.skip] at hc
  · have := (h.grant_held v c T hg).1
    omega
  · have := (h.elected_held T v hx).1
    omega

/-- A node may take back a vote for itself, one it does not have, or one in a closed term. -/
theorem Inv.withdraw (h : b.Inv members)
    (hv : b.candidate v ∨ b.vote v = none ∨ b.Closed members (b.term v)) :
    (b.withdraw v).Inv members := by
  have hmoves := moves_withdraw (b := b) (v := v)
  refine h.moves hmoves rfl rfl (fun hc => ?_) (fun c T hg heq => .inr ?_) (fun T hx heq => ?_)
  · simp [Ballots.withdraw] at hc
  · change b.term v = T at heq
    rcases hv with hc | hnone | hclosed
    · rcases (h.grant_held v c T hg).2 heq with hvote | hclosed
      · rw [h.candidate_vote v hc] at hvote
        exact absurd (Option.some.inj hvote).symm (h.grant_ne v c T hg)
      · exact hclosed.moves hmoves
    · rcases (h.grant_held v c T hg).2 heq with hvote | hclosed
      · rw [hnone] at hvote
        cases hvote
      · exact hclosed.moves hmoves
    · exact heq ▸ hclosed.moves hmoves
  · change b.term v = T at heq
    refine ⟨by simp [Ballots.withdraw], .inr ?_⟩
    obtain ⟨hnot, hvote⟩ := (h.elected_held T v hx).2 heq
    rcases hv with hc | hnone | hclosed
    · exact absurd hc hnot
    · rcases hvote with hvote | hclosed
      · rw [hnone] at hvote
        cases hvote
      · exact hclosed.moves hmoves
    · exact heq ▸ hclosed.moves hmoves

theorem Inv.stand (h : b.Inv members) : (b.stand v).Inv members := by
  have hterm : (b.stand v).term v = b.term v + 1 := by simp [Ballots.stand]
  refine h.moves moves_stand rfl rfl (fun _ => by simp [Ballots.stand]) (fun c T hg heq => ?_)
    (fun T hx heq => ?_)
  · have := (h.grant_held v c T hg).1
    omega
  · have := (h.elected_held T v hx).1
    omega

theorem Inv.grant (h : b.Inv members) (hne : c ≠ v)
    (hfree : b.vote v = none ∨ b.vote v = some c) : (b.grant v c).Inv members where
  candidate_vote x hx := by
    have hold := h.candidate_vote x hx
    by_cases hxv : x = v
    · subst hxv
      rcases hfree with hnone | hsome
      · rw [hnone] at hold
        cases hold
      · rw [hsome] at hold
        exact absurd (Option.some.inj hold) hne
    · simpa [Ballots.grant, hxv] using hold
  grant_ne w d T := by
    rintro (heq | hg)
    · obtain ⟨rfl, rfl, -⟩ := Prod.mk.injEq .. ▸ heq
      exact hne
    · exact h.grant_ne w d T hg
  grant_held w d T := by
    rintro (heq | hg)
    · cases heq
      exact ⟨le_rfl, fun _ => .inl (by simp [Ballots.grant])⟩
    · obtain ⟨hle, hheld⟩ := h.grant_held w d T hg
      refine ⟨hle, fun heq => ?_⟩
      by_cases hwv : w = v
      · subst hwv
        obtain rfl : b.term w = T := heq
        rcases h.grant_again hfree hg with rfl | hclosed
        · exact .inl (by simp [Ballots.grant])
        · exact .inr (hclosed.moves moves_grant)
      · simpa [Ballots.grant, hwv] using (hheld heq).imp id (·.moves moves_grant)
  grant_unique w d d' T := by
    rintro (heq | hg) (heq' | hg')
    · cases heq
      cases heq'
      exact .inl rfl
    · cases heq
      exact (h.grant_again hfree hg').imp Eq.symm (·.moves moves_grant)
    · cases heq'
      exact (h.grant_again hfree hg).imp id (·.moves moves_grant)
    · exact (h.grant_unique w d d' T hg hg').imp id (·.moves moves_grant)
  elected_held T x hx := by
    obtain ⟨hle, hheld⟩ := h.elected_held T x hx
    refine ⟨hle, fun heq => ⟨(hheld heq).1, ?_⟩⟩
    by_cases hxv : x = v
    · subst hxv
      obtain rfl : b.term x = T := heq
      exact .inr ((h.elected_free hne hfree hx).moves moves_grant)
    · simpa [Ballots.grant, hxv] using (hheld heq).2.imp id (·.moves moves_grant)
  elected_grant T x d hx := by
    rintro (heq | hg)
    · cases heq
      exact (h.elected_free hne hfree hx).moves moves_grant
    · exact (h.elected_grant T x d hx hg).moves moves_grant
  elected_quorum T x hx := by
    obtain ⟨Q, hQ, hvotes⟩ := h.elected_quorum T x hx
    exact ⟨Q, hQ, fun w hw => (hvotes w hw).imp id (Set.mem_insert_of_mem _)⟩
  elected_unique := h.elected_unique

theorem Inv.win (h : b.Inv members) (hmem : v ∈ members) (hc : b.candidate v) {Q : Finset N}
    (hQ : IsMajority members Q) (hvotes : ∀ w ∈ Q, w = v ∨ (w, v, b.term v) ∈ b.grants) :
    (b.win v).Inv members where
  candidate_vote x hx := by
    by_cases hxv : x = v
    · simp [Ballots.win, hxv] at hx
    · exact h.candidate_vote x (by simpa [Ballots.win, hxv] using hx)
  grant_ne := h.grant_ne
  grant_held w d T hg :=
    ⟨(h.grant_held w d T hg).1, fun heq => ((h.grant_held w d T hg).2 heq).imp id (·.moves moves_win)⟩
  grant_unique w d d' T hg hg' := (h.grant_unique w d d' T hg hg').imp id (·.moves moves_win)
  elected_held T x := by
    rintro (heq | hx)
    · cases heq
      exact ⟨le_rfl, fun _ => ⟨by simp [Ballots.win], .inl (h.candidate_vote v hc)⟩⟩
    · obtain ⟨hle, hheld⟩ := h.elected_held T x hx
      refine ⟨hle, fun heq => ⟨fun hcx => ?_, (hheld heq).2.imp id (·.moves moves_win)⟩⟩
      by_cases hxv : x = v
      · simp [Ballots.win, hxv] at hcx
      · exact (hheld heq).1 (by simpa [Ballots.win, hxv] using hcx)
  elected_grant T x d := by
    rintro (heq | hx) hg
    · cases heq
      rcases (h.grant_held v d _ hg).2 rfl with hvote | hclosed
      · rw [h.candidate_vote v hc] at hvote
        exact absurd (Option.some.inj hvote).symm (h.grant_ne v d _ hg)
      · exact hclosed.moves moves_win
    · exact (h.elected_grant T x d hx hg).moves moves_win
  elected_quorum T x := by
    rintro (heq | hx)
    · cases heq
      exact ⟨Q, hQ, hvotes⟩
    · exact h.elected_quorum T x hx
  elected_unique T x y := by
    rintro (heq | hx) (heq' | hy)
    · cases heq
      cases heq'
      rfl
    · cases heq
      exact (h.eq_of_elected hmem hc hQ hvotes hy).symm
    · cases heq'
      exact h.eq_of_elected hmem hc hQ hvotes hx
    · exact h.elected_unique T x y hx hy

structure Extends (v : N) (b b' : Ballots N) : Prop where
  moves : Moves v b b'
  grants : b.grants ⊆ b'.grants
  elected : b.elected ⊆ b'.elected

omit [DecidableEq N] in
theorem Extends.refl (v : N) (b : Ballots N) : Extends v b b :=
  ⟨.refl v b, subset_rfl, subset_rfl⟩

omit [DecidableEq N] in
theorem Extends.trans {b'' : Ballots N} (h : Extends v b b') (h' : Extends v b' b'') :
    Extends v b b'' :=
  ⟨h.moves.trans h'.moves, h.grants.trans h'.grants, h.elected.trans h'.elected⟩

/-- Leaving the current candidacy or vote behind, in a greater term or where that is allowed in
the current one. -/
theorem Inv.exists_stepDown (h : b.Inv members)
    (hv : b.term v < t ∨
      (b.term v = t ∧ (b.candidate v ∨ b.vote v = none ∨ b.Closed members t))) :
    ∃ b', Extends v b b' ∧ b'.Inv members ∧ b'.term v = t ∧ b'.vote v = none ∧
      ¬ b'.candidate v := by
  rcases hv with hlt | ⟨rfl, hfree⟩
  · exact ⟨b.advance v t, ⟨moves_advance hlt, subset_rfl, subset_rfl⟩, h.advance hlt,
      by simp [Ballots.advance], by simp [Ballots.advance], by simp [Ballots.advance]⟩
  · exact ⟨b.withdraw v, ⟨moves_withdraw, subset_rfl, subset_rfl⟩, h.withdraw hfree, rfl,
      by simp [Ballots.withdraw], by simp [Ballots.withdraw]⟩

end Ballots
end MajorityElection
