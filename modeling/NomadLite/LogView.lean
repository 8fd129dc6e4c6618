import NomadLite.Cluster
import NomadLite.LogRequests
import NomadLite.ReplicaCommit
import NomadLite.VoteCount

/-!
# The replicated log behind the cluster

A `LogView` holds the whole log of every node, the logs of the leaders of all terms
and the acknowledgements and votes given so far. The predicates below say how nodes,
messages and notes show in it. With `strict` they include what a leader may conclude
from replies and votes; without it they only speak of the logs.
-/

namespace NomadLite

open ReplicatedLog

structure LogView extends Replicas ℕ LogEntry where
  base : ℕ → ℕ
  won : Set (ℕ × ℕ)

namespace LogView

def start : LogView where
  term _ := 0
  log _ := []
  leader _ := none
  acks := ∅
  votes := ∅
  base _ := 0
  won := ∅

def move (g : LogView) (x t : ℕ) (h : List LogEntry) (b : ℕ) : LogView :=
  { g with
    toReplicas := (g.toReplicas.advance x t).setLog x h
    base := Function.update g.base x b }

def withAck (g : LogView) (x T m : ℕ) : LogView := { g with toReplicas := g.toReplicas.ack x T m }

def withVote (g : LogView) (x T li lt : ℕ) : LogView :=
  { g with toReplicas := g.toReplicas.castVote x T li lt }

def win (g : LogView) (x T : ℕ) : LogView :=
  { g with toReplicas := g.toReplicas.elect x T, won := insert (T, x) g.won }

def lead (g : LogView) (x T : ℕ) (e : LogEntry) : LogView :=
  { g with toReplicas := g.toReplicas.append x T e }

structure Sound (strict : Prop) (ids : List ℕ) (g : LogView) : Prop where
  matched : g.toReplicas.Matched LogEntry.term
  indexed : ∀ T L, g.leader T = some L → IndexedFrom 0 L
  unique : ∀ T x y, (T, x) ∈ g.won → (T, y) ∈ g.won → x = y
  leader_won : ∀ T L, g.leader T = some L → ∃ x, (T, x) ∈ g.won
  safe : strict → g.toReplicas.Safe LogEntry.term ids.toFinset

structure Extends (x : ℕ) (g g' : LogView) : Prop where
  other : ∀ y, y ≠ x → g'.term y = g.term y ∧ g'.log y = g.log y ∧ g'.base y = g.base y
  leaders : LeadersGrow LogEntry.term g.leader g'.leader
  own : ∀ T, g'.leader T ≠ g.leader T → (T, x) ∈ g'.won
  won : g.won ⊆ g'.won
  won_own : ∀ T y, (T, y) ∈ g'.won → y ≠ x → (T, y) ∈ g.won
  acks : g.acks ⊆ g'.acks
  votes : g.votes ⊆ g'.votes
  base_le : ∀ y, g.base y ≤ g'.base y

variable {x : ℕ} {g g' g'' : LogView} {strict : Prop} {ids : List ℕ}

theorem Extends.refl (x : ℕ) (g : LogView) : Extends x g g :=
  ⟨fun _ _ => ⟨rfl, rfl, rfl⟩, .refl _, fun _ hne => absurd rfl hne, subset_rfl,
    fun _ _ h _ => h, subset_rfl, subset_rfl, fun _ => le_rfl⟩

theorem Extends.trans (h : Extends x g g') (h' : Extends x g' g'') : Extends x g g'' where
  other y hy := by
    obtain ⟨h₁, h₂, h₃⟩ := h.other y hy
    obtain ⟨h₁', h₂', h₃'⟩ := h'.other y hy
    exact ⟨h₁'.trans h₁, h₂'.trans h₂, h₃'.trans h₃⟩
  leaders := h.leaders.trans h'.leaders
  own T hne := by
    by_cases hsame : g'.leader T = g.leader T
    · exact h'.own T (hsame ▸ hne)
    · exact h'.won (h.own T hsame)
  won := h.won.trans h'.won
  won_own T y hy hne := h.won_own T y (h'.won_own T y hy hne) hne
  acks := h.acks.trans h'.acks
  votes := h.votes.trans h'.votes
  base_le y := (h.base_le y).trans (h'.base_le y)

theorem sound_start (strict : Prop) (ids : List ℕ) : Sound strict ids start where
  matched := ⟨fun _ => .nil, nofun, fun _ _ he => absurd he List.not_mem_nil, nofun⟩
  indexed := nofun
  unique _ _ _ h := h.elim
  leader_won := nofun
  safe _ := ⟨fun _ _ _ h => h.elim, fun _ _ _ _ h => h.elim, nofun⟩

section Moves

variable {t T m b li lt : ℕ} {h : List LogEntry} {e : LogEntry}

@[simp] theorem move_term : (g.move x t h b).term x = t := Function.update_self ..

@[simp] theorem move_log : (g.move x t h b).log x = h := Function.update_self ..

@[simp] theorem move_base : (g.move x t h b).base x = b := Function.update_self ..

theorem extends_move (hb : g.base x ≤ b) : Extends x g (g.move x t h b) where
  other y hy := ⟨Function.update_of_ne hy .., Function.update_of_ne hy ..,
    Function.update_of_ne hy ..⟩
  leaders := .refl _
  own _ hne := absurd rfl hne
  won := subset_rfl
  won_own _ _ h _ := h
  acks := subset_rfl
  votes := subset_rfl
  base_le y := by
    by_cases hy : y = x
    · subst hy
      rwa [move_base]
    · exact (Function.update_of_ne hy ..).ge

theorem Sound.move (hg : g.Sound strict ids) (ht : g.term x ≤ t)
    (ha : Anchored LogEntry.term g.leader h) (hbound : ∀ e ∈ h, e.term ≤ t)
    (hkeep : strict → ∀ P, P <+: g.log x → P <+: h ∨ Lacks g.leader t P) :
    (g.move x t h b).Sound strict ids where
  matched := (hg.matched.advance ht).setLog ha (by
    simpa only [Replicas.advance, Function.update_self] using hbound)
  indexed := hg.indexed
  unique := hg.unique
  leader_won := hg.leader_won
  safe hstrict := ((hg.safe hstrict).advance hg.matched ht).setLog (hg.matched.advance ht) (by
    simpa only [Replicas.advance, Function.update_self] using hkeep hstrict)

theorem Sound.moveTerm (hg : g.Sound strict ids) (ht : g.term x ≤ t) :
    (g.move x t (g.log x) b).Sound strict ids :=
  hg.move ht (hg.matched.log_anchored x)
    (fun e he => (hg.matched.log_bound x e he).trans ht) fun _ _ hP => .inl hP

theorem extends_withAck : Extends x g (g.withAck x T m) :=
  ⟨fun _ _ => ⟨rfl, rfl, rfl⟩, .refl _, fun _ hne => absurd rfl hne, subset_rfl,
    fun _ _ h _ => h, Set.subset_insert _ _, subset_rfl, fun _ => le_rfl⟩

theorem Sound.withAck (hg : g.Sound strict ids) (hterm : g.term x = T) {L : List LogEntry}
    (hL : g.leader T = some L) (hlen : m ≤ L.length) (hpre : L.take m <+: g.log x) :
    (g.withAck x T m).Sound strict ids where
  matched := ⟨hg.matched.log_anchored, hg.matched.leader_anchored, hg.matched.log_bound,
    hg.matched.leader_bound⟩
  indexed := hg.indexed
  unique := hg.unique
  leader_won := hg.leader_won
  safe hstrict := (hg.safe hstrict).ack hg.matched hterm hL hlen hpre

theorem extends_withVote : Extends x g (g.withVote x T li lt) :=
  ⟨fun _ _ => ⟨rfl, rfl, rfl⟩, .refl _, fun _ hne => absurd rfl hne, subset_rfl,
    fun _ _ h _ => h, subset_rfl, Set.subset_insert _ _, fun _ => le_rfl⟩

theorem Sound.withVote (hg : g.Sound strict ids) (hterm : g.term x = T)
    (hup : lastTerm LogEntry.term (g.log x) < lt ∨
      (lt = lastTerm LogEntry.term (g.log x) ∧ (g.log x).length ≤ li)) :
    (g.withVote x T li lt).Sound strict ids where
  matched := ⟨hg.matched.log_anchored, hg.matched.leader_anchored, hg.matched.log_bound,
    hg.matched.leader_bound⟩
  indexed := hg.indexed
  unique := hg.unique
  leader_won := hg.leader_won
  safe hstrict := (hg.safe hstrict).castVote hg.matched hterm hup

theorem Sound.leader_eq_none (hg : g.Sound strict ids) (hT : ∀ y, (T, y) ∉ g.won) :
    g.leader T = none := by
  cases hL : g.leader T with
  | none => rfl
  | some L =>
    obtain ⟨y, hy⟩ := hg.leader_won T L hL
    exact absurd hy (hT y)

theorem win_leader : (g.win x T).leader T = some (g.log x) := Function.update_self ..

theorem extends_win (hnone : g.leader T = none) : Extends x g (g.win x T) where
  other _ _ := ⟨rfl, rfl, rfl⟩
  leaders := Replicas.leadersGrow_elect hnone
  own T' hne := by
    by_cases hT : T' = T
    · exact .inl (congrArg (·, x) hT)
    · exact absurd (Function.update_of_ne hT ..) hne
  won := Set.subset_insert _ _
  won_own T' y hy hne := hy.resolve_left fun heq => hne (Prod.mk.inj heq).2
  acks := subset_rfl
  votes := subset_rfl
  base_le _ := le_rfl

theorem Sound.win (hg : g.Sound strict ids) (hT : ∀ y, (T, y) ∉ g.won) (hterm : g.term x = T)
    (hindexed : IndexedFrom 0 (g.log x))
    (hvotes : strict → ∃ Q : Finset ℕ, Q ⊆ ids.toFinset ∧ ids.toFinset.card / 2 + 1 ≤ Q.card ∧
      ∀ w ∈ Q, (w, T, (g.log x).length, lastTerm LogEntry.term (g.log x)) ∈ g.votes) :
    (g.win x T).Sound strict ids := by
  have hnone := hg.leader_eq_none hT
  have hbound : ∀ e ∈ g.log x, e.term ≤ T := hterm ▸ hg.matched.log_bound x
  refine ⟨hg.matched.elect hnone hbound, fun T' L hL => ?_, fun T' y z hy hz => ?_,
    fun T' L hL => ?_, fun hstrict => ?_⟩
  · by_cases hT' : T' = T
    · subst hT'
      exact Option.some.inj (win_leader.symm.trans hL) ▸ hindexed
    · exact hg.indexed T' L ((Function.update_of_ne hT' ..).symm.trans hL)
  · rcases hy with hy | hy
    · obtain ⟨rfl, rfl⟩ := Prod.mk.inj hy
      rcases hz with hz | hz
      · exact (Prod.mk.inj hz).2.symm
      · exact absurd hz (hT z)
    · rcases hz with hz | hz
      · obtain ⟨rfl, rfl⟩ := Prod.mk.inj hz
        exact absurd hy (hT y)
      · exact hg.unique T' y z hy hz
  · by_cases hT' : T' = T
    · exact ⟨x, .inl (congrArg (·, x) hT')⟩
    · obtain ⟨y, hy⟩ := hg.leader_won T' L ((Function.update_of_ne hT' ..).symm.trans hL)
      exact ⟨y, .inr hy⟩
  · obtain ⟨Q, hsub, hcard, hQ⟩ := hvotes hstrict
    exact (hg.safe hstrict).elect hg.matched hnone hbound hsub hcard hQ

theorem lead_leader : (g.lead x T e).leader T = some (g.log x ++ [e]) := Function.update_self ..

theorem lead_log : (g.lead x T e).log x = g.log x ++ [e] := Function.update_self ..

theorem extends_lead (hlead : g.leader T = some (g.log x)) (htm : e.term = T)
    (hwon : (T, x) ∈ g.won) : Extends x g (g.lead x T e) where
  other _ hy := ⟨rfl, Function.update_of_ne hy .., rfl⟩
  leaders := Replicas.leadersGrow_append hlead htm
  own T' hne := by
    by_cases hT : T' = T
    · exact hT ▸ hwon
    · exact absurd (Function.update_of_ne hT ..) hne
  won := subset_rfl
  won_own _ _ h _ := h
  acks := subset_rfl
  votes := subset_rfl
  base_le _ := le_rfl

theorem Sound.lead (hg : g.Sound strict ids) (hlead : g.leader T = some (g.log x))
    (hterm : g.term x = T) (htm : e.term = T) (hwon : (T, x) ∈ g.won)
    (hindexed : IndexedFrom 0 (g.log x ++ [e])) : (g.lead x T e).Sound strict ids where
  matched := hg.matched.append hlead hterm htm
  indexed T' L hL := by
    by_cases hT : T' = T
    · subst hT
      exact Option.some.inj (lead_leader.symm.trans hL) ▸ hindexed
    · exact hg.indexed T' L ((Function.update_of_ne hT ..).symm.trans hL)
  unique := hg.unique
  leader_won T' L hL := by
    by_cases hT : T' = T
    · exact ⟨x, hT ▸ hwon⟩
    · exact hg.leader_won T' L ((Function.update_of_ne hT ..).symm.trans hL)
  safe hstrict := (hg.safe hstrict).append hg.matched hlead htm

end Moves
end LogView
end NomadLite
