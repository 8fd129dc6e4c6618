import NomadLite.ReplicatedLog
import Mathlib.Data.Finset.Card

/-!
# Replicas: why a committed entry is never lost

The replicas of a log, the logs of their leaders, and two records that only grow:
which prefix of a leader's log a replica has acknowledged, and for which last entry
a replica has given its vote. A replica only gives up an acknowledged prefix to a
later leader that lacks it, and only votes for candidates whose log is at least as
recent as its own. So a prefix acknowledged by enough replicas is in the log of
every later leader.
-/

namespace ReplicatedLog

structure Replicas (N E : Type*) where
  term : N → ℕ
  log : N → List E
  leader : ℕ → Option (List E)
  acks : Set (N × ℕ × ℕ)
  votes : Set (N × ℕ × ℕ × ℕ)

def Lacks {E : Type*} (leader : ℕ → Option (List E)) (T : ℕ) (P : List E) : Prop :=
  ∃ L, leader T = some L ∧ ¬ P <+: L

/-- A leader that lacks a prefix of older entries never gets it: it only appends entries of its
own term. -/
theorem Lacks.grow {E : Type*} {tm : E → ℕ} {leader leader' : ℕ → Option (List E)} {T : ℕ}
    {P : List E} (h : Lacks leader T P) (hg : LeadersGrow tm leader leader')
    (hP : ∀ e ∈ P, tm e < T) : Lacks leader' T P := by
  obtain ⟨L, hL, hnot⟩ := h
  obtain ⟨ext, hext, hterm⟩ := hg T L hL
  refine ⟨L ++ ext, hext, fun hpre => hnot ?_⟩
  rcases le_or_gt P.length L.length with hle | hgt
  · exact List.prefix_of_prefix_length_le hpre (List.prefix_append L ext) hle
  · exfalso
    obtain ⟨e, he⟩ : ∃ e, P[L.length]? = some e := ⟨_, List.getElem?_eq_getElem hgt⟩
    have hmem : e ∈ ext := by
      have hget := getElem?_of_isPrefix hpre he
      rw [List.getElem?_append_right le_rfl] at hget
      exact List.mem_of_getElem? hget
    have := hP e (List.mem_of_getElem? he)
    have := hterm e hmem
    omega

namespace Replicas

variable {N E : Type*} {tm : E → ℕ} {members : Finset N} {r r' : Replicas N E}

structure Matched (tm : E → ℕ) (r : Replicas N E) : Prop where
  log_anchored : ∀ v, Anchored tm r.leader (r.log v)
  leader_anchored : ∀ T L, r.leader T = some L → Anchored tm r.leader L
  log_bound : ∀ v, ∀ e ∈ r.log v, tm e ≤ r.term v
  leader_bound : ∀ T L, r.leader T = some L → ∀ e ∈ L, tm e ≤ T

/-- From its first entry of the leader's own term on, a leader's log only has such entries. -/
theorem Matched.leader_tm_eq (hm : r.Matched tm) {T i j : ℕ} {L : List E}
    (hL : r.leader T = some L) (hi : (L[i]?).map tm = some T) (hij : i ≤ j) (hj : j < L.length) :
    (L[j]?).map tm = some T := by
  obtain ⟨e, he, hterm⟩ := Option.map_eq_some_iff.mp hi
  have hget : L[j]? = some L[j] := List.getElem?_eq_getElem hj
  have hle := hm.leader_bound T L hL _ (List.getElem_mem hj)
  obtain ⟨L', hL', hpre⟩ := hm.leader_anchored T L hL j _ hget
  have he' : L'[i]? = some e :=
    getElem?_of_isPrefix hpre (by rwa [List.getElem?_take_of_lt (by omega)])
  have hge := hm.leader_bound _ L' hL' e (List.mem_of_getElem? he')
  rw [hget, Option.map_some]
  congr 1
  omega

/-- What replica `v`, when it votes in term `T'` for a log of length `li` and last term `lt`, lets
one conclude about an entry it has acknowledged in an earlier term `T`: the candidate's log is
recent enough to hold it, or a leader between the two terms lacks it. -/
def Informed (tm : E → ℕ) (r : Replicas N E) (v : N) (T' bound li lt : ℕ) : Prop :=
  ∀ T m n L, (v, T, m) ∈ r.acks → T < T' → r.leader T = some L → 0 < n → n ≤ m →
    (L[n - 1]?).map tm = some T →
    T < lt ∨ (lt = T ∧ n ≤ li) ∨ ∃ T'', T < T'' ∧ T'' < bound ∧ Lacks r.leader T'' (L.take n)

def ElectedBy (tm : E → ℕ) (members : Finset N) (r : Replicas N E) (T' : ℕ) (L' : List E) : Prop :=
  ∃ (h ext : List E) (Q : Finset N), L' = h ++ ext ∧ (∀ e ∈ ext, tm e = T') ∧
    (∀ e ∈ h, tm e < T') ∧ Q ⊆ members ∧ members.card / 2 + 1 ≤ Q.card ∧
    ∀ v ∈ Q, T' ≤ r.term v ∧ r.Informed tm v T' T' h.length (lastTerm tm h)

structure Safe (tm : E → ℕ) (members : Finset N) (r : Replicas N E) : Prop where
  acked : ∀ v T m, (v, T, m) ∈ r.acks → T ≤ r.term v ∧ ∃ L, r.leader T = some L ∧ m ≤ L.length ∧
    ∀ n ≤ m, L.take n <+: r.log v ∨
      ∃ T'', T < T'' ∧ T'' ≤ r.term v ∧ Lacks r.leader T'' (L.take n)
  voted : ∀ v T' li lt, (v, T', li, lt) ∈ r.votes →
    T' ≤ r.term v ∧ r.Informed tm v T' (T' + 1) li lt
  elected : ∀ T' L', r.leader T' = some L' → r.ElectedBy tm members T' L'

theorem Informed.grow {v : N} {T' bound li lt : ℕ} (h : r.Informed tm v T' bound li lt)
    (hm : r.Matched tm) (hs : r.Safe tm members) (hg : LeadersGrow tm r.leader r'.leader)
    (hacks : ∀ T m, (v, T, m) ∈ r'.acks → T < T' → (v, T, m) ∈ r.acks) :
    r'.Informed tm v T' bound li lt := by
  intro T m n L hack hlt hL hpos hn hterm
  have hold := hacks T m hack hlt
  obtain ⟨-, L₀, hL₀, hlen, -⟩ := hs.acked v T m hold
  obtain ⟨ext, hext, -⟩ := hg T L₀ hL₀
  obtain rfl : L₀ ++ ext = L := Option.some.inj (hext.symm.trans hL)
  have htake : (L₀ ++ ext).take n = L₀.take n := List.take_append_of_le_length (by omega)
  rw [List.getElem?_append_left (by omega)] at hterm
  rw [htake]
  rcases h T m n L₀ hold hlt hL₀ hpos hn hterm with hnew | hsame | ⟨T'', hT, hT', hlacks⟩
  · exact .inl hnew
  · exact .inr (.inl hsame)
  · refine .inr (.inr ⟨T'', hT, hT', hlacks.grow hg fun e he => ?_⟩)
    exact (hm.leader_bound T L₀ hL₀ e (List.mem_of_mem_take he)).trans_lt hT

theorem ElectedBy.grow {T' : ℕ} {L' ext : List E} (h : r.ElectedBy tm members T' L')
    (hm : r.Matched tm) (hs : r.Safe tm members) (hg : LeadersGrow tm r.leader r'.leader)
    (hterm : ∀ v, r.term v ≤ r'.term v)
    (hacks : ∀ v T m, (v, T, m) ∈ r'.acks → (v, T, m) ∈ r.acks ∨ r.term v ≤ T)
    (hext : ∀ e ∈ ext, tm e = T') : r'.ElectedBy tm members T' (L' ++ ext) := by
  obtain ⟨h₀, ext₀, Q, rfl, hext₀, hh, hsub, hcard, hQ⟩ := h
  refine ⟨h₀, ext₀ ++ ext, Q, List.append_assoc .., fun e he => ?_, hh, hsub, hcard,
    fun v hv => ?_⟩
  · rcases List.mem_append.mp he with he | he
    · exact hext₀ e he
    · exact hext e he
  · obtain ⟨hle, hinf⟩ := hQ v hv
    refine ⟨hle.trans (hterm v), hinf.grow hm hs hg fun T m hack hlt => ?_⟩
    exact (hacks v T m hack).resolve_right (by omega)

/-- Terms, logs and leaders move on and the records stay. A replica that changes its log keeps
every prefix that the leader of its term does not lack. -/
theorem Safe.grow (hs : r.Safe tm members) (hm : r.Matched tm)
    (hterm : ∀ v, r.term v ≤ r'.term v) (hg : LeadersGrow tm r.leader r'.leader)
    (hacks : r'.acks = r.acks) (hvotes : r'.votes = r.votes)
    (hlog : ∀ v P, P <+: r.log v → P <+: r'.log v ∨ Lacks r'.leader (r'.term v) P)
    (hnew : ∀ T L, r'.leader T = some L → r.leader T = none → r'.ElectedBy tm members T L) :
    r'.Safe tm members where
  acked v T m hack := by
    obtain ⟨hle, L, hL, hlen, hkept⟩ := hs.acked v T m (hacks ▸ hack)
    obtain ⟨ext, hext, -⟩ := hg T L hL
    refine ⟨hle.trans (hterm v), L ++ ext, hext, ?_, fun n hn => ?_⟩
    · rw [List.length_append]
      omega
    · rw [List.take_append_of_le_length (by omega)]
      rcases hkept n hn with hpre | ⟨T'', hT, hT', hlacks⟩
      · rcases hlog v _ hpre with hpre' | hlacks
        · exact .inl hpre'
        · refine .inr ⟨r'.term v, ?_, le_rfl, hlacks⟩
          refine lt_of_le_of_ne (hle.trans (hterm v)) fun heq => ?_
          obtain ⟨L', hL', hnot⟩ := hlacks
          obtain rfl : L ++ ext = L' := Option.some.inj (hext.symm.trans (heq ▸ hL'))
          exact hnot ((List.take_prefix n L).trans (List.prefix_append L ext))
      · refine .inr ⟨T'', hT, hT'.trans (hterm v), hlacks.grow hg fun e he => ?_⟩
        exact (hm.leader_bound T L hL e (List.mem_of_mem_take he)).trans_lt hT
  voted v T' li lt hvote := by
    obtain ⟨hle, hinf⟩ := hs.voted v T' li lt (hvotes ▸ hvote)
    exact ⟨hle.trans (hterm v), hinf.grow hm hs hg fun T m hack _ => hacks ▸ hack⟩
  elected T' L' hL' := by
    cases hold : r.leader T' with
    | none => exact hnew T' L' hL' hold
    | some L =>
      obtain ⟨ext, hext, hextterm⟩ := hg T' L hold
      obtain rfl : L ++ ext = L' := Option.some.inj (hext.symm.trans hL')
      exact (hs.elected T' L hold).grow hm hs hg hterm (fun v T m hack => .inl (hacks ▸ hack))
        hextterm

section Operations

open Function (update)

variable [DecidableEq N] {v : N} {T t m : ℕ} {h : List E} {e : E}

def advance (r : Replicas N E) (v : N) (t : ℕ) : Replicas N E :=
  { r with term := update r.term v t }

def setLog (r : Replicas N E) (v : N) (h : List E) : Replicas N E :=
  { r with log := update r.log v h }

def elect (r : Replicas N E) (v : N) (T : ℕ) : Replicas N E :=
  { r with leader := update r.leader T (some (r.log v)) }

def append (r : Replicas N E) (v : N) (T : ℕ) (e : E) : Replicas N E :=
  { r with
    log := update r.log v (r.log v ++ [e])
    leader := update r.leader T (some (r.log v ++ [e])) }

def ack (r : Replicas N E) (v : N) (T m : ℕ) : Replicas N E :=
  { r with acks := insert (v, T, m) r.acks }

def castVote (r : Replicas N E) (v : N) (T li lt : ℕ) : Replicas N E :=
  { r with votes := insert (v, T, li, lt) r.votes }

omit [DecidableEq N] in
theorem leadersGrow_elect (hnone : r.leader T = none) :
    LeadersGrow tm r.leader (update r.leader T (some h)) := by
  intro T' L hL
  have hne : T' ≠ T := fun heq => by
    rw [heq, hnone] at hL
    cases hL
  exact ⟨[], by rwa [Function.update_of_ne hne, List.append_nil],
    fun _ he => absurd he List.not_mem_nil⟩

omit [DecidableEq N] in
theorem leadersGrow_append (hlead : r.leader T = some h) (htm : tm e = T) :
    LeadersGrow tm r.leader (update r.leader T (some (h ++ [e]))) := by
  intro T' L hL
  by_cases hT : T' = T
  · subst hT
    obtain rfl := Option.some.inj (hlead.symm.trans hL)
    exact ⟨[e], Function.update_self .., fun d hd => List.mem_singleton.mp hd ▸ htm⟩
  · exact ⟨[], by rwa [Function.update_of_ne hT, List.append_nil],
      fun _ he => absurd he List.not_mem_nil⟩

theorem le_update_term (ht : r.term v ≤ t) (w : N) : r.term w ≤ update r.term v t w := by
  by_cases hw : w = v
  · subst hw
    rwa [Function.update_self]
  · rw [Function.update_of_ne hw]

theorem Matched.advance (hm : r.Matched tm) (ht : r.term v ≤ t) :
    (r.advance v t).Matched tm :=
  ⟨hm.log_anchored, hm.leader_anchored,
    fun w e he => (hm.log_bound w e he).trans (le_update_term ht w), hm.leader_bound⟩

theorem Matched.setLog (hm : r.Matched tm) (ha : Anchored tm r.leader h)
    (hb : ∀ e ∈ h, tm e ≤ r.term v) : (r.setLog v h).Matched tm where
  log_anchored w := by
    by_cases hw : w = v
    · subst hw
      simpa only [Replicas.setLog, Function.update_self] using ha
    · simpa only [Replicas.setLog, Function.update_of_ne hw] using hm.log_anchored w
  leader_anchored := hm.leader_anchored
  log_bound w := by
    by_cases hw : w = v
    · subst hw
      simpa only [Replicas.setLog, Function.update_self] using hb
    · simpa only [Replicas.setLog, Function.update_of_ne hw] using hm.log_bound w
  leader_bound := hm.leader_bound

omit [DecidableEq N] in
theorem Matched.elect (hm : r.Matched tm) (hnone : r.leader T = none)
    (hb : ∀ e ∈ r.log v, tm e ≤ T) : (r.elect v T).Matched tm := by
  have hg : LeadersGrow tm r.leader (r.elect v T).leader := leadersGrow_elect hnone
  have hcases : ∀ T' L, (r.elect v T).leader T' = some L →
      (T' = T ∧ L = r.log v) ∨ r.leader T' = some L := by
    intro T' L hL
    by_cases hT : T' = T
    · subst hT
      have hself : (r.elect v T').leader T' = some (r.log v) := Function.update_self ..
      exact .inl ⟨rfl, Option.some.inj (hL.symm.trans hself)⟩
    · exact .inr ((Function.update_of_ne hT ..).symm.trans hL)
  refine ⟨fun w => (hm.log_anchored w).grow hg, fun T' L hL => ?_, hm.log_bound,
    fun T' L hL => ?_⟩
  · rcases hcases T' L hL with ⟨-, rfl⟩ | hold
    · exact (hm.log_anchored v).grow hg
    · exact (hm.leader_anchored T' L hold).grow hg
  · rcases hcases T' L hL with ⟨rfl, rfl⟩ | hold
    · exact hb
    · exact hm.leader_bound T' L hold

theorem Matched.append (hm : r.Matched tm) (hlead : r.leader T = some (r.log v))
    (hterm : r.term v = T) (htm : tm e = T) : (r.append v T e).Matched tm := by
  have hg : LeadersGrow tm r.leader (r.append v T e).leader := leadersGrow_append hlead htm
  have hself : (r.append v T e).leader T = some (r.log v ++ [e]) := Function.update_self ..
  have hnew : Anchored tm (r.append v T e).leader (r.log v ++ [e]) :=
    (hm.log_anchored v).concat htm hg hself
  have hbound : ∀ d ∈ r.log v ++ [e], tm d ≤ T := by
    intro d hd
    rcases List.mem_append.mp hd with hd | hd
    · exact hm.leader_bound T _ hlead d hd
    · exact (List.mem_singleton.mp hd ▸ htm).le
  refine ⟨fun w => ?_, fun T' L hL => ?_, fun w => ?_, fun T' L hL => ?_⟩
  · by_cases hw : w = v
    · subst hw
      simpa only [Replicas.append, Function.update_self] using hnew
    · simpa only [Replicas.append, Function.update_of_ne hw] using (hm.log_anchored w).grow hg
  · by_cases hT : T' = T
    · subst hT
      exact Option.some.inj (hself.symm.trans hL) ▸ hnew
    · exact (hm.leader_anchored T' L ((Function.update_of_ne hT ..).symm.trans hL)).grow hg
  · by_cases hw : w = v
    · subst hw
      simpa only [Replicas.append, Function.update_self, hterm] using hbound
    · simpa only [Replicas.append, Function.update_of_ne hw] using hm.log_bound w
  · by_cases hT : T' = T
    · subst hT
      exact Option.some.inj (hself.symm.trans hL) ▸ hbound
    · exact hm.leader_bound T' L ((Function.update_of_ne hT ..).symm.trans hL)

theorem Safe.advance (hs : r.Safe tm members) (hm : r.Matched tm) (ht : r.term v ≤ t) :
    (r.advance v t).Safe tm members :=
  hs.grow hm (le_update_term ht) (.refl _) rfl rfl (fun _ _ hP => .inl hP)
    fun T L hL hnone => by
      change r.leader T = some L at hL
      rw [hnone] at hL
      cases hL

/-- A replica may replace its log by one that keeps every prefix the current leader has. -/
theorem Safe.setLog (hs : r.Safe tm members) (hm : r.Matched tm)
    (hkeep : ∀ P, P <+: r.log v → P <+: h ∨ Lacks r.leader (r.term v) P) :
    (r.setLog v h).Safe tm members := by
  refine hs.grow hm (fun _ => le_rfl) (.refl _) rfl rfl (fun w P hP => ?_) fun T L hL hnone => ?_
  · by_cases hw : w = v
    · subst hw
      simpa only [Replicas.setLog, Function.update_self] using hkeep P hP
    · exact .inl (by simpa only [Replicas.setLog, Function.update_of_ne hw] using hP)
  · change r.leader T = some L at hL
    rw [hnone] at hL
    cases hL

omit [DecidableEq N] in
theorem Safe.elect (hs : r.Safe tm members) (hm : r.Matched tm) (hnone : r.leader T = none)
    (hb : ∀ e ∈ r.log v, tm e ≤ T) {Q : Finset N} (hsub : Q ⊆ members)
    (hcard : members.card / 2 + 1 ≤ Q.card)
    (hvotes : ∀ w ∈ Q, (w, T, (r.log v).length, lastTerm tm (r.log v)) ∈ r.votes) :
    (r.elect v T).Safe tm members := by
  have hg : LeadersGrow tm r.leader (r.elect v T).leader := leadersGrow_elect hnone
  refine hs.grow hm (fun _ => le_rfl) hg rfl rfl (fun _ _ hP => .inl hP) fun T' L hL hold => ?_
  have hT : T' = T := by
    by_contra hne
    change update r.leader T (some (r.log v)) T' = some L at hL
    rw [Function.update_of_ne hne, hold] at hL
    cases hL
  subst hT
  have hself : (r.elect v T').leader T' = some (r.log v) := Function.update_self ..
  obtain rfl := Option.some.inj (hself.symm.trans hL)
  refine ⟨r.log v, [], Q, (List.append_nil _).symm, fun _ he => absurd he List.not_mem_nil,
    fun e he => lt_of_le_of_ne (hb e he) ((hm.log_anchored v).tm_ne hnone he), hsub, hcard,
    fun w hw => ?_⟩
  obtain ⟨hle, hinf⟩ := hs.voted w T' _ _ (hvotes w hw)
  have hstrict : r.Informed tm w T' T' (r.log v).length (lastTerm tm (r.log v)) := by
    intro T m n L₀ hack hlt hL₀ hpos hn hterm
    rcases hinf T m n L₀ hack hlt hL₀ hpos hn hterm with hnew | hsame | ⟨T'', hT, hT', hlacks⟩
    · exact .inl hnew
    · exact .inr (.inl hsame)
    · refine .inr (.inr ⟨T'', hT, lt_of_le_of_ne (by omega) fun heq => ?_, hlacks⟩)
      obtain ⟨L', hL', -⟩ := hlacks
      rw [heq, hnone] at hL'
      cases hL'
  exact ⟨hle, hstrict.grow hm hs hg fun _ _ hack _ => hack⟩

theorem Safe.append (hs : r.Safe tm members) (hm : r.Matched tm)
    (hlead : r.leader T = some (r.log v)) (htm : tm e = T) : (r.append v T e).Safe tm members := by
  refine hs.grow hm (fun _ => le_rfl) (leadersGrow_append hlead htm) rfl rfl (fun w P hP => ?_)
    fun T' L hL hnone => ?_
  · by_cases hw : w = v
    · subst hw
      refine .inl ?_
      simpa only [Replicas.append, Function.update_self] using hP.trans (List.prefix_append _ _)
    · exact .inl (by simpa only [Replicas.append, Function.update_of_ne hw] using hP)
  · have hne : T' ≠ T := fun heq => by
      rw [heq, hlead] at hnone
      cases hnone
    change update r.leader T _ T' = some L at hL
    rw [Function.update_of_ne hne, hnone] at hL
    cases hL

omit [DecidableEq N] in
theorem Safe.ack (hs : r.Safe tm members) (hm : r.Matched tm) (hterm : r.term v = T) {L : List E}
    (hL : r.leader T = some L) (hlen : m ≤ L.length) (hpre : L.take m <+: r.log v) :
    (r.ack v T m).Safe tm members where
  acked w T' m' := by
    rintro (heq | hold)
    · cases heq
      refine ⟨hterm.ge, L, hL, hlen, fun n hn => .inl (List.IsPrefix.trans ?_ hpre)⟩
      exact List.take_prefix_take_left hn
    · exact hs.acked w T' m' hold
  voted w T' li lt hvote := by
    obtain ⟨hle, hinf⟩ := hs.voted w T' li lt hvote
    refine ⟨hle, hinf.grow hm hs (.refl _) fun T'' m' hack hlt => ?_⟩
    rcases hack with heq | hold
    · cases heq
      omega
    · exact hold
  elected T' L' hL' := by
    have hacks : ∀ w T'' m', (w, T'', m') ∈ (r.ack v T m).acks →
        (w, T'', m') ∈ r.acks ∨ r.term w ≤ T'' := by
      rintro w T'' m' (heq | hold)
      · cases heq
        exact .inr hterm.le
      · exact .inl hold
    have hby : (r.ack v T m).ElectedBy tm members T' (L' ++ []) :=
      (hs.elected T' L' hL').grow hm hs (.refl _) (fun _ => le_rfl) hacks
        fun _ he => absurd he List.not_mem_nil
    rwa [List.append_nil] at hby

omit [DecidableEq N] in
theorem Matched.le_lastTerm (hm : r.Matched tm) (he : e ∈ r.log v) :
    tm e ≤ lastTerm tm (r.log v) := by
  obtain ⟨L, hL, hpre⟩ := (hm.log_anchored v).isPrefix_leader (List.ne_nil_of_mem he)
  exact hm.leader_bound _ L hL e (hpre.subset he)

omit [DecidableEq N] in
/-- A replica votes for logs that are at least as recent as its own. -/
theorem Safe.castVote (hs : r.Safe tm members) (hm : r.Matched tm) {li lt : ℕ}
    (hterm : r.term v = T)
    (hup : lastTerm tm (r.log v) < lt ∨
      (lt = lastTerm tm (r.log v) ∧ (r.log v).length ≤ li)) :
    (r.castVote v T li lt).Safe tm members := by
  refine ⟨hs.acked, fun w T' li' lt' => ?_, hs.elected⟩
  rintro (heq | hold)
  · cases heq
    refine ⟨hterm.ge, fun T₀ m n L hack hlt hL hpos hn hentry => ?_⟩
    obtain ⟨-, L', hL', hlen, hkept⟩ := hs.acked v T₀ m hack
    obtain rfl : L' = L := Option.some.inj (hL'.symm.trans hL)
    rcases hkept n hn with hpre | ⟨T'', hT, hT', hlacks⟩
    · obtain ⟨d, hd, rfl⟩ := Option.map_eq_some_iff.mp hentry
      have hget : (r.log v)[n - 1]? = some d :=
        getElem?_of_isPrefix hpre (by rwa [List.getElem?_take_of_lt (by omega)])
      have hlast := hm.le_lastTerm (List.mem_of_getElem? hget)
      have hn' := (List.getElem?_eq_some_iff.mp hget).1
      rcases hup with hgt | ⟨heq, hle⟩
      · exact .inl (hlast.trans_lt hgt)
      · rcases hlast.lt_or_eq with hlt' | heq'
        · exact .inl (heq ▸ hlt')
        · exact .inr (.inl ⟨heq.trans heq'.symm, by omega⟩)
    · exact .inr (.inr ⟨T'', hT, by omega, hlacks⟩)
  · exact hs.voted w T' li' lt' hold

end Operations
end Replicas
end ReplicatedLog
