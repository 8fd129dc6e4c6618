import NomadLite.Replicas

/-!
# Committed prefixes

A prefix of a leader's log is committed once so many replicas have acknowledged it
that they meet every majority. Every later leader then has it: its electorate
contains a replica that acknowledged the prefix, and that replica only voted for a
log recent enough to contain it.
-/

namespace ReplicatedLog

/-- Two logs with entries of different terms at position `i` share at most `i` entries. -/
theorem length_le_of_conflict {E : Type*} {tm : E → ℕ} {P h L : List E} {i : ℕ} {e e' : E}
    (hP : P <+: h) (hP' : P <+: L) (he : h[i]? = some e) (he' : L[i]? = some e')
    (hne : tm e ≠ tm e') : P.length ≤ i := by
  by_contra hlt
  have hget : P[i]? = some P[i] := List.getElem?_eq_getElem (by omega)
  have h₁ := getElem?_of_isPrefix hP hget
  have h₂ := getElem?_of_isPrefix hP' hget
  rw [he] at h₁
  rw [he'] at h₂
  exact hne (congrArg tm ((Option.some.inj h₁).trans (Option.some.inj h₂).symm))

namespace Replicas

variable {N E : Type*} {tm : E → ℕ} {members : Finset N} {r r' : Replicas N E}

/-- Taking over the first `p` entries of the leader's log gives up nothing the leader has, if the
old log was no longer or disagreed with the leader's. -/
theorem keeps_of_copied (tm : E → ℕ) {h L : List E} {T p : ℕ} (hL : r.leader T = some L)
    (hcase : h.length ≤ p ∨
      ∃ i e e', i ≤ p ∧ h[i]? = some e ∧ L[i]? = some e' ∧ tm e ≠ tm e') :
    ∀ P, P <+: h → P <+: L.take p ∨ Lacks r.leader T P := by
  intro P hP
  by_cases hPL : P <+: L
  · refine .inl (List.prefix_take_iff.mpr ⟨hPL, ?_⟩)
    rcases hcase with hle | ⟨i, e, e', hi, he, he', hne⟩
    · exact hP.length_le.trans hle
    · exact (length_le_of_conflict hP hPL he he' hne).trans hi
  · exact .inr ⟨L, hL, hPL⟩

/-- Cutting a log where it disagrees with the leader's gives up nothing the leader has. -/
theorem keeps_of_cut (tm : E → ℕ) {h L : List E} {T i : ℕ} {e e' : E} (hL : r.leader T = some L)
    (he : h[i]? = some e) (he' : L[i]? = some e') (hne : tm e ≠ tm e') :
    ∀ P, P <+: h → P <+: h.take i ∨ Lacks r.leader T P := by
  intro P hP
  by_cases hPL : P <+: L
  · exact .inl (List.prefix_take_iff.mpr ⟨hP, length_le_of_conflict hP hPL he he' hne⟩)
  · exact .inr ⟨L, hL, hPL⟩

/-- The prefix `P` of the log of the leader of term `T`, ending with an entry of that term, is
acknowledged by so many members that they meet every majority. -/
def Committed (tm : E → ℕ) (members : Finset N) (r : Replicas N E) (T : ℕ) (P : List E) : Prop :=
  ∃ (L : List E) (C : Finset N), r.leader T = some L ∧ P <+: L ∧ P.getLast?.map tm = some T ∧
    C ⊆ members ∧ members.card - members.card / 2 ≤ C.card ∧
    ∀ v ∈ C, ∃ m, P.length ≤ m ∧ (v, T, m) ∈ r.acks

theorem Committed.grow {T : ℕ} {P : List E} (hc : r.Committed tm members T P)
    (hg : LeadersGrow tm r.leader r'.leader) (hacks : r.acks ⊆ r'.acks) :
    r'.Committed tm members T P := by
  obtain ⟨L, C, hL, hP, hlast, hsub, hcard, hC⟩ := hc
  obtain ⟨ext, hext, -⟩ := hg T L hL
  refine ⟨L ++ ext, C, hext, hP.trans (List.prefix_append _ _), hlast, hsub, hcard, fun v hv => ?_⟩
  obtain ⟨m, hm, hack⟩ := hC v hv
  exact ⟨m, hm, hacks hack⟩

/-- Leader Completeness: the leaders of later terms have every committed prefix. -/
theorem Committed.isPrefix_leader [DecidableEq N] {T : ℕ} {P : List E}
    (hc : r.Committed tm members T P) (hm : r.Matched tm) (hs : r.Safe tm members) {T' : ℕ}
    {L' : List E} (hlt : T < T') (hL' : r.leader T' = some L') : P <+: L' := by
  obtain ⟨L, C, hL, hP, hlast, hsubC, hcardC, hC⟩ := hc
  induction T' using Nat.strong_induction_on generalizing L' with
  | _ T' ih =>
    obtain ⟨h, ext, Q, rfl, -, hold, hsubQ, hcardQ, hQ⟩ := hs.elected T' L' hL'
    have hpre : h <+: h ++ ext := List.prefix_append _ _
    have hanch := (hm.leader_anchored T' _ hL').of_isPrefix hpre
    obtain ⟨v, hv⟩ : (C ∩ Q).Nonempty :=
      Finset.inter_nonempty_of_card_lt_card_add_card hsubC hsubQ (by omega)
    obtain ⟨hvC, hvQ⟩ := Finset.mem_inter.mp hv
    obtain ⟨m, hle, hack⟩ := hC v hvC
    have hne : P ≠ [] := by
      rintro rfl
      cases hlast
    have htake : L.take P.length = P := (List.prefix_iff_eq_take.mp hP).symm
    have hentry : (L[P.length - 1]?).map tm = some T := by
      obtain ⟨e, he, htm⟩ := Option.map_eq_some_iff.mp hlast
      rw [List.getLast?_eq_getElem?] at he
      rw [getElem?_of_isPrefix hP he, Option.map_some, htm]
    rcases (hQ v hvQ).2 T m P.length L hack hlt hL (List.length_pos_of_ne_nil hne) hle hentry with
      hnew | ⟨hsame, hlen⟩ | ⟨T'', hT, hT', L'', hL'', hnot⟩
    · have hne' : h ≠ [] := by
        rintro rfl
        exact absurd hnew (Nat.not_lt_zero T)
      obtain ⟨L'', hL'', hpre'⟩ := hanch.isPrefix_leader hne'
      have hterm : lastTerm tm h = tm (h.getLast hne') := by
        rw [lastTerm, List.getLast?_eq_some_getLast hne', Option.map_some, Option.getD_some]
      have hbelow : lastTerm tm h < T' := hterm ▸ hold _ (List.getLast_mem hne')
      have hPL := ih _ hbelow hnew hL''
      rcases le_or_gt P.length h.length with hle' | hgt
      · exact (List.prefix_of_prefix_length_le hPL hpre' hle').trans hpre
      · -- otherwise the last entry of `h`, of a term after `T`, would be in `L`
        have hsub := List.prefix_of_prefix_length_le hpre' hPL hgt.le
        have := hm.leader_bound T L hL _ (hP.subset (hsub.subset (List.getLast_mem hne')))
        omega
    · have hne' : h ≠ [] := List.ne_nil_of_length_pos
        ((List.length_pos_of_ne_nil hne).trans_le hlen)
      obtain ⟨L'', hL'', hpre'⟩ := hanch.isPrefix_leader hne'
      obtain rfl : L = L'' := Option.some.inj (hL.symm.trans (hsame ▸ hL''))
      exact (List.prefix_of_prefix_length_le hP hpre' hlen).trans hpre
    · exact absurd (ih T'' hT' hT hL'') (htake ▸ hnot)

/-- The log a later leader was elected with already has every committed prefix. -/
theorem Committed.isPrefix_elected [DecidableEq N] {T : ℕ} {P : List E}
    (hc : r.Committed tm members T P) (hm : r.Matched tm) (hs : r.Safe tm members) {T' : ℕ}
    {h ext : List E} (hlt : T < T') (hL' : r.leader T' = some (h ++ ext))
    (hext : ∀ e ∈ ext, tm e = T') : P <+: h := by
  have hP := hc.isPrefix_leader hm hs hlt hL'
  rcases le_or_gt P.length h.length with hle | hgt
  · exact List.prefix_of_prefix_length_le hP (List.prefix_append _ _) hle
  · exfalso
    obtain ⟨L, -, hL, hPL, -⟩ := hc
    have hget : P[h.length]? = some P[h.length] := List.getElem?_eq_getElem hgt
    have hmem : P[h.length] ∈ ext := by
      have hold := getElem?_of_isPrefix hP hget
      rw [List.getElem?_append_right le_rfl] at hold
      exact List.mem_of_getElem? hold
    have := hm.leader_bound T L hL _ (hPL.subset (List.mem_of_getElem? hget))
    have := hext _ hmem
    omega

theorem Committed.comparable [DecidableEq N] {T T' : ℕ} {P P' : List E}
    (hc : r.Committed tm members T P) (hc' : r.Committed tm members T' P') (hm : r.Matched tm)
    (hs : r.Safe tm members) : P <+: P' ∨ P' <+: P := by
  have hPrefix : ∃ L, P <+: L ∧ P' <+: L := by
    obtain ⟨L, -, hL, hP, -⟩ := id hc
    obtain ⟨L', -, hL', hP', -⟩ := id hc'
    rcases lt_trichotomy T T' with hlt | rfl | hgt
    · exact ⟨L', hc.isPrefix_leader hm hs hlt hL', hP'⟩
    · exact ⟨L', Option.some.inj (hL.symm.trans hL') ▸ hP, hP'⟩
    · exact ⟨L, hP, hc'.isPrefix_leader hm hs hgt hL⟩
  obtain ⟨L, hP, hP'⟩ := hPrefix
  exact List.prefix_or_prefix_of_prefix hP hP'

/-- A prefix committed in a later term is longer: it ends with an entry of that term. -/
theorem Committed.length_lt [DecidableEq N] {T T' : ℕ} {P P' : List E}
    (hc : r.Committed tm members T P) (hc' : r.Committed tm members T' P') (hm : r.Matched tm)
    (hs : r.Safe tm members) (hlt : T < T') : P.length < P'.length := by
  obtain ⟨L', -, hL', hP', hlast', -⟩ := id hc'
  have hP := hc.isPrefix_leader hm hs hlt hL'
  by_contra hle
  obtain ⟨e, he, htm⟩ := Option.map_eq_some_iff.mp hlast'
  have hmem := (List.prefix_of_prefix_length_le hP' hP (not_lt.mp hle)).subset
    (List.mem_of_getLast? he)
  obtain ⟨L, -, hL, hPL, -⟩ := hc
  have := hm.leader_bound T L hL e (hPL.subset hmem)
  omega

/-- What may be applied in term `T`: a part of a prefix committed in that term or before. -/
def Covered (tm : E → ℕ) (members : Finset N) (r : Replicas N E) (T : ℕ) (h : List E) : Prop :=
  h = [] ∨ ∃ T' P, T' ≤ T ∧ r.Committed tm members T' P ∧ h <+: P

namespace Covered

variable {T T' : ℕ} {h h' L : List E}

theorem grow (hc : r.Covered tm members T h) (hg : LeadersGrow tm r.leader r'.leader)
    (hacks : r.acks ⊆ r'.acks) : r'.Covered tm members T h := by
  rcases hc with rfl | ⟨T', P, hT, hP, hpre⟩
  · exact .inl rfl
  · exact .inr ⟨T', P, hT, hP.grow hg hacks, hpre⟩

theorem mono (hc : r.Covered tm members T h) (hT : T ≤ T') : r.Covered tm members T' h := by
  rcases hc with rfl | ⟨T'', P, hT'', hP, hpre⟩
  · exact .inl rfl
  · exact .inr ⟨T'', P, hT''.trans hT, hP, hpre⟩

theorem of_isPrefix (hc : r.Covered tm members T h) (hpre : h' <+: h) :
    r.Covered tm members T h' := by
  rcases hc with rfl | ⟨T', P, hT, hP, hpre'⟩
  · exact .inl (List.prefix_nil.mp hpre)
  · exact .inr ⟨T', P, hT, hP, hpre.trans hpre'⟩

theorem of_committed (hc : r.Committed tm members T h) : r.Covered tm members T h :=
  .inr ⟨T, h, le_rfl, hc, List.prefix_rfl⟩

theorem isPrefix_leader [DecidableEq N] (hc : r.Covered tm members T h) (hm : r.Matched tm)
    (hs : r.Safe tm members) (hL : r.leader T = some L) : h <+: L := by
  rcases hc with rfl | ⟨T', P, hT, hP, hpre⟩
  · exact List.nil_prefix
  · rcases hT.lt_or_eq with hlt | rfl
    · exact hpre.trans (hP.isPrefix_leader hm hs hlt hL)
    · obtain ⟨L', -, hL', hPL, -⟩ := hP
      exact hpre.trans (Option.some.inj (hL'.symm.trans hL) ▸ hPL)

theorem getElem?_unique [DecidableEq N] (hc : r.Covered tm members T h)
    (hc' : r.Covered tm members T' h') (hm : r.Matched tm) (hs : r.Safe tm members) {i : ℕ}
    {e e' : E} (he : h[i]? = some e) (he' : h'[i]? = some e') : e = e' := by
  rcases hc with rfl | ⟨T, P, -, hP, hpre⟩
  · cases he
  · rcases hc' with rfl | ⟨T', P', -, hP', hpre'⟩
    · cases he'
    · have hget := getElem?_of_isPrefix hpre he
      have hget' := getElem?_of_isPrefix hpre' he'
      rcases hP.comparable hP' hm hs with hle | hle
      · exact Option.some.inj ((getElem?_of_isPrefix hle hget).symm.trans hget')
      · exact Option.some.inj (hget.symm.trans (getElem?_of_isPrefix hle hget'))

end Covered
end Replicas
end ReplicatedLog
