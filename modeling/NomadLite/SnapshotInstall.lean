import NomadLite.CommitKept
import NomadLite.RaftNode

/-!
# A snapshot in front of the receiver's own entries

`install_snapshot` keeps every entry above the snapshot's index without comparing the
entry at that index with the snapshot's term. The sender's and the receiver's logs go on
matching, because what is left of the receiver's log is as before and the snapshot is the
sender's own. The terms along the receiver's log may fall behind the snapshot.
-/

namespace NomadLite
namespace RaftState

/-- The term at an index, the snapshot counting as the entry before the log. -/
def termAt (s : RaftState) (i : ℕ) : Option ℕ :=
  if i = s.logOffset then s.snapshot.map Snapshot.lastIncludedTerm
  else (s.getEntry i).map LogEntry.term

structure AgreesAt (lib : WireLib) (s s' : RaftState) (i : ℕ) : Prop where
  term : ∀ t ∈ s.termAt i, ∀ t' ∈ s'.termAt i, t = t'
  entry : ∀ e ∈ s.getEntry i, ∀ e' ∈ s'.getEntry i, e.onWire lib = e'.onWire lib

def LogsMatch (lib : WireLib) (s s' : RaftState) : Prop :=
  ∀ i, ∀ t ∈ s.termAt i, t ∈ s'.termAt i → ∀ j ≤ i, s.AgreesAt lib s' j

def terms (s : RaftState) : List ℕ :=
  (s.snapshot.map Snapshot.lastIncludedTerm).toList ++ s.log.map LogEntry.term

def TermsOrdered (s : RaftState) : Prop := s.terms.Pairwise (· ≤ ·)

instance (s : RaftState) : Decidable s.TermsOrdered :=
  inferInstanceAs (Decidable (List.Pairwise _ _))

variable {lib : WireLib} {s s' : RaftState}

theorem termAt_of_lt {i : ℕ} (hi : s.logOffset < i) :
    s.termAt i = (s.getEntry i).map LogEntry.term := if_neg hi.ne'

theorem termAt_below {i : ℕ} (hi : i < s.logOffset) : s.termAt i = none := by
  rw [termAt, if_neg hi.ne, getEntry, if_pos (.inr hi.le)]
  rfl

theorem getElem?_log (s : RaftState) (j : ℕ) : s.log[j]? = s.getEntry (s.logOffset + 1 + j) := by
  rw [getEntry_of_lt (by omega), show s.logOffset + 1 + j - s.logOffset - 1 = j by omega]

theorem mem_terms_of_termAt {i t : ℕ} (h : t ∈ s.termAt i) : t ∈ s.terms := by
  rw [termAt] at h
  split_ifs at h
  · exact List.mem_append_left _ (Option.mem_toList.mpr h)
  · obtain ⟨e, he, rfl⟩ := Option.mem_map.mp h
    rw [getEntry] at he
    split_ifs at he
    · cases he
    · exact List.mem_append_right _ (List.mem_map_of_mem (List.mem_of_getElem? he))

theorem logsMatch_of_terms (h : ∀ t ∈ s.terms, t ∉ s'.terms) : s.LogsMatch lib s' :=
  fun _ t ht ht' => absurd (mem_terms_of_termAt ht') (h t (mem_terms_of_termAt ht))

theorem termsOrdered_iff {snapshot : Snapshot} (hsnap : s.snapshot = some snapshot) :
    s.TermsOrdered ↔
      (∀ i j, s.logOffset < i → i ≤ j → ∀ e ∈ s.getEntry i, ∀ e' ∈ s.getEntry j,
        e.term ≤ e'.term) ∧
      ∀ e ∈ s.getEntry (s.logOffset + 1), snapshot.lastIncludedTerm ≤ e.term := by
  rw [TermsOrdered, terms, hsnap]
  change (snapshot.lastIncludedTerm :: s.log.map LogEntry.term).Pairwise (· ≤ ·) ↔ _
  rw [List.pairwise_cons, List.pairwise_map, List.pairwise_iff_getElem]
  constructor
  · rintro ⟨hfirst, hpairs⟩
    refine ⟨fun i j hlow hle e he e' he' => ?_, fun e he => ?_⟩
    · rw [Option.mem_def, getEntry_of_lt hlow] at he
      rw [Option.mem_def, getEntry_of_lt (hlow.trans_le hle)] at he'
      obtain ⟨hi, rfl⟩ := List.getElem?_eq_some_iff.mp he
      obtain ⟨hj, rfl⟩ := List.getElem?_eq_some_iff.mp he'
      rcases hle.lt_or_eq with hlt | rfl
      · exact hpairs _ _ hi hj (by omega)
      · exact le_rfl
    · have hget : s.log[0]? = some e := (s.getElem?_log 0).trans he
      exact hfirst _ (List.mem_map_of_mem (List.mem_of_getElem? hget))
  · rintro ⟨hpairs, hfirst⟩
    have hentry : ∀ j (hj : j < s.log.length),
        s.getEntry (s.logOffset + 1 + j) = some s.log[j] := fun j hj =>
      (s.getElem?_log j).symm.trans (List.getElem?_eq_getElem hj)
    refine ⟨fun t ht => ?_, fun i j hi hj hlt => ?_⟩
    · obtain ⟨e, he, rfl⟩ := List.mem_map.mp ht
      obtain ⟨j, hj, rfl⟩ := List.mem_iff_getElem.mp he
      have hzero : 0 < s.log.length := (Nat.zero_le j).trans_lt hj
      exact (hfirst _ (hentry 0 hzero)).trans
        (hpairs _ _ (by omega) (by omega) _ (hentry 0 hzero) _ (hentry j hj))
    · exact hpairs _ _ (by omega) (by omega) _ (hentry i hi) _ (hentry j hj)

end RaftState

section Install

variable {lib : WireLib} {L R R' : RaftState} {snapshot : Snapshot}

structure Installed (snapshot : Snapshot) (R R' : RaftState) : Prop where
  offset_lt : R.logOffset < snapshot.lastIncludedIndex
  logOffset : R'.logOffset = snapshot.lastIncludedIndex
  snapshotTerm : ∃ stored, R'.snapshot = some stored ∧
    stored.lastIncludedTerm = snapshot.lastIncludedTerm
  getEntry : ∀ i, snapshot.lastIncludedIndex < i → R'.getEntry i = R.getEntry i

theorem installed_handleInstallSnapshot (lib : WireLib) (haligned : R.Aligned) {term : ℕ}
    (hterm : R.currentTerm ≤ term) (hnew : R.logOffset < snapshot.lastIncludedIndex)
    (leaderId : ℕ) : Installed snapshot R
      (handleInstallSnapshot lib R (snapshot.toRequest lib term leaderId)).1 := by
  have hinstalls : R.Installs (snapshot.toRequest lib term leaderId) := ⟨hterm, hnew⟩
  obtain ⟨hlog, hoff, -, -, hsnap⟩ := hinstalls.handleInstallSnapshot haligned lib
  refine ⟨hnew, hoff, ⟨_, hsnap, rfl⟩, fun i hi => ?_⟩
  rw [RaftState.getEntry_of_lt (hoff.trans_lt hi), RaftState.getEntry_of_lt (hnew.trans hi), hlog,
    hoff, List.getElem?_drop]
  congr 1
  change snapshot.lastIncludedIndex - R.logOffset + (i - snapshot.lastIncludedIndex - 1) = _
  omega

namespace Installed

theorem termAt_eq (h : Installed snapshot R R') {i : ℕ} (hi : snapshot.lastIncludedIndex < i) :
    R'.termAt i = R.termAt i := by
  rw [RaftState.termAt_of_lt (h.logOffset.trans_lt hi),
    RaftState.termAt_of_lt (h.offset_lt.trans hi), h.getEntry i hi]

theorem termAt_snapshot (h : Installed snapshot R R') :
    R'.termAt snapshot.lastIncludedIndex = some snapshot.lastIncludedTerm := by
  obtain ⟨stored, hstored, hterm⟩ := h.snapshotTerm
  rw [RaftState.termAt, if_pos h.logOffset.symm, hstored, Option.map_some, hterm]

/-- The sender's snapshot takes the place of whatever the receiver had up to it. -/
theorem logsMatch (h : Installed snapshot R R') (hsnap : L.snapshot = some snapshot)
    (hindex : snapshot.lastIncludedIndex = L.logOffset) (hmatch : L.LogsMatch lib R) :
    L.LogsMatch lib R' := by
  intro i t hL hR j hj
  have hnone : ∀ i, i ≤ snapshot.lastIncludedIndex → R'.getEntry i = none := fun i hi =>
    if_pos (.inr (h.logOffset ▸ hi))
  rcases lt_trichotomy j snapshot.lastIncludedIndex with hlt | rfl | hgt
  · have hbelow : R'.termAt j = none := RaftState.termAt_below (h.logOffset ▸ hlt)
    refine ⟨fun _ _ t' ht' => ?_, fun _ _ e' he' => ?_⟩
    · rw [hbelow] at ht'
      cases ht'
    · rw [hnone j hlt.le] at he'
      cases he'
  · refine ⟨fun t ht t' ht' => ?_, fun _ _ e' he' => ?_⟩
    · rw [RaftState.termAt, if_pos hindex, hsnap, Option.map_some] at ht
      rw [h.termAt_snapshot] at ht'
      exact (Option.mem_some.mp ht).symm.trans (Option.mem_some.mp ht')
    · rw [hnone _ le_rfl] at he'
      cases he'
  · rw [h.termAt_eq (hgt.trans_le hj)] at hR
    obtain ⟨hterms, hentries⟩ := hmatch i t hL hR j hj
    refine ⟨?_, ?_⟩
    · rwa [h.termAt_eq hgt]
    · rwa [h.getEntry j hgt]

end Installed

/-- After an installation the logs still match, with terms that do not decrease, exactly when the
receiver's own entries above the snapshot are in order and the first of them is not older than
the snapshot. -/
theorem install_keeps_log_consistent_iff (lib : WireLib) {term leaderId : ℕ}
    (haligned : R.Aligned) (hsnap : L.snapshot = some snapshot)
    (hindex : snapshot.lastIncludedIndex = L.logOffset) (hmatch : L.LogsMatch lib R)
    (hterm : R.currentTerm ≤ term) (hnew : R.logOffset < snapshot.lastIncludedIndex) :
    (L.LogsMatch lib (handleInstallSnapshot lib R (snapshot.toRequest lib term leaderId)).1 ∧
      (handleInstallSnapshot lib R (snapshot.toRequest lib term leaderId)).1.TermsOrdered) ↔
    (∀ i j, snapshot.lastIncludedIndex < i → i ≤ j → ∀ e ∈ R.getEntry i, ∀ e' ∈ R.getEntry j,
        e.term ≤ e'.term) ∧
      ∀ e ∈ R.getEntry (snapshot.lastIncludedIndex + 1), snapshot.lastIncludedTerm ≤ e.term := by
  have hinstalled := installed_handleInstallSnapshot lib haligned hterm hnew leaderId
  obtain ⟨stored, hstored, hsame⟩ := hinstalled.snapshotTerm
  rw [and_iff_right (hinstalled.logsMatch hsnap hindex hmatch),
    RaftState.termsOrdered_iff hstored, hinstalled.logOffset, hsame,
    hinstalled.getEntry _ (Nat.lt_succ_self _)]
  refine and_congr_left' (forall_congr' fun i => forall_congr' fun j => ?_)
  refine imp_congr_right fun hlow => imp_congr_right fun hle => ?_
  rw [hinstalled.getEntry i hlow, hinstalled.getEntry j (hlow.trans_le hle)]

def compactedLeader : RaftState :=
  ((((RaftState.new.becomeFollower 2).becomeLeader 2 [1]).appendEntry .noop).appendEntry
    .noop |>.appendEntry .noop).compactLog ⟨2, 2, [], []⟩

def oldFollower (n : ℕ) : RaftState :=
  (handleAppendEntries .standard .new ⟨1, 1, 0, 0, (List.range' 1 n).map (⟨1, ·, none⟩), 0⟩).1

theorem install_over_shorter_log :
    compactedLeader.LogsMatch .standard
        (handleInstallSnapshot .standard (oldFollower 1)
          (Snapshot.toRequest .standard ⟨2, 2, [], []⟩ 2 2)).1 ∧
      (handleInstallSnapshot .standard (oldFollower 1)
        (Snapshot.toRequest .standard ⟨2, 2, [], []⟩ 2 2)).1.TermsOrdered := by
  refine (install_keeps_log_consistent_iff .standard (by decide) rfl rfl
    (RaftState.logsMatch_of_terms (by decide)) (by decide) (by decide)).mpr ⟨?_, by decide⟩
  intro i j hlow _ e he
  have hoff : (oldFollower 1).logOffset = 0 := by decide
  have hlen : (oldFollower 1).log.length = 1 := by decide
  have hlow' : 2 < i := hlow
  have hnone : (oldFollower 1).getEntry i = none := by
    rw [RaftState.getEntry_of_lt (by omega), hoff]
    exact List.getElem?_eq_none (by omega)
  rw [hnone] at he
  cases he

/-- The third entry of the leader of term 1 stays behind a snapshot of term 2. -/
theorem install_keeps_older_entry :
    ¬ ∀ (lib : WireLib) (L R : RaftState) (snapshot : Snapshot) (term leaderId : ℕ),
      L.Aligned → R.Aligned → L.snapshot = some snapshot →
      snapshot.lastIncludedIndex = L.logOffset → L.TermsOrdered → R.TermsOrdered →
      L.LogsMatch lib R → R.currentTerm ≤ term → R.logOffset < snapshot.lastIncludedIndex →
      (handleInstallSnapshot lib R (snapshot.toRequest lib term leaderId)).1.TermsOrdered := by
  intro hall
  have hordered := hall .standard compactedLeader (oldFollower 3) ⟨2, 2, [], []⟩ 2 2 (by decide)
    (by decide) rfl rfl (by decide) (by decide) (RaftState.logsMatch_of_terms (by decide))
    (by decide) (by decide)
  exact absurd hordered (by decide)

end Install
end NomadLite
