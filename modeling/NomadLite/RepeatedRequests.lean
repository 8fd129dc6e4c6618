import NomadLite.LogAlignment

/-!
# Requests that arrive again, and requests that arrive late

The network may hand a follower the same `AppendEntries` request twice, and an older
one after a newer. A request that is handled again at once changes nothing: every
branch of the handler is a fixed point of itself. A request that arrives late is
another matter, because its entries replace everything behind `prev_log_index`,
whether it conflicts with them or not.
-/

namespace NomadLite

namespace RaftState

variable {lib : WireLib} {s t : RaftState} {req : AppendEntriesRequest}

/-! ### The same request again -/

theorem follow_eq_self {term leaderId : ℕ} (hterm : s.currentTerm = term)
    (hrole : s.role = .follower) (hleader : s.leaderId = some leaderId) :
    s.follow term leaderId = s := by
  rw [follow, adoptTerm_eq_self hterm.ge, acceptLeader, if_neg (not_not.mpr hrole), ← hleader]

theorem follow_leaderId (s : RaftState) (term leaderId : ℕ) :
    (s.follow term leaderId).leaderId = some leaderId := rfl

theorem follow_setLog (log : List LogEntry) (commitIndex : ℕ) {term leaderId : ℕ}
    (h : s.currentTerm ≤ term) :
    ((s.follow term leaderId).setLog log commitIndex).follow term leaderId =
      (s.follow term leaderId).setLog log commitIndex :=
  follow_eq_self (s.follow_currentTerm leaderId h)
    (show (s.follow term leaderId).role = .follower from follow_role)
    (s.follow_leaderId term leaderId)

theorem updateCommitIndex_twice (s : RaftState) (leaderCommit : ℕ) :
    (s.updateCommitIndex leaderCommit).updateCommitIndex leaderCommit =
      s.updateCommitIndex leaderCommit := by
  by_cases hlt : s.commitIndex < leaderCommit
  · have hfirst : s.updateCommitIndex leaderCommit =
        { s with commitIndex := min leaderCommit s.lastLogIndex } := if_pos hlt
    rw [hfirst, updateCommitIndex]
    split_ifs <;> rfl
  · have hfirst : s.updateCommitIndex leaderCommit = s := if_neg hlt
    rw [hfirst, hfirst]

/-- What an accepted request with entries leaves in the log. -/
theorem appendNewEntries_log (hne : req.entries ≠ []) :
    (s.appendNewEntries lib req).log =
      if req.prevLogIndex < s.logOffset then decodeEntries lib req.entries
      else s.log.take (req.prevLogIndex - s.logOffset) ++ decodeEntries lib req.entries := by
  rw [appendNewEntries, if_neg hne, truncateAndAppend]
  split_ifs with hoff hlt hlt
  · rfl
  · omega
  · omega
  · rw [show req.prevLogIndex + 1 - s.logOffset - 1 = req.prevLogIndex - s.logOffset by omega]

/-- The consistency check has found everything up to `prev_log_index`. -/
theorem length_take_of_accept
    (hcheck : s.checkPrevLog req.prevLogIndex req.prevLogTerm = .accept) :
    (s.log.take (req.prevLogIndex - s.logOffset)).length = req.prevLogIndex - s.logOffset := by
  rw [List.length_take]
  rcases lt_or_ge s.logOffset req.prevLogIndex with hlt | hge
  · have := le_of_checkPrevLog hlt hcheck
    omega
  · omega

theorem appendNewEntries_again
    (hcheck : s.checkPrevLog req.prevLogIndex req.prevLogTerm = .accept)
    (hlog : t.log = (s.appendNewEntries lib req).log) (hoff : t.logOffset = s.logOffset) :
    t.appendNewEntries lib req = t := by
  by_cases hnil : req.entries = []
  · exact if_pos hnil
  · obtain ⟨log, heq⟩ := t.appendNewEntries_eq lib req
    have hsame : log = t.log := by
      have hlog' : log = (t.appendNewEntries lib req).log := by
        rw [heq]
        rfl
      rw [appendNewEntries_log hnil] at hlog hlog'
      rw [hlog', hoff, hlog]
      split_ifs
      · rfl
      · rw [List.take_left' (length_take_of_accept hcheck)]
    rw [heq, hsame]
    rfl

theorem checkPrevLog_again
    (hcheck : s.checkPrevLog req.prevLogIndex req.prevLogTerm = .accept)
    (hlog : t.log = (s.appendNewEntries lib req).log) (hoff : t.logOffset = s.logOffset)
    (hsnap : t.snapshot = s.snapshot) :
    t.checkPrevLog req.prevLogIndex req.prevLogTerm = .accept := by
  rcases le_or_gt req.prevLogIndex s.logOffset with hle | hlt
  · rw [← hcheck]
    simp only [checkPrevLog, hoff, hsnap]
    split_ifs
    · rfl
    · rfl
    · omega
    · rfl
  · have hget : t.getEntry req.prevLogIndex = s.getEntry req.prevLogIndex := by
      rw [getEntry, getEntry, hoff, if_neg (by omega), if_neg (by omega), hlog]
      by_cases hnil : req.entries = []
      · rw [appendNewEntries, if_pos hnil]
      · have hlength := length_take_of_accept hcheck
        rw [appendNewEntries_log hnil, if_neg (by omega), List.getElem?_append_left (by omega),
          List.getElem?_take_of_lt (by omega)]
    rw [← hcheck, checkPrevLog, checkPrevLog, hoff, hsnap, hget]

/-- A conflicting entry has been cut off, and what is left does not reach `prev_log_index`. -/
theorem checkPrevLog_cut
    (hcheck : s.checkPrevLog req.prevLogIndex req.prevLogTerm = .mismatch)
    (hlog : t.log = s.log.take (req.prevLogIndex - s.logOffset - 1))
    (hoff : t.logOffset = s.logOffset) :
    t.checkPrevLog req.prevLogIndex req.prevLogTerm = .reject := by
  have hlt := (lt_of_mismatch hcheck).1
  have hget : t.getEntry req.prevLogIndex = none := by
    rw [getEntry, hoff, if_neg (by omega), hlog]
    refine List.getElem?_eq_none ?_
    rw [List.length_take]
    exact min_le_left _ _
  rw [checkPrevLog, hoff, if_pos (by omega), if_neg (by omega), if_neg (by omega), hget]

end RaftState

theorem follow_handleAppendEntries (lib : WireLib) {s : RaftState} {req : AppendEntriesRequest}
    (h : s.currentTerm ≤ req.term) :
    (handleAppendEntries lib s req).1.follow req.term req.leaderId =
      (handleAppendEntries lib s req).1 := by
  obtain ⟨log, commitIndex, heq⟩ := handleAppendEntries_eq_setLog lib h
  rw [heq]
  exact RaftState.follow_setLog log commitIndex h

/-- A request that is handled a second time right after the first returns the same response and
leaves the state as it is. -/
theorem handleAppendEntries_idempotent (lib : WireLib) (s : RaftState)
    (req : AppendEntriesRequest) :
    (handleAppendEntries lib (handleAppendEntries lib s req).1 req).2 =
        (handleAppendEntries lib s req).2 ∧
      (handleAppendEntries lib (handleAppendEntries lib s req).1 req).1 =
        (handleAppendEntries lib s req).1 := by
  rcases lt_or_ge req.term s.currentTerm with hstale | hcurrent
  · rw [handleAppendEntries_stale hstale, handleAppendEntries_stale hstale]
    exact ⟨rfl, rfl⟩
  · obtain ⟨hterm, -, hoff, hsnap⟩ := handleAppendEntries_follower lib hcurrent
    have hfollow := follow_handleAppendEntries lib hcurrent
    have hfirst : handleAppendEntries lib s req = _ := handleAppendEntries_current hcurrent
    have hagain : handleAppendEntries lib (handleAppendEntries lib s req).1 req = _ :=
      handleAppendEntries_current hterm.le
    generalize handleAppendEntries lib s req = r at *
    rw [hfollow] at hagain
    rw [hagain]
    cases hcheck : s.checkPrevLog req.prevLogIndex req.prevLogTerm with
    | reject =>
      simp only [hcheck] at hfirst
      have hcheck' : r.1.checkPrevLog req.prevLogIndex req.prevLogTerm = .reject := by
        rw [hfirst, RaftState.follow_checkPrevLog, hcheck]
      rw [hcheck', hfirst]
      exact ⟨rfl, rfl⟩
    | mismatch =>
      simp only [hcheck] at hfirst
      have hlog : r.1.log = s.log.take (req.prevLogIndex - s.logOffset - 1) := by rw [hfirst]
      have hcheck' := RaftState.checkPrevLog_cut hcheck hlog hoff
      rw [hcheck', hfirst]
      exact ⟨rfl, rfl⟩
    | accept =>
      simp only [hcheck] at hfirst
      have hlog : r.1.log = ((s.follow req.term req.leaderId).appendNewEntries lib req).log := by
        obtain ⟨commitIndex, heq⟩ := ((s.follow req.term req.leaderId).appendNewEntries lib
          req).updateCommitIndex_eq req.leaderCommit
        rw [hfirst, heq]
        rfl
      have hfollowed : (s.follow req.term req.leaderId).checkPrevLog req.prevLogIndex
          req.prevLogTerm = .accept := by rw [RaftState.follow_checkPrevLog, hcheck]
      have hoff' : r.1.logOffset = (s.follow req.term req.leaderId).logOffset := by
        rw [hoff, RaftState.follow_logOffset]
      have hsnap' : r.1.snapshot = (s.follow req.term req.leaderId).snapshot := by
        rw [hsnap, RaftState.follow_snapshot]
      have hcheck' := RaftState.checkPrevLog_again hfollowed hlog hoff' hsnap'
      simp only [hcheck']
      rw [RaftState.appendNewEntries_again hfollowed hlog hoff', hfirst,
        RaftState.updateCommitIndex_twice]
      exact ⟨rfl, rfl⟩

/-! ### A request that arrives late -/

theorem accept_of_success {lib : WireLib} {s : RaftState} {req : AppendEntriesRequest}
    (h : (handleAppendEntries lib s req).2.success = true) :
    s.currentTerm ≤ req.term ∧ s.checkPrevLog req.prevLogIndex req.prevLogTerm = .accept := by
  rcases lt_or_ge req.term s.currentTerm with hstale | hcurrent
  · rw [handleAppendEntries_stale hstale] at h
    cases h
  · rw [handleAppendEntries_current hcurrent] at h
    cases hcheck : s.checkPrevLog req.prevLogIndex req.prevLogTerm with
    | reject =>
      rw [hcheck] at h
      cases h
    | mismatch =>
      rw [hcheck] at h
      cases h
    | accept => exact ⟨hcurrent, rfl⟩

theorem log_of_success {lib : WireLib} {s : RaftState} {req : AppendEntriesRequest}
    (h : (handleAppendEntries lib s req).2.success = true) :
    (handleAppendEntries lib s req).1.log =
      if req.entries = [] then s.log
      else if req.prevLogIndex < s.logOffset then decodeEntries lib req.entries
      else s.log.take (req.prevLogIndex - s.logOffset) ++ decodeEntries lib req.entries := by
  obtain ⟨hcurrent, hcheck⟩ := accept_of_success h
  obtain ⟨commitIndex, heq⟩ := ((s.follow req.term req.leaderId).appendNewEntries lib
    req).updateCommitIndex_eq req.leaderCommit
  rw [handleAppendEntries_current hcurrent, hcheck]
  change (((s.follow req.term req.leaderId).appendNewEntries lib req).updateCommitIndex
    req.leaderCommit).log = _
  rw [heq]
  change ((s.follow req.term req.leaderId).appendNewEntries lib req).log = _
  split_ifs with hnil hlt
  · rw [RaftState.appendNewEntries, if_pos hnil, RaftState.follow_log]
  · rw [RaftState.appendNewEntries_log hnil, RaftState.follow_logOffset, if_pos hlt]
  · rw [RaftState.appendNewEntries_log hnil, RaftState.follow_logOffset, if_neg hlt,
      RaftState.follow_log]

theorem RaftState.Aligned.exists_mem {s : RaftState} (h : s.Aligned) {i : ℕ}
    (hlow : s.logOffset < i) (hhigh : i ≤ s.lastLogIndex) :
    ∃ e ∈ s.log, e.index = i ∧ s.getEntry i = some e := by
  have hlt : i - s.logOffset - 1 < s.log.length := by
    rw [h.lastLogIndex] at hhigh
    omega
  have hget := List.getElem?_eq_getElem hlt
  refine ⟨_, List.getElem_mem hlt, ?_, ?_⟩
  · have := h _ _ hget
    omega
  · rw [getEntry, if_neg (by omega), hget]

theorem RaftState.Aligned.getEntry_of_mem {s : RaftState} (h : s.Aligned) {e : LogEntry}
    (he : e ∈ s.log) : s.logOffset < e.index ∧ e.index ≤ s.lastLogIndex ∧
      s.getEntry e.index = some e := by
  obtain ⟨j, hj⟩ := List.mem_iff_getElem?.mp he
  have hindex := h j e hj
  have hlt := (List.getElem?_eq_some_iff.mp hj).1
  refine ⟨by omega, by rw [h.lastLogIndex]; omega, ?_⟩
  rw [getEntry, if_neg (by omega), ← hj]
  congr 1
  omega

/-- A request that does not conflict with the log keeps all its entries exactly when it has no
entries itself, or one for everything that the follower holds behind `prev_log_index`. -/
theorem append_keeps_entries_iff {lib : WireLib} {s : RaftState} (haligned : s.Aligned)
    {req : AppendEntriesRequest} (hsuccess : (handleAppendEntries lib s req).2.success = true)
    (hprev : s.logOffset ≤ req.prevLogIndex)
    (hmatch : ∀ p ∈ req.entries, ∀ e ∈ s.getEntry p.index, e.term = p.term) :
    (∀ e ∈ s.log, ∃ e' ∈ (handleAppendEntries lib s req).1.log,
        e'.index = e.index ∧ e'.term = e.term) ↔
      req.entries = [] ∨ ∀ i, req.prevLogIndex < i → i ≤ s.lastLogIndex →
        ∃ p ∈ req.entries, p.index = i ∧ (protoToLogEntry lib p).isSome = true := by
  rw [log_of_success hsuccess]
  by_cases hnil : req.entries = []
  · rw [if_pos hnil]
    exact iff_of_true (fun e he => ⟨e, he, rfl, rfl⟩) (.inl hnil)
  · rw [if_neg hnil, if_neg (not_lt.mpr hprev), or_iff_right hnil]
    constructor
    · intro hkeeps i hlow hhigh
      obtain ⟨e, he, rfl, -⟩ := haligned.exists_mem (hprev.trans_lt hlow) hhigh
      obtain ⟨e', he', hindex, -⟩ := hkeeps e he
      rcases List.mem_append.mp he' with hold | hnew
      · -- what is left of the old log ends at `prev_log_index`
        obtain ⟨j, hj⟩ := List.mem_iff_getElem?.mp hold
        have := (haligned.take _) j e' hj
        have := (List.getElem?_eq_some_iff.mp hj).1
        rw [List.length_take] at this
        omega
      · obtain ⟨p, hp, hdecode⟩ := List.mem_filterMap.mp hnew
        exact ⟨p, hp, (protoToLogEntry_index hdecode).symm.trans hindex,
          Option.isSome_iff_exists.mpr ⟨e', hdecode⟩⟩
    · intro hcovers e he
      obtain ⟨hlow, hhigh, hget⟩ := haligned.getEntry_of_mem he
      rcases le_or_gt e.index req.prevLogIndex with hle | hgt
      · refine ⟨e, List.mem_append_left _ ?_, rfl, rfl⟩
        obtain ⟨j, hj⟩ := List.mem_iff_getElem?.mp he
        have := haligned j e hj
        exact List.mem_of_getElem? ((List.getElem?_take_of_lt (by omega)).trans hj)
      · obtain ⟨p, hp, hindex, hsome⟩ := hcovers e.index hgt hhigh
        obtain ⟨e', he'⟩ := Option.isSome_iff_exists.mp hsome
        refine ⟨e', List.mem_append_right _ (List.mem_filterMap.mpr ⟨p, hp, he'⟩), ?_, ?_⟩
        · rw [protoToLogEntry_index he', hindex]
        · rw [protoToLogEntry_term he', hmatch p hp e (hindex ▸ hget)]

def twoEntries : RaftState :=
  (handleAppendEntries .standard .new ⟨1, 1, 0, 0, [⟨1, 1, none⟩, ⟨1, 2, none⟩], 0⟩).1

theorem append_keeps_two_entries :
    twoEntries.log.length = 2 ∧ ∀ e ∈ twoEntries.log,
      ∃ e' ∈ (handleAppendEntries .standard twoEntries
        ⟨1, 1, 0, 0, [⟨1, 1, none⟩, ⟨1, 2, none⟩, ⟨1, 3, none⟩], 0⟩).1.log,
      e'.index = e.index ∧ e'.term = e.term := by
  refine ⟨by decide, (append_keeps_entries_iff (by decide) (by decide) (by decide)
    (by decide)).mpr (.inr fun i hlow hhigh => ?_)⟩
  have hlast : twoEntries.lastLogIndex = 2 := by decide
  rw [hlast] at hhigh
  obtain rfl | rfl : i = 1 ∨ i = 2 := by
    have : 0 < i := hlow
    omega
  · exact ⟨⟨1, 1, none⟩, by decide, rfl, rfl⟩
  · exact ⟨⟨1, 2, none⟩, by decide, rfl, rfl⟩

/-- The leader's first request, with one entry, arrives after the second one with two: the entry
that the follower has acknowledged in between is gone. -/
theorem late_request_removes_entry :
    ¬ ∀ (lib : WireLib) (s : RaftState) (req : AppendEntriesRequest), s.Aligned →
      (handleAppendEntries lib s req).2.success = true → s.logOffset ≤ req.prevLogIndex →
      req.WellFormed lib → (∀ p ∈ req.entries, ∀ e ∈ s.getEntry p.index, e.term = p.term) →
      ∀ e ∈ s.log, ∃ e' ∈ (handleAppendEntries lib s req).1.log,
        e'.index = e.index ∧ e'.term = e.term := by
  intro hall
  have hkeeps := hall .standard twoEntries ⟨1, 1, 0, 0, [⟨1, 1, none⟩], 0⟩ (by decide) (by decide)
    (by decide) (by decide) (by decide)
  exact absurd hkeeps (by decide)

end NomadLite
