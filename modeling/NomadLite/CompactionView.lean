import NomadLite.RepeatedRequests

/-!
# What compaction hides

A snapshot takes the place of the entries up to its index. Every accessor that looks
above that index answers as before, the last term is the snapshot's once nothing else is
left, and both handlers commute with `compact_log`: whatever they do to the log happens
above the snapshot, so it is the same before and after the prefix is dropped.
-/

namespace NomadLite

/-- A heartbeat, or a request that the consistency check anchors at the snapshot or above it. -/
def AppendEntriesRequest.Above (req : AppendEntriesRequest) (snapshot : Snapshot) : Prop :=
  (req.entries = [] ∧ req.prevLogIndex = 0) ∨ snapshot.lastIncludedIndex < req.prevLogIndex ∨
    (req.prevLogIndex = snapshot.lastIncludedIndex ∧ req.prevLogTerm = snapshot.lastIncludedTerm)

namespace RaftState

structure Covers (s : RaftState) (snapshot : Snapshot) : Prop where
  offset_lt : s.logOffset < snapshot.lastIncludedIndex
  entry : ∃ e, s.log[snapshot.lastIncludedIndex - s.logOffset - 1]? = some e ∧
    e.index = snapshot.lastIncludedIndex ∧ e.term = snapshot.lastIncludedTerm

variable {lib : WireLib} {s t : RaftState} {snapshot : Snapshot}

theorem Aligned.covers (haligned : s.Aligned) (hoff : s.logOffset < snapshot.lastIncludedIndex)
    (hterm : (s.getEntry snapshot.lastIncludedIndex).map LogEntry.term =
      some snapshot.lastIncludedTerm) : s.Covers snapshot := by
  obtain ⟨e, he, heq⟩ := Option.map_eq_some_iff.mp hterm
  have hindex := haligned.getEntry_index he
  rw [getEntry, if_neg (by omega)] at he
  exact ⟨hoff, e, he, hindex, heq⟩

namespace Covers

theorem length_le (h : s.Covers snapshot) :
    snapshot.lastIncludedIndex - s.logOffset ≤ s.log.length := by
  obtain ⟨e, he, -⟩ := h.entry
  have := (List.getElem?_eq_some_iff.mp he).1
  omega

theorem of_take (h : s.Covers snapshot) (hoff : t.logOffset = s.logOffset)
    (hlog : t.log.take (snapshot.lastIncludedIndex - s.logOffset) =
      s.log.take (snapshot.lastIncludedIndex - s.logOffset)) : t.Covers snapshot := by
  have hlt := h.offset_lt
  obtain ⟨e, he, hindex, hterm⟩ := h.entry
  refine ⟨hoff ▸ hlt, e, ?_, hindex, hterm⟩
  have hsame := congrArg (·[snapshot.lastIncludedIndex - s.logOffset - 1]?) hlog
  simp only [List.getElem?_take_of_lt (show snapshot.lastIncludedIndex - s.logOffset - 1 <
    snapshot.lastIncludedIndex - s.logOffset by omega)] at hsame
  rw [hoff, hsame, he]

theorem compactLog_eq (h : s.Covers snapshot) :
    s.compactLog snapshot =
      { s with
        log := s.log.drop (snapshot.lastIncludedIndex - s.logOffset)
        logOffset := snapshot.lastIncludedIndex
        snapshot := some snapshot } := if_neg h.offset_lt.not_ge

/-- What is left ends with the old last entry, or the old last entry is the snapshot's. -/
theorem getLast?_drop (h : s.Covers snapshot) : ∃ e, s.log.getLast? = some e ∧
    ((s.log.drop (snapshot.lastIncludedIndex - s.logOffset)).getLast? = some e ∨
      ((s.log.drop (snapshot.lastIncludedIndex - s.logOffset)).getLast? = none ∧
        e.index = snapshot.lastIncludedIndex ∧ e.term = snapshot.lastIncludedTerm)) := by
  have hlen := h.length_le
  have hlt := h.offset_lt
  rw [List.getLast?_drop]
  split_ifs with hle
  · obtain ⟨e, he, hsnap⟩ := h.entry
    refine ⟨e, ?_, .inr ⟨rfl, hsnap⟩⟩
    rw [List.getLast?_eq_getElem?, ← he]
    congr 1
    omega
  · have hne : s.log ≠ [] := by
      rintro hnil
      rw [hnil, List.length_nil] at hle
      omega
    exact ⟨_, List.getLast?_eq_some_getLast hne, .inl (List.getLast?_eq_some_getLast hne)⟩

theorem lastLogIndex_compactLog (h : s.Covers snapshot) :
    (s.compactLog snapshot).lastLogIndex = s.lastLogIndex := by
  obtain ⟨e, he, hlast | ⟨hnone, hindex, -⟩⟩ := h.getLast?_drop
  · rw [h.compactLog_eq, lastLogIndex, lastLogIndex, hlast, he]
    rfl
  · rw [h.compactLog_eq, lastLogIndex, lastLogIndex, hnone, he]
    exact hindex.symm

theorem lastLogTerm_compactLog (h : s.Covers snapshot) :
    (s.compactLog snapshot).lastLogTerm = s.lastLogTerm := by
  obtain ⟨e, he, hlast | ⟨hnone, -, hterm⟩⟩ := h.getLast?_drop
  · rw [h.compactLog_eq, lastLogTerm, lastLogTerm, hlast, he]
    rfl
  · rw [h.compactLog_eq, lastLogTerm, lastLogTerm, hnone, he]
    exact hterm.symm

theorem isLogUpToDate_compactLog (h : s.Covers snapshot) (lastLogIndex lastLogTerm : ℕ) :
    (s.compactLog snapshot).isLogUpToDate lastLogIndex lastLogTerm =
      s.isLogUpToDate lastLogIndex lastLogTerm := by
  rw [isLogUpToDate, isLogUpToDate, h.lastLogIndex_compactLog, h.lastLogTerm_compactLog]

theorem getEntriesFrom_compactLog (h : s.Covers snapshot) {i : ℕ}
    (hi : snapshot.lastIncludedIndex < i) :
    (s.compactLog snapshot).getEntriesFrom i = s.getEntriesFrom i := by
  have hlt := h.offset_lt
  have hlast := h.lastLogIndex_compactLog
  rw [h.compactLog_eq] at hlast ⊢
  rw [getEntriesFrom, getEntriesFrom, hlast]
  simp only [if_neg (show ¬ i = 0 by omega), List.length_drop, List.drop_drop,
    max_eq_left (show snapshot.lastIncludedIndex + 1 ≤ i by omega),
    max_eq_left (show s.logOffset + 1 ≤ i by omega)]
  have hpos : snapshot.lastIncludedIndex - s.logOffset + (i - snapshot.lastIncludedIndex - 1) =
      i - s.logOffset - 1 := by omega
  rw [hpos]
  have hlen : s.log.length - (snapshot.lastIncludedIndex - s.logOffset) ≤
      i - snapshot.lastIncludedIndex - 1 ↔ s.log.length ≤ i - s.logOffset - 1 := by omega
  simp only [hlen]

end Covers

/-! ## The handlers commute with compaction -/

theorem compactLog_votedFor (s : RaftState) (snapshot : Snapshot) :
    (s.compactLog snapshot).votedFor = s.votedFor := by
  obtain ⟨log, logOffset, snap, hcompact⟩ := s.compactLog_eq snapshot
  rw [hcompact]

theorem compactLog_adoptTerm (s : RaftState) (snapshot : Snapshot) (term : ℕ) :
    (s.compactLog snapshot).adoptTerm term = (s.adoptTerm term).compactLog snapshot := by
  simp only [compactLog, adoptTerm, becomeFollower]
  split_ifs <;> rfl

theorem compactLog_follow (s : RaftState) (snapshot : Snapshot) (term leaderId : ℕ) :
    (s.compactLog snapshot).follow term leaderId =
      (s.follow term leaderId).compactLog snapshot := by
  rw [follow, follow, compactLog_adoptTerm]
  simp only [compactLog, acceptLeader, becomeFollower]
  split_ifs <;> rfl

theorem appendNewEntries_above {req : AppendEntriesRequest} (hne : req.entries ≠ [])
    (hle : s.logOffset ≤ req.prevLogIndex) :
    s.appendNewEntries lib req = s.setLog (s.log.take (req.prevLogIndex - s.logOffset) ++
      decodeEntries lib req.entries) s.commitIndex := by
  rw [appendNewEntries, if_neg hne, truncateAndAppend, if_neg (by omega),
    show req.prevLogIndex + 1 - s.logOffset - 1 = req.prevLogIndex - s.logOffset by omega]
  rfl

namespace Covers

theorem adoptTerm (h : s.Covers snapshot) (term : ℕ) : (s.adoptTerm term).Covers snapshot :=
  h.of_take adoptTerm_logOffset (by rw [adoptTerm_log])

theorem follow (h : s.Covers snapshot) (term leaderId : ℕ) :
    (s.follow term leaderId).Covers snapshot :=
  h.of_take follow_logOffset (by rw [follow_log])

theorem castVote_compactLog (h : s.Covers snapshot) (candidateId : ℕ) :
    (s.compactLog snapshot).castVote candidateId =
      (s.castVote candidateId).compactLog snapshot := by
  have hvoted : (s.castVote candidateId).Covers snapshot := h.of_take rfl rfl
  rw [h.compactLog_eq, hvoted.compactLog_eq]
  rfl

theorem appendReply_compactLog (h : s.Covers snapshot) (success : Bool) :
    (s.compactLog snapshot).appendReply success = s.appendReply success := by
  rw [appendReply, appendReply, h.lastLogIndex_compactLog, compactLog_currentTerm]

theorem updateCommitIndex (h : s.Covers snapshot) (leaderCommit : ℕ) :
    (s.updateCommitIndex leaderCommit).Covers snapshot := by
  rw [RaftState.updateCommitIndex]
  split_ifs
  · exact h.of_take rfl rfl
  · exact h

theorem updateCommitIndex_compactLog (h : s.Covers snapshot) (leaderCommit : ℕ) :
    (s.compactLog snapshot).updateCommitIndex leaderCommit =
      (s.updateCommitIndex leaderCommit).compactLog snapshot := by
  have hupdated := h.updateCommitIndex leaderCommit
  have hlast := h.lastLogIndex_compactLog
  rw [hupdated.compactLog_eq]
  rw [h.compactLog_eq] at hlast ⊢
  rw [RaftState.updateCommitIndex, RaftState.updateCommitIndex, hlast]
  split_ifs <;> rfl

theorem splice (h : s.Covers snapshot) {n : ℕ} (hn : snapshot.lastIncludedIndex ≤ n)
    (entries : List LogEntry) :
    (s.setLog (s.log.take (n - s.logOffset) ++ entries) s.commitIndex).Covers snapshot ∧
      (s.compactLog snapshot).setLog ((s.compactLog snapshot).log.take
          (n - snapshot.lastIncludedIndex) ++ entries) (s.compactLog snapshot).commitIndex =
        (s.setLog (s.log.take (n - s.logOffset) ++ entries) s.commitIndex).compactLog snapshot := by
  have hlt := h.offset_lt
  have hlen := h.length_le
  have hkept : snapshot.lastIncludedIndex - s.logOffset ≤
      (s.log.take (n - s.logOffset)).length := by
    rw [List.length_take]
    omega
  have hcovers : (s.setLog (s.log.take (n - s.logOffset) ++ entries) s.commitIndex).Covers
      snapshot := by
    refine h.of_take rfl ?_
    rw [setLog, List.take_append_of_le_length hkept, List.take_take, min_eq_left (by omega)]
  refine ⟨hcovers, ?_⟩
  have hdrop : (s.log.take (n - s.logOffset) ++ entries).drop
      (snapshot.lastIncludedIndex - s.logOffset) =
      (s.log.drop (snapshot.lastIncludedIndex - s.logOffset)).take
        (n - snapshot.lastIncludedIndex) ++ entries := by
    rw [List.drop_append_of_le_length hkept, List.drop_take]
    congr 2
    omega
  rw [hcovers.compactLog_eq, h.compactLog_eq]
  simp only [setLog, hdrop]

variable {req : AppendEntriesRequest}

theorem checkPrevLog_compactLog (h : s.Covers snapshot) (habove : req.Above snapshot) :
    (s.compactLog snapshot).checkPrevLog req.prevLogIndex req.prevLogTerm =
      s.checkPrevLog req.prevLogIndex req.prevLogTerm := by
  have hlt := h.offset_lt
  have hoff : (s.compactLog snapshot).logOffset = snapshot.lastIncludedIndex := by
    rw [h.compactLog_eq]
  rcases habove with ⟨-, hzero⟩ | hgt | ⟨hindex, hterm⟩
  · rw [checkPrevLog, checkPrevLog, if_neg (by omega), if_neg (by omega)]
  · rw [checkPrevLog, checkPrevLog, hoff, s.getEntry_compactLog hgt, if_pos (by omega),
      if_neg (by omega), if_neg (by omega), if_pos (by omega), if_neg (by omega),
      if_neg (by omega)]
  · -- the boundary: the snapshot on one side, the entry it ends with on the other
    obtain ⟨e, he, -, heq⟩ := h.entry
    have hget : s.getEntry snapshot.lastIncludedIndex = some e := by
      rw [getEntry, if_neg (by omega), he]
    have hsnap : (s.compactLog snapshot).snapshot = some snapshot := by rw [h.compactLog_eq]
    rw [checkPrevLog, checkPrevLog, hoff, hsnap, hindex, hget, hterm, if_pos (by omega),
      if_neg (by omega), if_pos rfl, if_pos (by omega), if_neg (by omega), if_neg (by omega)]
    simp only [heq, ne_eq, not_true_eq_false, if_false]

theorem appendNewEntries (h : s.Covers snapshot) (lib : WireLib) (habove : req.Above snapshot) :
    (s.appendNewEntries lib req).Covers snapshot ∧
      (s.compactLog snapshot).appendNewEntries lib req =
        (s.appendNewEntries lib req).compactLog snapshot := by
  have hlt := h.offset_lt
  by_cases hnil : req.entries = []
  · rw [RaftState.appendNewEntries, RaftState.appendNewEntries, if_pos hnil, if_pos hnil]
    exact ⟨h, rfl⟩
  · have hle : snapshot.lastIncludedIndex ≤ req.prevLogIndex := by
      rcases habove with ⟨hempty, -⟩ | hgt | ⟨hindex, -⟩
      · exact absurd hempty hnil
      · exact hgt.le
      · exact hindex.ge
    have hoff : (s.compactLog snapshot).logOffset = snapshot.lastIncludedIndex := by
      rw [h.compactLog_eq]
    obtain ⟨hcovers, hcompact⟩ := h.splice hle (decodeEntries lib req.entries)
    rw [appendNewEntries_above hnil (hlt.le.trans hle), appendNewEntries_above hnil (by omega),
      hoff]
    exact ⟨hcovers, hcompact⟩

end Covers

end RaftState

open RaftState

theorem handleRequestVote_compactLog {s : RaftState} {snapshot : Snapshot}
    (h : s.Covers snapshot) (req : VoteRequest) :
    handleRequestVote (s.compactLog snapshot) req =
      ((handleRequestVote s req).1.compactLog snapshot, (handleRequestVote s req).2) := by
  have hadopted := h.adoptTerm req.term
  rw [handleRequestVote, handleRequestVote, compactLog_adoptTerm, compactLog_currentTerm,
    compactLog_votedFor, hadopted.isLogUpToDate_compactLog, hadopted.castVote_compactLog]
  split_ifs <;> rfl

theorem handleAppendEntries_compactLog (lib : WireLib) {s : RaftState} {snapshot : Snapshot}
    (h : s.Covers snapshot) {req : AppendEntriesRequest} (habove : req.Above snapshot) :
    handleAppendEntries lib (s.compactLog snapshot) req =
      ((handleAppendEntries lib s req).1.compactLog snapshot,
        (handleAppendEntries lib s req).2) := by
  have hterm := s.compactLog_currentTerm snapshot
  rcases lt_or_ge req.term s.currentTerm with hlt | hge
  · rw [handleAppendEntries_stale hlt, handleAppendEntries_stale (hterm.symm ▸ hlt),
      h.appendReply_compactLog]
  · have hfollow := h.follow req.term req.leaderId
    rw [handleAppendEntries_current hge, handleAppendEntries_current (hterm.symm ▸ hge),
      h.checkPrevLog_compactLog habove]
    cases hcheck : s.checkPrevLog req.prevLogIndex req.prevLogTerm with
    | reject =>
      dsimp only
      rw [compactLog_follow, hfollow.appendReply_compactLog]
    | mismatch =>
      have hoff : (s.compactLog snapshot).logOffset = snapshot.lastIncludedIndex := by
        rw [h.compactLog_eq]
      have hgt : snapshot.lastIncludedIndex < req.prevLogIndex := by
        rw [← h.checkPrevLog_compactLog habove] at hcheck
        exact hoff ▸ (lt_of_mismatch hcheck).1
      obtain ⟨hcovers, hcompact⟩ := hfollow.splice (n := req.prevLogIndex - 1) (by omega) []
      have hreply := hcovers.appendReply_compactLog false
      rw [← hcompact] at hreply
      rw [List.append_nil, List.append_nil, ← compactLog_follow, follow_log, follow_log,
        follow_logOffset, Nat.sub_right_comm, Nat.sub_right_comm _ 1] at hcompact hreply
      rw [hoff]
      exact Prod.ext hcompact hreply
    | accept =>
      obtain ⟨hcovers, hcompact⟩ := hfollow.appendNewEntries lib habove
      dsimp only
      rw [compactLog_follow, hcompact, hcovers.updateCommitIndex_compactLog,
        (hcovers.updateCommitIndex _).appendReply_compactLog]

/-- Compaction is invisible to voting and to replication above the snapshot, and the states that
the handlers leave differ by the compacted prefix again. -/
theorem compaction_transparent (lib : WireLib) {s : RaftState} {snapshot : Snapshot}
    (haligned : s.Aligned) (hoff : s.logOffset < snapshot.lastIncludedIndex)
    (hterm : (s.getEntry snapshot.lastIncludedIndex).map LogEntry.term =
      some snapshot.lastIncludedTerm) :
    (s.compactLog snapshot).lastLogIndex = s.lastLogIndex ∧
      (s.compactLog snapshot).lastLogTerm = s.lastLogTerm ∧
      (∀ lastLogIndex lastLogTerm, (s.compactLog snapshot).isLogUpToDate lastLogIndex lastLogTerm =
        s.isLogUpToDate lastLogIndex lastLogTerm) ∧
      (∀ i, snapshot.lastIncludedIndex < i →
        (s.compactLog snapshot).getEntry i = s.getEntry i ∧
          (s.compactLog snapshot).getEntriesFrom i = s.getEntriesFrom i) ∧
      (∀ req, handleRequestVote (s.compactLog snapshot) req =
        ((handleRequestVote s req).1.compactLog snapshot, (handleRequestVote s req).2)) ∧
      ∀ req : AppendEntriesRequest, req.Above snapshot →
        handleAppendEntries lib (s.compactLog snapshot) req =
          ((handleAppendEntries lib s req).1.compactLog snapshot,
            (handleAppendEntries lib s req).2) := by
  have hcovers := haligned.covers hoff hterm
  exact ⟨hcovers.lastLogIndex_compactLog, hcovers.lastLogTerm_compactLog,
    hcovers.isLogUpToDate_compactLog,
    fun i hi => ⟨s.getEntry_compactLog hi, hcovers.getEntriesFrom_compactLog hi⟩,
    handleRequestVote_compactLog hcovers,
    fun req habove => handleAppendEntries_compactLog lib hcovers habove⟩

def twoApplied : RaftState :=
  (handleAppendEntries .standard .new
    ⟨1, 1, 0, 0, [⟨1, 1, none⟩, ⟨1, 2, none⟩], 2⟩).1.getCommittedEntries.1

/-- The whole log is compacted, and the request that follows starts at the boundary. -/
theorem compaction_of_applied_entries :
    twoApplied.lastApplied = 2 ∧ (twoApplied.compactLog ⟨2, 1, [], []⟩).log = [] ∧
      handleAppendEntries .standard (twoApplied.compactLog ⟨2, 1, [], []⟩)
          ⟨1, 1, 2, 1, [⟨1, 3, none⟩], 2⟩ =
        ((handleAppendEntries .standard twoApplied
            ⟨1, 1, 2, 1, [⟨1, 3, none⟩], 2⟩).1.compactLog ⟨2, 1, [], []⟩,
          (handleAppendEntries .standard twoApplied ⟨1, 1, 2, 1, [⟨1, 3, none⟩], 2⟩).2) := by
  refine ⟨by decide, by decide, ?_⟩
  exact (compaction_transparent .standard (by decide) (by decide) (by decide)).2.2.2.2.2 _
    (.inr (.inr ⟨rfl, rfl⟩))

end NomadLite
