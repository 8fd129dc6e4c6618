import NomadLite.LogAlignment
import NomadLite.CommittedLog

/-!
# Requests that leave the committed entries in place

The append handler cuts the log behind `prev_log_index` without looking at
`commit_index`. `KeepsCommitted` is the condition on a request under which no entry up
to `commit_index` is removed or replaced. Under it the commit index never falls, stays
inside the log, and the stored log remains a window on the committed one.
-/

namespace NomadLite.RaftState

variable {lib : WireLib} {s : RaftState}

def entriesBetween (s : RaftState) (a b : ℕ) : List LogEntry :=
  (s.log.drop (a - s.logOffset)).take (b - a)

def KeepsCommitted (lib : WireLib) (s : RaftState) (req : AppendEntriesRequest) : Prop :=
  s.currentTerm ≤ req.term →
    match s.checkPrevLog req.prevLogIndex req.prevLogTerm with
    | .reject => True
    | .mismatch => s.commitIndex < req.prevLogIndex
    | .accept => req.entries ≠ [] → s.logOffset ≤ req.prevLogIndex ∧
        ∀ i ≤ s.commitIndex, req.prevLogIndex < i →
          (decodeEntries lib req.entries)[i - req.prevLogIndex - 1]? = s.getEntry i

instance (lib : WireLib) (s : RaftState) (req : AppendEntriesRequest) :
    Decidable (s.KeepsCommitted lib req) := by
  unfold KeepsCommitted
  cases s.checkPrevLog req.prevLogIndex req.prevLogTerm <;> infer_instance

theorem getEntry_of_lt {i : ℕ} (h : s.logOffset < i) :
    s.getEntry i = s.log[i - s.logOffset - 1]? := by
  rw [getEntry, if_neg (by omega)]

theorem filterMap_getEntry (s : RaftState) (n a : ℕ) (ha : s.logOffset ≤ a)
    (hle : a + n ≤ s.logOffset + s.log.length) :
    (List.range' (a + 1) n).filterMap s.getEntry = (s.log.drop (a - s.logOffset)).take n := by
  induction n generalizing a with
  | zero => rfl
  | succ n ih =>
    have hlt : a - s.logOffset < s.log.length := by omega
    have hget : s.getEntry (a + 1) = some s.log[a - s.logOffset] := by
      rw [getEntry_of_lt (by omega), show a + 1 - s.logOffset - 1 = a - s.logOffset by omega]
      exact List.getElem?_eq_getElem hlt
    have hdrop : s.log.drop (a - s.logOffset) =
        s.log[a - s.logOffset] :: s.log.drop (a + 1 - s.logOffset) := by
      rw [List.drop_eq_getElem_cons hlt, show a - s.logOffset + 1 = a + 1 - s.logOffset by omega]
    rw [List.range'_succ, List.filterMap_cons_some hget, ih (a + 1) (by omega) (by omega), hdrop,
      List.take_succ_cons]

/-- The entries handed to the apply loop are a slice of the log. -/
theorem getCommittedEntries_eq (h : s.logOffset ≤ s.lastApplied)
    (happlied : s.lastApplied ≤ s.commitIndex)
    (hle : s.commitIndex ≤ s.logOffset + s.log.length) :
    s.getCommittedEntries.2 = s.entriesBetween s.lastApplied s.commitIndex :=
  s.filterMap_getEntry _ _ h (by omega)

theorem appendNewEntries_take (lib : WireLib) (s : RaftState) (req : AppendEntriesRequest)
    (hcheck : s.checkPrevLog req.prevLogIndex req.prevLogTerm = .accept)
    (hkeep : req.entries ≠ [] → s.logOffset ≤ req.prevLogIndex ∧
      ∀ i ≤ s.commitIndex, req.prevLogIndex < i →
        (decodeEntries lib req.entries)[i - req.prevLogIndex - 1]? = s.getEntry i) :
    (s.appendNewEntries lib req).log.take (s.commitIndex - s.logOffset) =
      s.log.take (s.commitIndex - s.logOffset) := by
  rw [appendNewEntries]
  split_ifs with hnil
  · rfl
  · obtain ⟨hoff, hsame⟩ := hkeep hnil
    have hprev : req.prevLogIndex ≤ s.logOffset + s.log.length := by
      rcases hoff.lt_or_eq with hlt | heq
      · exact s.le_of_checkPrevLog hlt hcheck
      · omega
    rw [truncateAndAppend, if_neg (by omega)]
    apply List.ext_getElem?
    intro k
    rw [List.getElem?_take, List.getElem?_take]
    split_ifs with hk
    · rcases lt_or_ge k (req.prevLogIndex - s.logOffset) with hlow | hhigh
      · rw [List.getElem?_append_left (by rw [List.length_take]; omega),
          List.getElem?_take_of_lt (by omega)]
      · have hentry := hsame (s.logOffset + k + 1) (by omega) (by omega)
        rw [getEntry_of_lt (by omega)] at hentry
        rw [List.getElem?_append_right (by rw [List.length_take]; omega), List.length_take]
        convert hentry using 2 <;> omega
    · rfl

structure Kept (s s' : RaftState) (success : Bool) : Prop where
  logOffset : s'.logOffset = s.logOffset
  lastApplied : s'.lastApplied = s.lastApplied
  commit_le : s.commitIndex ≤ s'.commitIndex
  commit_le_length : s'.commitIndex ≤ s'.logOffset + s'.log.length
  take_eq : s'.log.take (s.commitIndex - s.logOffset) = s.log.take (s.commitIndex - s.logOffset)
  success : s.commitIndex < s'.commitIndex → success = true

theorem length_of_take_eq {log log' : List LogEntry} {n : ℕ} (h : log'.take n = log.take n)
    (hn : n ≤ log.length) : n ≤ log'.length := by
  have hlen := congrArg List.length h
  rw [List.length_take, List.length_take] at hlen
  omega

theorem KeepsCommitted.startsAboveOffset {req : AppendEntriesRequest}
    (h : s.KeepsCommitted lib req) : (Call.appendEntries req).StartsAboveOffset s := by
  intro hne hterm
  by_contra hbelow
  have hcheck : s.checkPrevLog req.prevLogIndex req.prevLogTerm = .accept :=
    s.checkPrevLog_below (not_le.mp hbelow)
  have hkeep := h hterm
  rw [hcheck] at hkeep
  exact hbelow (hkeep hne).1

theorem kept_follow (hle : s.commitIndex ≤ s.logOffset + s.log.length) (term leaderId : ℕ)
    (success : Bool) : s.Kept (s.follow term leaderId) success := by
  constructor <;> simp [hle]

theorem kept_setLog {term leaderId commitIndex : ℕ} {log : List LogEntry} {success : Bool}
    (hcommit : s.commitIndex ≤ commitIndex) (hlen : commitIndex ≤ s.logOffset + log.length)
    (htake : log.take (s.commitIndex - s.logOffset) = s.log.take (s.commitIndex - s.logOffset))
    (hsuccess : s.commitIndex < commitIndex → success = true) :
    s.Kept ((s.follow term leaderId).setLog log commitIndex) success := by
  have hoff : (s.follow term leaderId).logOffset = s.logOffset := follow_logOffset
  have happlied : (s.follow term leaderId).lastApplied = s.lastApplied := follow_lastApplied
  refine ⟨hoff, happlied, hcommit, ?_, htake, hsuccess⟩
  change commitIndex ≤ (s.follow term leaderId).logOffset + log.length
  rwa [hoff]

theorem updateCommitIndex_setLog {log : List LogEntry} {n : ℕ} (leaderCommit : ℕ)
    (hal : (s.setLog log n).Aligned) (hn : n ≤ s.logOffset + log.length) :
    ∃ m, n ≤ m ∧ m ≤ s.logOffset + log.length ∧
      (s.setLog log n).updateCommitIndex leaderCommit = s.setLog log m := by
  have hlast : (s.setLog log n).lastLogIndex = s.logOffset + log.length := hal.lastLogIndex
  rw [updateCommitIndex, hlast]
  split_ifs with hlt
  · have hlt : n < leaderCommit := hlt
    exact ⟨min leaderCommit (s.logOffset + log.length), by omega, min_le_right _ _, rfl⟩
  · exact ⟨n, le_rfl, hn, rfl⟩

theorem kept_handleAppendEntries {req : AppendEntriesRequest} (hal : s.Aligned)
    (hle : s.commitIndex ≤ s.logOffset + s.log.length) (hwf : req.WellFormed lib)
    (hkeep : s.KeepsCommitted lib req) :
    s.Kept (handleAppendEntries lib s req).1 (handleAppendEntries lib s req).2.success := by
  rcases lt_or_ge req.term s.currentTerm with hlt | hge
  · rw [handleAppendEntries_stale hlt]
    exact ⟨rfl, rfl, le_rfl, hle, rfl, fun h => absurd h (lt_irrefl _)⟩
  · have hcond := hkeep hge
    rw [handleAppendEntries_current hge]
    cases hcheck : s.checkPrevLog req.prevLogIndex req.prevLogTerm with
    | reject => exact kept_follow hle ..
    | mismatch =>
      rw [hcheck] at hcond
      have hcut : s.commitIndex - s.logOffset ≤ req.prevLogIndex - s.logOffset - 1 := by omega
      have htake : (s.log.take (req.prevLogIndex - s.logOffset - 1)).take
          (s.commitIndex - s.logOffset) = s.log.take (s.commitIndex - s.logOffset) := by
        rw [List.take_take, min_eq_left hcut]
      have hlen := length_of_take_eq htake (by omega)
      have hcommit : (s.follow req.term req.leaderId).commitIndex = s.commitIndex :=
        follow_commitIndex
      exact kept_setLog hcommit.ge (by omega) htake fun h => by omega
    | accept =>
      rw [hcheck] at hcond
      have hoff : (s.follow req.term req.leaderId).logOffset = s.logOffset := follow_logOffset
      have hcommit : (s.follow req.term req.leaderId).commitIndex = s.commitIndex :=
        follow_commitIndex
      have hfollow : (s.follow req.term req.leaderId).Aligned := by
        rw [Aligned, follow_log, hoff]
        exact hal
      have haligned := (hfollow.appendNewEntries hwf (by rw [follow_checkPrevLog, hcheck])).mpr
        fun hne => hoff.le.trans (hcond hne).1
      have htake := (s.follow req.term req.leaderId).appendNewEntries_take lib req
        (by rw [follow_checkPrevLog, hcheck])
        (by simpa only [follow_logOffset, follow_commitIndex, follow_log, getEntry] using hcond)
      obtain ⟨log, hlog⟩ := (s.follow req.term req.leaderId).appendNewEntries_eq lib req
      dsimp only
      rw [hlog] at haligned htake ⊢
      rw [hoff, hcommit, follow_log] at htake
      have htake : log.take (s.commitIndex - s.logOffset) =
          s.log.take (s.commitIndex - s.logOffset) := htake
      have hlen := length_of_take_eq htake (by omega)
      obtain ⟨n, hle', hlen', heq⟩ := updateCommitIndex_setLog req.leaderCommit haligned
        (show (s.follow req.term req.leaderId).commitIndex ≤ _ by omega)
      rw [heq]
      exact kept_setLog (hcommit ▸ hle') (hoff ▸ hlen') htake fun _ => rfl

def Installs (s : RaftState) (req : InstallSnapshotRequest) : Prop :=
  s.currentTerm ≤ req.term ∧ s.logOffset < req.lastIncludedIndex

instance (s : RaftState) (req : InstallSnapshotRequest) : Decidable (s.Installs req) :=
  inferInstanceAs (Decidable (_ ∧ _))

theorem Installs.handleInstallSnapshot {req : InstallSnapshotRequest} (h : s.Installs req)
    (hal : s.Aligned) (lib : WireLib) :
    (handleInstallSnapshot lib s req).1.log = s.log.drop (req.lastIncludedIndex - s.logOffset) ∧
      (handleInstallSnapshot lib s req).1.logOffset = req.lastIncludedIndex ∧
      (handleInstallSnapshot lib s req).1.commitIndex = max s.commitIndex req.lastIncludedIndex ∧
      (handleInstallSnapshot lib s req).1.lastApplied = max s.lastApplied req.lastIncludedIndex ∧
      (handleInstallSnapshot lib s req).1.snapshot = some (req.toSnapshot lib) := by
  obtain ⟨hterm, hnew⟩ := h
  have hcur : ¬ req.term < (s.adoptTerm req.term).currentTerm := by
    rw [adoptTerm_currentTerm]
    omega
  have hold : ¬ (req.toSnapshot lib).lastIncludedIndex ≤ (s.adoptTerm req.term).logOffset := by
    rw [adoptTerm_logOffset]
    exact not_le.mpr hnew
  have hfilter := hal.filter_eq_drop (req.lastIncludedIndex - s.logOffset)
  rw [Nat.add_sub_cancel' hnew.le] at hfilter
  rw [NomadLite.handleInstallSnapshot, if_neg hcur]
  dsimp only
  rw [installSnapshot, if_neg hold]
  refine ⟨?_, rfl, ?_, ?_, rfl⟩
  · dsimp only
    rw [adoptTerm_log]
    exact hfilter
  · dsimp only
    rw [adoptTerm_commitIndex]
    rfl
  · dsimp only
    rw [adoptTerm_lastApplied]
    rfl

end NomadLite.RaftState
