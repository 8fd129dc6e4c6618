import NomadLite.CommitKept
import NomadLite.DurableNode

/-!
# Disk mirrors memory

The recipes of the operations, one after the other: what each of them does to the log
in memory and under the keys above `log_offset` on disk. The keys at or below the
offset are never read again.
-/

namespace NomadLite

open OrderedScan

namespace RaftState

variable {s : RaftState}

theorem updateCommitIndex_log (leaderCommit : ℕ) :
    (s.updateCommitIndex leaderCommit).log = s.log := by
  rw [updateCommitIndex]
  split_ifs <;> rfl

theorem take_appendNewEntries (lib : WireLib) {req : AppendEntriesRequest}
    (hcheck : s.checkPrevLog req.prevLogIndex req.prevLogTerm = .accept) :
    (s.appendNewEntries lib req).log.take (req.prevLogIndex - s.logOffset) =
      s.log.take (req.prevLogIndex - s.logOffset) := by
  rw [appendNewEntries, truncateAndAppend]
  split_ifs with hnil hoff
  · rfl
  · rw [show req.prevLogIndex - s.logOffset = 0 by omega, List.take_zero, List.take_zero]
  · have hcut : req.prevLogIndex + 1 - s.logOffset - 1 = req.prevLogIndex - s.logOffset := by omega
    have hlen : req.prevLogIndex - s.logOffset ≤ s.log.length := by
      rcases (by omega : s.logOffset ≤ req.prevLogIndex).lt_or_eq with hlt | heq
      · have := s.le_of_checkPrevLog hlt hcheck
        omega
      · omega
    rw [hcut, List.take_left' (List.length_take_of_le hlen)]

end RaftState

section Outcome

variable {s : RaftState}

/-- What an `AppendEntries` request does to the log: nothing, a cut at a conflict, or everything
behind `prev_log_index` is replaced. -/
theorem handleAppendEntries_outcome (lib : WireLib) (s : RaftState) (req : AppendEntriesRequest) :
    ((handleAppendEntries lib s req).2.success = false ∧ s.cutFrom req = none ∧
        (handleAppendEntries lib s req).1.log = s.log) ∨
      ((handleAppendEntries lib s req).2.success = false ∧
        s.cutFrom req = some req.prevLogIndex ∧ s.logOffset < req.prevLogIndex ∧
        req.prevLogIndex ≤ s.logOffset + s.log.length ∧
        (handleAppendEntries lib s req).1.log = s.log.take (req.prevLogIndex - s.logOffset - 1)) ∨
      ((handleAppendEntries lib s req).2.success = true ∧
        s.cutFrom req = (if req.entries = [] then none else some (req.prevLogIndex + 1)) ∧
        (req.entries = [] → (handleAppendEntries lib s req).1.log = s.log) ∧
        (handleAppendEntries lib s req).1.log.take (req.prevLogIndex - s.logOffset) =
          s.log.take (req.prevLogIndex - s.logOffset)) := by
  rw [RaftState.cutFrom]
  rcases lt_or_ge req.term s.currentTerm with hlt | hge
  · rw [handleAppendEntries_stale hlt, if_neg (not_le.mpr hlt)]
    exact .inl ⟨rfl, rfl, rfl⟩
  · rw [handleAppendEntries_current hge, if_pos hge]
    cases hcheck : s.checkPrevLog req.prevLogIndex req.prevLogTerm with
    | reject => exact .inl ⟨rfl, rfl, RaftState.follow_log⟩
    | mismatch =>
      obtain ⟨hoff, hle⟩ := RaftState.lt_of_mismatch hcheck
      exact .inr (.inl ⟨rfl, rfl, hoff, hle, rfl⟩)
    | accept =>
      refine .inr (.inr ⟨rfl, rfl, fun hnil => ?_, ?_⟩)
      · simp only [RaftState.updateCommitIndex_log, RaftState.appendNewEntries, if_pos hnil,
          RaftState.follow_log]
      · have htake := RaftState.take_appendNewEntries lib (s := s.follow req.term req.leaderId)
          (RaftState.follow_checkPrevLog .. ▸ hcheck)
        simpa only [RaftState.updateCommitIndex_log, RaftState.follow_log,
          RaftState.follow_logOffset] using htake

theorem handleAppendEntries_offset (lib : WireLib) (s : RaftState) (req : AppendEntriesRequest) :
    (handleAppendEntries lib s req).1.logOffset = s.logOffset ∧
      (handleAppendEntries lib s req).1.snapshot = s.snapshot := by
  rcases lt_or_ge req.term s.currentTerm with hlt | hge
  · rw [handleAppendEntries_stale hlt]
    exact ⟨rfl, rfl⟩
  · exact (handleAppendEntries_follower lib hge).2.2

theorem handleRequestVote_log (s : RaftState) (req : VoteRequest) :
    (handleRequestVote s req).1.logOffset = s.logOffset ∧
      (handleRequestVote s req).1.log = s.log ∧
      (handleRequestVote s req).1.snapshot = s.snapshot := by
  rcases handleRequestVote_cases s req with h | ⟨-, -, -, h⟩ <;> rw [h] <;>
    exact ⟨RaftState.adoptTerm_logOffset, RaftState.adoptTerm_log, RaftState.adoptTerm_snapshot⟩

/-- An installed snapshot replaces the entries up to its index, any other one changes nothing
durable but the hard state. -/
theorem handleInstallSnapshot_outcome (lib : WireLib) (hal : s.Aligned)
    (req : InstallSnapshotRequest) :
    ((handleInstallSnapshot lib s req).1.logOffset = s.logOffset ∧
        (handleInstallSnapshot lib s req).1.log = s.log ∧
        (handleInstallSnapshot lib s req).1.snapshot = s.snapshot) ∨
      (s.Installs req ∧
        (handleInstallSnapshot lib s req).1.logOffset = req.lastIncludedIndex ∧
        (handleInstallSnapshot lib s req).1.log =
          s.log.drop (req.lastIncludedIndex - s.logOffset) ∧
        (handleInstallSnapshot lib s req).1.snapshot = some (req.toSnapshot lib)) := by
  rw [handleInstallSnapshot]
  split_ifs with hstale
  · exact .inl ⟨RaftState.adoptTerm_logOffset, RaftState.adoptTerm_log,
      RaftState.adoptTerm_snapshot⟩
  · simp only [RaftState.installSnapshot, RaftState.adoptTerm_logOffset]
    split_ifs with hle
    · exact .inl ⟨rfl, RaftState.adoptTerm_log, RaftState.adoptTerm_snapshot⟩
    · have hlt : s.logOffset < req.lastIncludedIndex := not_le.mp hle
      have hcur : s.currentTerm ≤ req.term := by
        have hmax : (s.adoptTerm req.term).currentTerm = max s.currentTerm req.term :=
          RaftState.adoptTerm_currentTerm
        omega
      have hdrop := hal.filter_eq_drop (req.lastIncludedIndex - s.logOffset)
      rw [Nat.add_sub_cancel' hlt.le] at hdrop
      refine .inr ⟨⟨hcur, hlt⟩, rfl, ?_, rfl⟩
      rw [RaftState.adoptTerm_log]
      exact hdrop

theorem mem_log_handleAppendEntries {lib : WireLib} {req : AppendEntriesRequest} {e : LogEntry}
    (he : e ∈ (handleAppendEntries lib s req).1.log) :
    e ∈ s.log ∨ s.currentTerm ≤ req.term ∧ e ∈ decodeEntries lib req.entries := by
  rcases lt_or_ge req.term s.currentTerm with hlt | hge
  · rw [handleAppendEntries_stale hlt] at he
    exact .inl he
  · rw [handleAppendEntries_current hge] at he
    cases hcheck : s.checkPrevLog req.prevLogIndex req.prevLogTerm with
    | reject =>
      rw [hcheck] at he
      exact .inl (RaftState.follow_log (s := s) ▸ he)
    | mismatch =>
      rw [hcheck] at he
      exact .inl (List.mem_of_mem_take he)
    | accept =>
      simp only [hcheck, RaftState.updateCommitIndex_log, RaftState.appendNewEntries,
        RaftState.truncateAndAppend] at he
      split_ifs at he
      · exact .inl (RaftState.follow_log (s := s) ▸ he)
      · exact .inr ⟨hge, he⟩
      · rcases List.mem_append.mp he with hold | hnew
        · exact .inl (RaftState.follow_log (s := s) ▸ List.mem_of_mem_take hold)
        · exact .inr ⟨hge, hnew⟩

theorem log_handleInstallSnapshot_subset (lib : WireLib) (s : RaftState)
    (req : InstallSnapshotRequest) : (handleInstallSnapshot lib s req).1.log ⊆ s.log := by
  intro e he
  rw [handleInstallSnapshot] at he
  split_ifs at he
  · exact RaftState.adoptTerm_log (s := s) ▸ he
  · simp only [RaftState.installSnapshot] at he
    split_ifs at he
    · exact RaftState.adoptTerm_log (s := s) ▸ he
    · exact RaftState.adoptTerm_log (s := s) ▸ (List.mem_filter.mp he).1

theorem log_compactLog_subset (s : RaftState) (snapshot : Snapshot) :
    (s.compactLog snapshot).log ⊆ s.log := by
  rw [RaftState.compactLog]
  split_ifs
  · exact List.Subset.refl _
  · exact List.drop_subset _ _

end Outcome

namespace Disk

variable {d : Disk}

/-- The snapshot is written with the offset; the keys above the offset stay. -/
theorem saveSnapshot_spec (d : Disk) (snapshot : Snapshot) (logOffset : ℕ) :
    (d.writeAll (d.saveSnapshot snapshot logOffset)).term = d.term ∧
      (d.writeAll (d.saveSnapshot snapshot logOffset)).votedFor = d.votedFor ∧
      (d.writeAll (d.saveSnapshot snapshot logOffset)).logOffset = some logOffset ∧
      (d.writeAll (d.saveSnapshot snapshot logOffset)).snapshot = some snapshot ∧
      ∀ k, logOffset < k →
        (d.writeAll (d.saveSnapshot snapshot logOffset)).log.lookup k = d.log.lookup k := by
  obtain ⟨hterm, hvote, hoff, hsnap⟩ := d.sameHead_saveSnapshot snapshot logOffset
  refine ⟨hterm, hvote, hoff, hsnap, fun k hk => ?_⟩
  rw [lookup_saveSnapshot, if_neg (by omega)]

end Disk

section Recipes

variable {lib : WireLib} {s : RaftState} {d : Disk}

/-- Above the offset an operation leaves the same entries on disk and in memory, or it changes
neither. -/
def LogTracks (s : RaftState) (d : Disk) (s' : RaftState) (d' : Disk) : Prop :=
  ∀ j, (d'.log.lookup (s.logOffset + 1 + j) = d.log.lookup (s.logOffset + 1 + j) ∧
      s'.log[j]? = s.log[j]?) ∨
    d'.log.lookup (s.logOffset + 1 + j) = s'.log[j]?

theorem logTracks_of_eq {s' : RaftState} {d' : Disk} (hlog : s'.log = s.log)
    (hd : d'.log = d.log) : LogTracks s d s' d' :=
  fun _ => .inl ⟨by rw [hd], by rw [hlog]⟩

/-- The log replaced from an index on: below it nothing changes, above it the disk has what the
memory has. -/
theorem lookup_rewrite {s' : RaftState} (d : Disk) {i : ℕ} (hoff : s'.logOffset = s.logOffset)
    (hal' : s'.Aligned)
    (hlog : s'.log.take (i - s.logOffset) = s.log.take (i - s.logOffset)) (j : ℕ) :
    (j < i - s.logOffset ∧ s'.log[j]? = s.log[j]? ∧
      (d.writeAll (d.truncateFrom (i + 1) ++
        (s'.getEntriesFrom (i + 1)).map .putEntry)).log.lookup (s.logOffset + 1 + j) =
          d.log.lookup (s.logOffset + 1 + j)) ∨
      (d.writeAll (d.truncateFrom (i + 1) ++
        (s'.getEntriesFrom (i + 1)).map .putEntry)).log.lookup (s.logOffset + 1 + j) =
          s'.log[j]? := by
  have hindexed : IndexedFrom (s.logOffset + (i - s.logOffset)) (s'.log.drop (i - s.logOffset)) :=
    hoff ▸ hal'.drop _
  rw [Disk.writeAll_append, hal'.getEntriesFrom_succ, hoff, Disk.lookup_puts _ hindexed,
    Disk.lookup_truncateFrom, List.length_drop]
  rcases lt_or_ge j (i - s.logOffset) with hlow | hhigh
  · have hget := congrArg (fun l => l[j]?) hlog
    simp only [List.getElem?_take_of_lt hlow] at hget
    rw [if_neg (by omega), if_neg (by omega)]
    exact .inl ⟨hlow, hget, rfl⟩
  · refine .inr ?_
    by_cases hin : s.logOffset + 1 + j ≤
        s.logOffset + (i - s.logOffset) + (s'.log.length - (i - s.logOffset))
    · rw [if_pos ⟨by omega, hin⟩, List.getElem?_drop]
      congr 1
      omega
    · rw [if_neg fun hc => hin hc.2, if_pos (by omega)]
      exact (List.getElem?_eq_none (by omega)).symm

theorem logTracks_rewrite {s' : RaftState} (d : Disk) {i : ℕ} (hoff : s'.logOffset = s.logOffset)
    (hal' : s'.Aligned)
    (hlog : s'.log.take (i - s.logOffset) = s.log.take (i - s.logOffset)) :
    LogTracks s d s' (d.writeAll
      (d.truncateFrom (i + 1) ++ (s'.getEntriesFrom (i + 1)).map .putEntry)) :=
  fun j => (lookup_rewrite d hoff hal' hlog j).imp_left fun ⟨_, hmem, hdisk⟩ => ⟨hdisk, hmem⟩

/-- The recipe of `handle_append_entries`: the hard state alone, or with the log written anew
from the index where the request cuts it. -/
theorem appendEntriesSteps_cases {req : AppendEntriesRequest} (hal : s.Aligned)
    (hal' : (handleAppendEntries lib s req).1.Aligned) :
    ((handleAppendEntries lib s req).1.log = s.log ∧ s.cutFrom req = none ∧
        appendEntriesSteps lib s req =
          (handleAppendEntries lib s req).1.saveHardState.map .write) ∨
      ∃ i, s.cutFrom req = some (i + 1) ∧
        (handleAppendEntries lib s req).1.log.take (i - s.logOffset) =
          s.log.take (i - s.logOffset) ∧
        appendEntriesSteps lib s req =
          (handleAppendEntries lib s req).1.saveHardState.map .write ++ .truncateFrom (i + 1) ::
            ((handleAppendEntries lib s req).1.getEntriesFrom (i + 1)).map
              fun e => .write (.putEntry e) := by
  obtain ⟨hoff, -⟩ := handleAppendEntries_offset lib s req
  simp only [appendEntriesSteps]
  rcases handleAppendEntries_outcome lib s req with
    ⟨hfail, hcut, hlog⟩ | ⟨hfail, hcut, hlt, hle, hlog⟩ | ⟨hok, hcut, hempty, htake⟩
  · have hlast : (handleAppendEntries lib s req).1.lastLogIndex = s.lastLogIndex := by
      rw [RaftState.lastLogIndex, RaftState.lastLogIndex, hlog, hoff]
    rw [if_neg (by simp [hfail]), if_neg (by omega), List.append_nil]
    exact .inl ⟨hlog, hcut, rfl⟩
  · have hlast : (handleAppendEntries lib s req).1.lastLogIndex = req.prevLogIndex - 1 := by
      rw [hal'.lastLogIndex, hoff, hlog, List.length_take]
      omega
    have hold := hal.lastLogIndex
    have hpos : req.prevLogIndex - 1 + 1 = req.prevLogIndex := by omega
    have hnone : (handleAppendEntries lib s req).1.getEntriesFrom (req.prevLogIndex - 1 + 1) =
        [] := by
      rw [hal'.getEntriesFrom_succ, hoff, hlog]
      exact List.drop_eq_nil_of_le (by rw [List.length_take]; omega)
    rw [if_neg (by simp [hfail]), if_pos ⟨hfail, by omega⟩, hlast]
    refine .inr ⟨req.prevLogIndex - 1, by rw [hcut, hpos], ?_, ?_⟩
    · rw [hlog, List.take_take]
      congr 1
      omega
    · rw [hnone, List.map_nil]
  · by_cases hnil : req.entries = []
    · rw [if_neg (by simp [hnil]), if_neg (by simp [hok]), List.append_nil]
      exact .inl ⟨hempty hnil, by rw [hcut, if_pos hnil], rfl⟩
    · rw [if_pos ⟨hok, hnil⟩]
      exact .inr ⟨req.prevLogIndex, by rw [hcut, if_neg hnil], htake, rfl⟩

def StorageStep.writes (d : Disk) : StorageStep → List DiskWrite
  | .write w => [w]
  | .truncateFrom i => d.truncateFrom i

theorem flatMap_writes_map {α : Type*} (d : Disk) (f : α → DiskWrite) (l : List α) :
    (l.map fun a => StorageStep.write (f a)).flatMap (StorageStep.writes d) = l.map f := by
  rw [List.flatMap_map, List.map_eq_flatMap]
  rfl

theorem appendEntriesWrites_eq (lib : WireLib) (s : RaftState) (d : Disk)
    (req : AppendEntriesRequest) :
    DurableOp.appendEntriesWrites lib s d req =
      (appendEntriesSteps lib s req).flatMap (StorageStep.writes d) := by
  simp only [appendEntriesSteps, DurableOp.appendEntriesWrites, List.flatMap_append]
  congr 1
  split_ifs
  · rw [List.flatMap_cons, flatMap_writes_map]
    rfl
  · exact (List.append_nil _).symm
  · rfl

theorem appendEntriesWrites_cases (d : Disk) {req : AppendEntriesRequest} (hal : s.Aligned)
    (hal' : (handleAppendEntries lib s req).1.Aligned) :
    ((handleAppendEntries lib s req).1.log = s.log ∧ s.cutFrom req = none ∧
        DurableOp.appendEntriesWrites lib s d req =
          (handleAppendEntries lib s req).1.saveHardState) ∨
      ∃ i, s.cutFrom req = some (i + 1) ∧
        (handleAppendEntries lib s req).1.log.take (i - s.logOffset) =
          s.log.take (i - s.logOffset) ∧
        DurableOp.appendEntriesWrites lib s d req =
          (handleAppendEntries lib s req).1.saveHardState ++ (d.truncateFrom (i + 1) ++
            ((handleAppendEntries lib s req).1.getEntriesFrom (i + 1)).map .putEntry) := by
  rw [appendEntriesWrites_eq]
  refine (appendEntriesSteps_cases hal hal').imp (fun ⟨hlog, hcut, heq⟩ => ⟨hlog, hcut, ?_⟩)
    fun ⟨i, hcut, htake, heq⟩ => ⟨i, hcut, htake, ?_⟩
  · rw [heq]
    rfl
  · rw [heq, List.flatMap_append, List.flatMap_cons, flatMap_writes_map d DiskWrite.putEntry]
    rfl

theorem appendEntriesWrites_spec (d : Disk) {req : AppendEntriesRequest} (hal : s.Aligned)
    (hal' : (handleAppendEntries lib s req).1.Aligned) :
    (d.writeAll (handleAppendEntries lib s req).1.saveHardState).SameHead
        (d.writeAll (DurableOp.appendEntriesWrites lib s d req)) ∧
      LogTracks s d (handleAppendEntries lib s req).1
        (d.writeAll (DurableOp.appendEntriesWrites lib s d req)) := by
  obtain ⟨hoff, -⟩ := handleAppendEntries_offset lib s req
  rcases appendEntriesWrites_cases d hal hal' with ⟨hlog, -, heq⟩ | ⟨i, -, htake, heq⟩
  · rw [heq]
    exact ⟨.refl _, logTracks_of_eq hlog rfl⟩
  · rw [heq, Disk.writeAll_append]
    refine ⟨?_, logTracks_rewrite (d.writeAll (handleAppendEntries lib s req).1.saveHardState)
      hoff hal' htake⟩
    rw [Disk.writeAll_append]
    exact (Disk.sameHead_deletes _ _).trans (Disk.sameHead_puts _ _)

theorem mirrors_appendEntries {req : AppendEntriesRequest} (h : MirrorsLog s d) (hal : s.Aligned)
    (hal' : (handleAppendEntries lib s req).1.Aligned) :
    Mirrors (handleAppendEntries lib s req).1
      (d.writeAll (DurableOp.appendEntriesWrites lib s d req)) := by
  obtain ⟨hoff, hsnap⟩ := handleAppendEntries_offset lib s req
  obtain ⟨hhead, htracks⟩ := appendEntriesWrites_spec d hal hal'
  have hlog : MirrorsLog (handleAppendEntries lib s req).1
      (d.writeAll (DurableOp.appendEntriesWrites lib s d req)) := by
    refine ⟨hhead.snapshot.trans (h.snapshot.trans hsnap.symm), fun j => ?_⟩
    rw [hoff]
    rcases htracks j with ⟨hdisk, hmem⟩ | heq
    · rw [hdisk, hmem, h.log]
    · exact heq
  exact hlog.mirrors hhead

/-- The snapshot is on disk already, or a newer one and the entries above it. -/
theorem MirrorsLog.saveSnapshot {s' : RaftState} (h : MirrorsLog s d)
    (hle : s.logOffset ≤ s'.logOffset)
    (hlog : s'.log = s.log.drop (s'.logOffset - s.logOffset))
    (hsnap : s'.snapshot = none → s.snapshot = none) :
    MirrorsLog s' (d.writeAll (s'.saveSnapshot d)) := by
  have habove : ∀ j, d.log.lookup (s'.logOffset + 1 + j) = s'.log[j]? := fun j => by
    rw [hlog, List.getElem?_drop, ← h.log]
    congr 1
    omega
  rw [RaftState.saveSnapshot]
  cases hnew : s'.snapshot with
  | none => exact ⟨(h.snapshot.trans (hsnap hnew)).trans hnew.symm, habove⟩
  | some snapshot =>
    obtain ⟨-, -, -, hput, hkeep⟩ := d.saveSnapshot_spec snapshot s'.logOffset
    exact ⟨hput.trans hnew.symm, fun j => (hkeep _ (by omega)).trans (habove j)⟩

theorem MirrorsLog.mirrors_saveSnapshot (h : MirrorsLog s (d.writeAll (s.saveSnapshot d)))
    (hterm : d.term = some s.currentTerm) (hvote : d.votedFor.getD none = s.votedFor)
    (hoff : s.snapshot = none → d.logOffset.getD 0 = s.logOffset) :
    Mirrors s (d.writeAll (s.saveSnapshot d)) := by
  rw [RaftState.saveSnapshot] at h ⊢
  cases hsnap : s.snapshot with
  | none =>
    rw [hsnap] at h
    exact ⟨h, hterm, hvote, hoff hsnap⟩
  | some snapshot =>
    rw [hsnap] at h
    obtain ⟨hterm', hvote', hoff', -, -⟩ := d.saveSnapshot_spec snapshot s.logOffset
    exact ⟨h, hterm'.trans hterm, by rw [hvote', hvote], by rw [hoff']; rfl⟩

theorem mirrors_installSnapshot (h : MirrorsLog s d) (hal : s.Aligned)
    (req : InstallSnapshotRequest) :
    Mirrors (handleInstallSnapshot lib s req).1
      (d.writeAll (DurableOp.installSnapshotWrites lib s d req)) := by
  have hsaved := h.saveHardState (handleInstallSnapshot lib s req).1
  have hkept : s.logOffset ≤ (handleInstallSnapshot lib s req).1.logOffset ∧
      (handleInstallSnapshot lib s req).1.log =
        s.log.drop ((handleInstallSnapshot lib s req).1.logOffset - s.logOffset) ∧
      ((handleInstallSnapshot lib s req).1.snapshot = none → s.snapshot = none) := by
    rcases handleInstallSnapshot_outcome lib hal req with
      ⟨hoff, hlog, hsnap⟩ | ⟨hinst, hoff, hlog, hsnap⟩
    · rw [hoff, hlog, hsnap, Nat.sub_self, List.drop_zero]
      exact ⟨le_rfl, rfl, id⟩
    · rw [hoff, hlog, hsnap]
      exact ⟨hinst.2.le, rfl, fun hnone => nomatch hnone⟩
  simp only [DurableOp.installSnapshotWrites, Disk.writeAll_append]
  split_ifs with hcond
  · exact (hsaved.saveSnapshot hkept.1 hkept.2.1 hkept.2.2).mirrors_saveSnapshot rfl rfl
      fun _ => rfl
  · rcases handleInstallSnapshot_outcome lib hal req with
      ⟨hoff, hlog, hsnap⟩ | ⟨hinst, hoff, -, -⟩
    · exact (hsaved.of_eq hoff hlog hsnap).mirrors (.refl _)
    · exact absurd hoff.ge hcond

theorem mirrors_compactLog (h : Mirrors s d) (snapshot : Snapshot) :
    Mirrors (s.compactLog snapshot) (d.writeAll ((s.compactLog snapshot).saveSnapshot d)) := by
  rcases le_or_gt snapshot.lastIncludedIndex s.logOffset with hle | hgt
  · have hsame : s.compactLog snapshot = s := if_pos hle
    rw [hsame]
    refine (h.toMirrorsLog.saveSnapshot le_rfl ?_ id).mirrors_saveSnapshot h.term h.votedFor
      fun _ => h.logOffset
    rw [Nat.sub_self, List.drop_zero]
  · have hnew : s.compactLog snapshot =
        { s with
          log := s.log.drop (snapshot.lastIncludedIndex - s.logOffset)
          logOffset := snapshot.lastIncludedIndex
          snapshot := some snapshot } :=
      if_neg (not_le.mpr hgt)
    rw [hnew]
    exact (h.toMirrorsLog.saveSnapshot hgt.le rfl
      fun hnone => absurd hnone (Option.some_ne_none _)).mirrors_saveSnapshot h.term h.votedFor
        fun hnone => absurd hnone (Option.some_ne_none _)

theorem mirrors_appendEntry (h : Mirrors s d) (hal : s.Aligned) (command : Command) :
    Mirrors (s.appendEntry command) (d.writeAll (Disk.appendEntry (s.newEntry command))) := by
  refine ⟨⟨h.snapshot, fun j => ?_⟩, h.term, h.votedFor, h.logOffset⟩
  have hindexed : IndexedFrom s.lastLogIndex [s.newEntry command] := fun i e hi => by
    cases i with
    | zero =>
      obtain rfl := Option.some.inj hi
      rfl
    | succ i => cases hi
  change (d.writeAll ([s.newEntry command].map .putEntry)).log.lookup (s.logOffset + 1 + j) =
    (s.log ++ [s.newEntry command])[j]?
  rw [Disk.lookup_puts d hindexed, hal.lastLogIndex, List.length_singleton]
  rcases lt_trichotomy j s.log.length with hlt | rfl | hgt
  · rw [if_neg (by omega), List.getElem?_append_left hlt]
    exact h.log j
  · rw [if_pos ⟨by omega, by omega⟩, List.getElem?_append_right le_rfl]
    congr 1
    omega
  · rw [if_neg (by omega), h.log, List.getElem?_eq_none (by omega),
      List.getElem?_eq_none (by rw [List.length_append, List.length_singleton]; omega)]

theorem Mirrors.of_persisted {s' : RaftState} (h : Mirrors s d)
    (hsame : s'.persisted = s.persisted) : Mirrors s' d := by
  obtain ⟨hterm, hvote, hoff, hsnap, hlog⟩ := PersistedState.mk.inj hsame
  exact ⟨h.toMirrorsLog.of_eq hoff hlog hsnap, by rw [hterm]; exact h.term,
    by rw [hvote]; exact h.votedFor, by rw [hoff]; exact h.logOffset⟩

end Recipes

/-! ### Whole operations -/

/-- The recipes: the hard state alone, nothing at all, and those of the four operations that
change the log. -/
inductive DurableOp.Recipe (lib : WireLib) (s : RaftState) (d : Disk) (op : DurableOp) :
    Prop where
  | hardState (hoff : (op.exec lib s).logOffset = s.logOffset)
      (hlog : (op.exec lib s).log = s.log) (hsnap : (op.exec lib s).snapshot = s.snapshot)
      (hsaves : op.savesHardState s = true)
      (hwrites : op.writes lib s d = (op.exec lib s).saveHardState)
  | volatile (hsame : (op.exec lib s).persisted = s.persisted)
      (hsaves : op.savesHardState s = false) (hwrites : op.writes lib s d = [])
  | appendEntries (req : AppendEntriesRequest) (hop : op = .handleAppendEntries req)
  | installSnapshot (req : InstallSnapshotRequest) (hop : op = .handleInstallSnapshot req)
  | appendCommand (command : Command) (hop : op = .handleAppendCommand command)
      (hrole : s.role = .leader)
  | compaction (lastApplied lastAppliedTerm : ℕ) (jobs : List SnapshotJob) (workers : List ℕ)
      (hop : op = .maybeCompactLog lastApplied lastAppliedTerm jobs workers)

section Operations

variable {lib : WireLib} {s : RaftState} {d : Disk} {op : DurableOp}

theorem RaftState.handleAppendReply_persisted {peer : ℕ} {resp : AppendEntriesResponse}
    (h : ¬ s.currentTerm < resp.term) :
    (s.handleAppendReply peer resp).persisted = s.persisted := by
  simp only [RaftState.handleAppendReply, if_neg h]
  split_ifs
  · rfl
  · rfl
  · obtain ⟨nextIndex, hdecrement⟩ := s.decrementNext_eq peer
    rw [hdecrement]
    rfl
  · rfl

theorem DurableOp.Recipe.of_stepDown {term : ℕ} (hexec : op.exec lib s = s.becomeFollower term)
    (hsaves : op.savesHardState s = true)
    (hwrites : op.writes lib s d = (s.becomeFollower term).saveHardState) : op.Recipe lib s d := by
  refine .hardState ?_ ?_ ?_ hsaves (hexec ▸ hwrites) <;> rw [hexec] <;> rfl

theorem DurableOp.recipe (lib : WireLib) (s : RaftState) (d : Disk) (op : DurableOp) :
    op.Recipe lib s d := by
  cases op with
  | handleVoteRequest req =>
    obtain ⟨hoff, hlog, hsnap⟩ := handleRequestVote_log s req
    exact .hardState hoff hlog hsnap rfl rfl
  | handleAppendEntries req => exact .appendEntries req rfl
  | handleInstallSnapshot req => exact .installSnapshot req rfl
  | handleAppendCommand command =>
    by_cases hrole : s.role = .leader
    · exact .appendCommand command rfl hrole
    · exact .volatile (congrArg _ (if_neg hrole)) rfl (if_neg hrole)
  | startElection myId => exact .hardState rfl rfl rfl rfl rfl
  | finishElection myId peerIds term voteCount =>
    refine .volatile ?_ rfl rfl
    simp only [exec, RaftState.finishElection]
    split_ifs <;> rfl
  | stepDown term => exact .of_stepDown rfl rfl rfl
  | handleAppendReply peer resp =>
    by_cases hterm : s.currentTerm < resp.term
    · exact .of_stepDown (if_pos hterm) (decide_eq_true hterm) (if_pos hterm)
    · exact .volatile (RaftState.handleAppendReply_persisted hterm) (decide_eq_false hterm)
        (if_neg hterm)
  | handleSnapshotReply peer lastIncludedIndex resp =>
    by_cases hterm : s.currentTerm < resp.term
    · exact .of_stepDown (if_pos hterm) (decide_eq_true hterm) (if_pos hterm)
    · refine .volatile ?_ (decide_eq_false hterm) (if_neg hterm)
      rw [exec, RaftState.handleSnapshotReply, if_neg hterm]
      rfl
  | getCommittedEntries => exact .volatile rfl rfl rfl
  | maybeCompactLog lastApplied lastAppliedTerm jobs workers => exact .compaction _ _ _ _ rfl

/-- An operation that saves the hard state brings the disk up to date. -/
theorem MirrorsLog.mirrors_exec (h : MirrorsLog s d) (hal : s.Aligned)
    (hal' : (op.exec lib s).Aligned) (hsaves : op.savesHardState s = true) :
    Mirrors (op.exec lib s) (d.writeAll (op.writes lib s d)) := by
  cases op.recipe lib s d with
  | hardState hoff hlog hsnap _ hwrites =>
    rw [hwrites]
    exact h.mirrors_of_eq hoff hlog hsnap
  | volatile hsame hnot _ =>
    rw [hnot] at hsaves
    cases hsaves
  | appendEntries req hop =>
    subst hop
    exact mirrors_appendEntries h hal hal'
  | installSnapshot req hop =>
    subst hop
    exact mirrors_installSnapshot h hal req
  | appendCommand command hop hrole =>
    subst hop
    cases hsaves
  | compaction lastApplied lastAppliedTerm jobs workers hop =>
    subst hop
    cases hsaves

theorem Mirrors.exec (h : Mirrors s d) (hal : s.Aligned) (hal' : (op.exec lib s).Aligned) :
    Mirrors (op.exec lib s) (d.writeAll (op.writes lib s d)) := by
  cases op.recipe lib s d with
  | hardState _ _ _ hsaves => exact h.toMirrorsLog.mirrors_exec hal hal' hsaves
  | volatile hsame _ hwrites =>
    rw [hwrites]
    exact h.of_persisted hsame
  | appendEntries req hop =>
    subst hop
    exact mirrors_appendEntries h.toMirrorsLog hal hal'
  | installSnapshot req hop =>
    subst hop
    exact mirrors_installSnapshot h.toMirrorsLog hal req
  | appendCommand command hop hrole =>
    subst hop
    simp only [DurableOp.exec, DurableOp.writes, if_pos hrole]
    exact mirrors_appendEntry h hal command
  | compaction lastApplied lastAppliedTerm jobs workers hop =>
    subst hop
    exact mirrors_compactLog h _

/-- Nothing has been saved and there is nothing to save: the node has not left its first term. -/
structure Fresh (s : RaftState) (d : Disk) : Prop where
  disk : d = .empty
  persisted : s.persisted = RaftState.new.persisted
  role : s.role = .follower
  commitIndex : s.commitIndex = 0
  lastApplied : s.lastApplied = 0

theorem fresh_new : Fresh .new .empty := ⟨rfl, rfl, rfl, rfl, rfl⟩

theorem Fresh.mirrorsLog (h : Fresh s d) : MirrorsLog s d := by
  obtain ⟨-, -, hoff, hsnap, hlog⟩ := PersistedState.mk.inj h.persisted
  rw [h.disk]
  refine ⟨hsnap.symm, fun j => ?_⟩
  rw [hlog]
  exact Finmap.lookup_empty _

theorem Fresh.exec (h : Fresh s d) (hen : op.Enabled s) (hsaves : op.savesHardState s = false) :
    Fresh (op.exec lib s) (d.writeAll (op.writes lib s d)) := by
  have hnot : s.role ≠ .leader := by
    rw [h.role]
    exact RaftRole.noConfusion
  cases op with
  | handleVoteRequest | handleAppendEntries | handleInstallSnapshot | startElection | stepDown =>
    cases hsaves
  | handleAppendCommand command =>
    simp only [DurableOp.exec, DurableOp.writes, if_neg hnot]
    exact h
  | finishElection myId peerIds term voteCount =>
    have hcand : ¬ (s.role = .candidate ∧ s.currentTerm = term) := fun hc => by
      rw [h.role] at hc
      cases hc.1
    simp only [DurableOp.exec, DurableOp.writes, RaftState.finishElection, if_neg hcand]
    exact h
  | handleAppendReply peer resp =>
    have hterm : ¬ s.currentTerm < resp.term := of_decide_eq_false hsaves
    simp only [DurableOp.exec, DurableOp.writes, DurableOp.replyWrites,
      RaftState.handleAppendReply, if_neg hterm, hnot, false_and, if_false]
    exact h
  | handleSnapshotReply peer lastIncludedIndex resp =>
    have hterm : ¬ s.currentTerm < resp.term := of_decide_eq_false hsaves
    simp only [DurableOp.exec, DurableOp.writes, DurableOp.replyWrites,
      RaftState.handleSnapshotReply, if_neg hterm]
    exact ⟨h.disk, h.persisted, h.role, h.commitIndex, h.lastApplied⟩
  | getCommittedEntries =>
    refine ⟨h.disk, h.persisted, h.role, h.commitIndex, ?_⟩
    change max s.lastApplied s.commitIndex = 0
    rw [h.lastApplied, h.commitIndex, max_self]
  | maybeCompactLog lastApplied lastAppliedTerm jobs workers =>
    have hle := hen.2
    rw [h.lastApplied] at hle
    exact absurd (Nat.le_zero.mp hle) hen.1

end Operations

namespace DurableNode

variable {lib : WireLib} {nd nd' : DurableNode} {op : DurableOp}

def Kept (nd : DurableNode) : Prop := Fresh nd.state nd.disk ∨ Mirrors nd.state nd.disk

theorem Kept.mirrorsLog (h : nd.Kept) : MirrorsLog nd.state nd.disk := by
  rcases h with h | h
  · exact h.mirrorsLog
  · exact h.toMirrorsLog

theorem eq_of_step (hs : nd.step lib op = some nd') : op.Enabled nd.state ∧
    nd' = ⟨op.exec lib nd.state, nd.disk.writeAll (op.writes lib nd.state nd.disk)⟩ := by
  rw [step] at hs
  split_ifs at hs with hen
  exact ⟨hen, (Option.some.inj hs).symm⟩

theorem Kept.step (h : nd.Kept) (hal : nd.state.Aligned) (hs : nd.step lib op = some nd')
    (hal' : nd'.state.Aligned) : nd'.Kept := by
  obtain ⟨hen, rfl⟩ := eq_of_step hs
  cases hsaves : op.savesHardState nd.state with
  | true => exact .inr (h.mirrorsLog.mirrors_exec hal hal' hsaves)
  | false =>
    rcases h with h | h
    · exact .inl (h.exec hen hsaves)
    · exact .inr (h.exec hal hal')

end DurableNode
end NomadLite
