import NomadLite.DiskMirror

/-!
# Stopping between two writes

A process that stops in the middle of an operation leaves the effect of the first
writes of it, and a restart loads what is there. Three things make that harmful. The
keys of a truncation are deleted from the lowest one upwards, so a stop inside it
leaves a gap in the log. An installed snapshot is written after the hard state that
already has its offset, so a stop between the two leaves an offset without a snapshot.
And a log that is no longer aligned is not what the recipes assume.
-/

namespace NomadLite

open OrderedScan

inductive CrashAction where
  | run (op : DurableOp)
  | crash (op : DurableOp) (writes : ℕ)
deriving DecidableEq

structure RaftState.Recovered (s : RaftState) : Prop where
  log : IndexedFrom s.logOffset s.log
  snapshot : 0 < s.logOffset → ∃ snapshot ∈ s.snapshot, s.logOffset ≤ snapshot.lastIncludedIndex

namespace DurableNode

def restart (d : Disk) : DurableNode := ⟨.newWithStorage d.load, d⟩

def crashStep (lib : WireLib) (nd : DurableNode) : CrashAction → Option DurableNode
  | .run op => nd.step lib op
  | .crash op writes =>
    if op.Enabled nd.state then
      some (restart (nd.disk.writeAll ((op.writes lib nd.state nd.disk).take writes)))
    else none

end DurableNode

namespace DurableOp

def WellFormed (lib : WireLib) : DurableOp → Prop
  | .handleAppendEntries req => req.WellFormed lib
  | _ => True

def KeepsAligned (lib : WireLib) (s : RaftState) : DurableOp → Prop
  | .handleAppendEntries req =>
    req.WellFormed lib ∧ (Call.appendEntries req).StartsAboveOffset s
  | _ => True

/-- The process does not stop inside the deletions of a truncation, nor between the hard state
and the snapshot of an installation unless the stored snapshot covers the new offset. -/
def CutsSafely (s : RaftState) (d : Disk) (writes : ℕ) : DurableOp → Prop
  | .handleAppendEntries req =>
    ∀ i ∈ s.cutFrom req, writes ≤ 3 ∨ 3 + (keysFrom d.log i).length ≤ writes
  | .handleInstallSnapshot req => s.Installs req → writes = 3 →
    ∃ snapshot ∈ s.snapshot, req.lastIncludedIndex ≤ snapshot.lastIncludedIndex
  | _ => True

instance (lib : WireLib) : (op : DurableOp) → Decidable (op.WellFormed lib)
  | .handleAppendEntries req => inferInstanceAs (Decidable (req.WellFormed lib))
  | .handleVoteRequest _ | .handleInstallSnapshot _ | .handleAppendCommand _ | .startElection _
  | .finishElection .. | .stepDown _ | .handleAppendReply .. | .handleSnapshotReply ..
  | .getCommittedEntries | .maybeCompactLog .. => isTrue trivial

instance (lib : WireLib) (s : RaftState) : (op : DurableOp) → Decidable (op.KeepsAligned lib s)
  | .handleAppendEntries _ => inferInstanceAs (Decidable (_ ∧ _))
  | .handleVoteRequest _ | .handleInstallSnapshot _ | .handleAppendCommand _ | .startElection _
  | .finishElection .. | .stepDown _ | .handleAppendReply .. | .handleSnapshotReply ..
  | .getCommittedEntries | .maybeCompactLog .. => isTrue trivial

instance (s : RaftState) (d : Disk) (writes : ℕ) :
    (op : DurableOp) → Decidable (op.CutsSafely s d writes)
  | .handleAppendEntries _ => inferInstanceAs (Decidable (∀ i ∈ _, _))
  | .handleInstallSnapshot _ => inferInstanceAs (Decidable (_ → _ → ∃ snapshot ∈ _, _))
  | .handleVoteRequest _ | .handleAppendCommand _ | .startElection _ | .finishElection ..
  | .stepDown _ | .handleAppendReply .. | .handleSnapshotReply .. | .getCommittedEntries
  | .maybeCompactLog .. => isTrue trivial

end DurableOp

namespace CrashAction

def KeepsAligned (lib : WireLib) (nd : DurableNode) : CrashAction → Prop
  | .run op | .crash op _ => op.Fits nd.state ∧ op.KeepsAligned lib nd.state

def Safe (lib : WireLib) (nd : DurableNode) : CrashAction → Prop
  | .run op => op.Fits nd.state ∧ op.KeepsAligned lib nd.state
  | .crash op writes =>
    op.Fits nd.state ∧ op.WellFormed lib ∧ op.CutsSafely nd.state nd.disk writes

instance (lib : WireLib) (nd : DurableNode) :
    (action : CrashAction) → Decidable (action.KeepsAligned lib nd)
  | .run _ | .crash _ _ => inferInstanceAs (Decidable (_ ∧ _))

instance (lib : WireLib) (nd : DurableNode) :
    (action : CrashAction) → Decidable (action.Safe lib nd)
  | .run _ => inferInstanceAs (Decidable (_ ∧ _))
  | .crash _ _ => inferInstanceAs (Decidable (_ ∧ _))

end CrashAction

/-! ### Disks from which a node recovers -/

structure Holds (s : RaftState) (d : Disk) : Prop extends MirrorsLog s d where
  logOffset : d.logOffset.getD 0 = s.logOffset

namespace Disk

def Recoverable (d : Disk) : Prop := ∃ s, Holds s d ∧ s.Recovered

def Begun (d : Disk) : Prop := d = .empty ∨ d.term.isSome = true

variable {d : Disk}

theorem term_isSome_writeAll (h : d.term.isSome = true) (ws : List DiskWrite) :
    (d.writeAll ws).term.isSome = true := by
  induction ws generalizing d with
  | nil => exact h
  | cons w ws ih =>
    refine ih ?_
    cases w with
    | putTerm term => rfl
    | _ => exact h

end Disk

theorem RaftState.recovered_new : RaftState.new.Recovered :=
  ⟨.nil 0, fun hpos => absurd hpos (lt_irrefl 0)⟩

theorem DurableOp.putTerm_of_saves (lib : WireLib) {s : RaftState} (d : Disk) {op : DurableOp}
    (h : op.savesHardState s = true) : ∃ term ws, op.writes lib s d = .putTerm term :: ws := by
  cases op.recipe lib s d with
  | hardState _ _ _ _ hwrites => exact ⟨_, _, hwrites⟩
  | volatile _ hnot =>
    rw [hnot] at h
    cases h
  | appendEntries req hop | installSnapshot req hop =>
    subst hop
    exact ⟨_, _, rfl⟩
  | appendCommand _ hop | compaction _ _ _ _ hop =>
    subst hop
    cases h

theorem Fresh.writes_eq_nil {lib : WireLib} {s : RaftState} {d : Disk} {op : DurableOp}
    (h : Fresh s d) (hen : op.Enabled s) (hsaves : op.savesHardState s = false) :
    op.writes lib s d = [] := by
  cases op.recipe lib s d with
  | hardState _ _ _ hyes =>
    rw [hyes] at hsaves
    cases hsaves
  | volatile _ _ hwrites => exact hwrites
  | appendEntries req hop | installSnapshot req hop =>
    subst hop
    cases hsaves
  | appendCommand command hop hrole =>
    rw [h.role] at hrole
    cases hrole
  | compaction lastApplied lastAppliedTerm jobs workers hop =>
    subst hop
    have hle := hen.2
    rw [h.lastApplied] at hle
    exact absurd (Nat.le_zero.mp hle) hen.1

namespace DurableNode

variable {lib : WireLib} {nd nd' : DurableNode}

theorem Kept.holds (h : nd.Kept) : Holds nd.state nd.disk := by
  refine ⟨h.mirrorsLog, ?_⟩
  rcases h with h | h
  · rw [h.disk]
    exact (congrArg PersistedState.logOffset h.persisted).symm
  · exact h.logOffset

theorem kept_restart {d : Disk} (hb : d.Begun) (hd : d.Recoverable) :
    (restart d).Kept ∧ (restart d).state.Recovered := by
  rcases hb with rfl | hsome
  · exact ⟨.inl fresh_new, RaftState.recovered_new⟩
  · obtain ⟨term, hterm⟩ := Option.isSome_iff_exists.mp hsome
    obtain ⟨s, hs, hlog, hsnap⟩ := hd
    have hscan : scanFrom d.log (d.logOffset.getD 0 + 1) = s.log :=
      scanFrom_eq fun j => hs.logOffset ▸ hs.log j
    have hload : d.load = some ⟨term, d.votedFor.getD none, s.logOffset, s.snapshot, s.log⟩ := by
      rw [Disk.load, hterm, Option.map_some, hscan, hs.logOffset, hs.snapshot]
    rw [restart, hload]
    exact ⟨.inr ⟨⟨hs.snapshot, hs.log⟩, hterm, rfl, hs.logOffset⟩, hlog, hsnap⟩

theorem begun_crash (h : nd.Kept) {op : DurableOp} (hen : op.Enabled nd.state) (k : ℕ) :
    (nd.disk.writeAll ((op.writes lib nd.state nd.disk).take k)).Begun := by
  rcases h with h | h
  · cases hsaves : op.savesHardState nd.state with
    | false =>
      rw [h.writes_eq_nil hen hsaves, List.take_nil]
      exact .inl h.disk
    | true =>
      obtain ⟨term, ws, hcons⟩ := op.putTerm_of_saves lib nd.disk hsaves
      rw [hcons]
      cases k with
      | zero => exact .inl h.disk
      | succ k =>
        exact .inr (Disk.term_isSome_writeAll (d := nd.disk.write (.putTerm term)) rfl _)
  · exact .inr (Disk.term_isSome_writeAll (by rw [h.term]; rfl) _)

end DurableNode

/-! ### Each recipe cut short -/

section Cuts

variable {lib : WireLib} {s s' : RaftState} {d : Disk}

theorem Holds.hardState_take (h : Holds s d) (s' : RaftState)
    (hoff : s'.logOffset = s.logOffset) (k : ℕ) :
    Holds s (d.writeAll (s'.saveHardState.take k)) := by
  rcases k with _ | _ | _ | k
  · exact h
  · exact ⟨⟨h.snapshot, h.log⟩, h.logOffset⟩
  · exact ⟨⟨h.snapshot, h.log⟩, h.logOffset⟩
  · rw [List.take_of_length_le (Nat.le_add_left 3 k)]
    exact ⟨⟨h.snapshot, h.log⟩, hoff⟩

/-- Once the snapshot is written, the offset and the deletions can follow or not. -/
theorem Holds.recoverable_saveSnapshot (h : Holds s d) (hal : s.Aligned) (d₀ : Disk)
    {snapshot : Snapshot} {logOffset : ℕ} (hle : s.logOffset ≤ logOffset)
    (hsnap : logOffset ≤ snapshot.lastIncludedIndex) (k : ℕ) :
    (d.writeAll ((d₀.saveSnapshot snapshot logOffset).take (k + 1))).Recoverable := by
  cases k with
  | zero =>
    exact ⟨{ s with snapshot := some snapshot }, ⟨⟨rfl, h.log⟩, h.logOffset⟩, hal,
      fun _ => ⟨snapshot, rfl, hle.trans hsnap⟩⟩
  | succ k =>
    refine ⟨{ s with
      snapshot := some snapshot
      log := s.log.drop (logOffset - s.logOffset)
      logOffset := logOffset }, ?_, ?_, fun _ => ⟨snapshot, rfl, hsnap⟩⟩
    · obtain ⟨indices, hindices, hcut⟩ : ∃ indices : List ℕ, (∀ i ∈ indices, i ≤ logOffset) ∧
          (d₀.saveSnapshot snapshot logOffset).take (k + 1 + 1) =
            [.putSnapshot snapshot, .putLogOffset logOffset] ++ indices.map .deleteEntry := by
        rw [Disk.saveSnapshot]
        split_ifs
        · refine ⟨((keysFrom d₀.log 1).takeWhile (· < logOffset + 1)).take k, fun i hi => ?_, ?_⟩
          · have hall := List.all_eq_true.mp List.all_takeWhile i (List.mem_of_mem_take hi)
            exact Nat.lt_succ_iff.mp (of_decide_eq_true hall)
          · rw [List.map_take]
            rfl
        · exact ⟨[], fun i hi => absurd hi List.not_mem_nil, by simp⟩
      rw [hcut, Disk.writeAll_append]
      have hhead := Disk.sameHead_deletes
        (d.writeAll [.putSnapshot snapshot, .putLogOffset logOffset]) indices
      refine ⟨⟨hhead.snapshot, fun j => ?_⟩, by rw [hhead.logOffset]; rfl⟩
      change (Disk.writeAll _ _).log.lookup (logOffset + 1 + j) =
        (s.log.drop (logOffset - s.logOffset))[j]?
      rw [Disk.lookup_deletes, if_neg fun hmem => ?_, List.getElem?_drop, ← h.log]
      · change d.log.lookup _ = _
        congr 1
        omega
      · have := hindices _ hmem
        omega
    · have hdrop := hal.drop (logOffset - s.logOffset)
      rwa [Nat.add_sub_cancel' hle] at hdrop

theorem Holds.rewrite_take (h : Holds s d) (hoff : s'.logOffset = s.logOffset)
    (hsnap : s'.snapshot = s.snapshot) (hal' : s'.Aligned) {i : ℕ}
    (htake : s'.log.take (i - s.logOffset) = s.log.take (i - s.logOffset)) (n : ℕ) :
    Holds { s' with log := s'.log.take (i - s.logOffset + n) }
      (d.writeAll (d.truncateFrom (i + 1) ++
        ((s'.getEntriesFrom (i + 1)).take n).map .putEntry)) := by
  have hindexed : IndexedFrom s'.logOffset (s'.log.take (i - s.logOffset + n)) := hal'.take _
  have hkept : (s'.log.take (i - s.logOffset + n)).take (i - s.logOffset) =
      s.log.take (i - s.logOffset) := by
    rw [List.take_take, min_eq_left (Nat.le_add_right _ _), htake]
  have hentries : RaftState.getEntriesFrom
      { s' with log := s'.log.take (i - s.logOffset + n) } (i + 1) =
      (s'.getEntriesFrom (i + 1)).take n := by
    rw [hal'.getEntriesFrom_succ]
    refine (RaftState.Aligned.getEntriesFrom_succ
      (s := { s' with log := s'.log.take (i - s.logOffset + n) }) hindexed i).trans ?_
    change (s'.log.take _).drop (i - s'.logOffset) = _
    rw [hoff, List.drop_take, Nat.add_sub_cancel_left]
  have htracks : LogTracks s d { s' with log := s'.log.take (i - s.logOffset + n) }
      (d.writeAll (d.truncateFrom (i + 1) ++
        ((s'.getEntriesFrom (i + 1)).take n).map .putEntry)) :=
    hentries ▸ logTracks_rewrite d hoff hindexed hkept
  have hhead := (Disk.sameHead_deletes d (keysFrom d.log (i + 1))).trans
    (Disk.sameHead_puts _ ((s'.getEntriesFrom (i + 1)).take n))
  rw [← Disk.writeAll_append] at hhead
  refine ⟨⟨hhead.snapshot.trans (h.snapshot.trans hsnap.symm), fun j => ?_⟩, ?_⟩
  · change Finmap.lookup (s'.logOffset + 1 + j) _ = _
    rw [hoff]
    rcases htracks j with ⟨hdisk, hmem⟩ | heq
    · rw [hdisk, hmem, h.log]
    · exact heq
  · rw [show (d.writeAll (d.truncateFrom (i + 1) ++
        ((s'.getEntriesFrom (i + 1)).take n).map .putEntry)).logOffset = d.logOffset from
      hhead.logOffset, h.logOffset]
    exact hoff.symm

/-- Entries from an index below the offset on: those up to the offset are never read. -/
theorem Holds.rewrite_below (h : Holds s d) {i : ℕ} (hlt : i < s.logOffset)
    {entries : List LogEntry} (hentries : IndexedFrom i entries) :
    Holds { s with log := entries.drop (s.logOffset - i) }
      (d.writeAll (d.truncateFrom (i + 1) ++ entries.map .putEntry)) := by
  have hhead := (Disk.sameHead_deletes d (keysFrom d.log (i + 1))).trans
    (Disk.sameHead_puts _ entries)
  rw [← Disk.writeAll_append] at hhead
  refine ⟨⟨hhead.snapshot.trans h.snapshot, fun j => ?_⟩,
    (congrArg (Option.getD · 0) hhead.logOffset).trans h.logOffset⟩
  change (d.writeAll _).log.lookup (s.logOffset + 1 + j) = (entries.drop (s.logOffset - i))[j]?
  rw [Disk.writeAll_append, Disk.lookup_puts _ hentries, Disk.lookup_truncateFrom,
    List.getElem?_drop]
  split_ifs with hin hge
  · congr 1
    omega
  · exact (List.getElem?_eq_none (by omega)).symm
  · omega

/-- A request that starts below the offset replaces the whole log. -/
theorem appendEntriesWrites_below (d : Disk) {req : AppendEntriesRequest}
    (hwf : req.WellFormed lib) (hbelow : ¬ (Call.appendEntries req).StartsAboveOffset s) :
    req.prevLogIndex < s.logOffset ∧ s.cutFrom req = some (req.prevLogIndex + 1) ∧
      ∃ entries, IndexedFrom req.prevLogIndex entries ∧
        DurableOp.appendEntriesWrites lib s d req =
          (handleAppendEntries lib s req).1.saveHardState ++
            (d.truncateFrom (req.prevLogIndex + 1) ++ entries.map .putEntry) := by
  simp only [Call.StartsAboveOffset, Classical.not_imp, not_le] at hbelow
  obtain ⟨hne, hcur, hlt⟩ := hbelow
  have hcheck : s.checkPrevLog req.prevLogIndex req.prevLogTerm = .accept :=
    s.checkPrevLog_below hlt
  have hreply : (handleAppendEntries lib s req).2.success = true := by
    rw [handleAppendEntries_current hcur, hcheck]
    rfl
  have hlog : (handleAppendEntries lib s req).1.log = decodeEntries lib req.entries := by
    rw [handleAppendEntries_current hcur, hcheck]
    simp only [RaftState.updateCommitIndex_log, RaftState.appendNewEntries, if_neg hne,
      RaftState.truncateAndAppend, RaftState.follow_logOffset, if_pos (Nat.succ_le_of_lt hlt)]
  refine ⟨hlt, ?_, (handleAppendEntries lib s req).1.getEntriesFrom (req.prevLogIndex + 1), ?_, ?_⟩
  · rw [RaftState.cutFrom, if_pos hcur, hcheck]
    exact if_neg hne
  · rw [RaftState.getEntriesFrom, (handleAppendEntries_offset lib s req).1]
    simp only [Nat.succ_ne_zero, if_false,
      max_eq_right (by omega : req.prevLogIndex + 1 ≤ s.logOffset + 1), Nat.add_sub_cancel_left]
    split_ifs
    · exact .nil _
    · exact .nil _
    · rw [hlog]
      exact hwf.indexedFrom
  · simp only [DurableOp.appendEntriesWrites]
    rw [if_pos ⟨hreply, hne⟩]

/-- A cut outside the deletions leaves a first part of the hard state, or all of it and all of
the deletions. -/
theorem Holds.recoverable_rewrite (h : Holds s d) (hr : s.Recovered)
    (hoff : s'.logOffset = s.logOffset) {entries : List LogEntry} {i k : ℕ}
    (hcut : k ≤ 3 ∨ 3 + (keysFrom d.log (i + 1)).length ≤ k)
    (hrec : ∀ n, ((d.writeAll s'.saveHardState).writeAll
      (d.truncateFrom (i + 1) ++ (entries.take n).map .putEntry)).Recoverable) :
    (d.writeAll ((s'.saveHardState ++
      (d.truncateFrom (i + 1) ++ entries.map DiskWrite.putEntry)).take k)).Recoverable := by
  have hlength : s'.saveHardState.length = 3 := rfl
  rw [List.take_append, hlength, Disk.writeAll_append]
  rcases hcut with hle | hge
  · rw [Nat.sub_eq_zero_of_le hle, List.take_zero]
    exact ⟨s, h.hardState_take s' hoff k, hr⟩
  · have hdeleted : (d.truncateFrom (i + 1)).length ≤ k - 3 := by
      rw [Disk.truncateFrom, List.length_map]
      omega
    rw [List.take_of_length_le (by rw [hlength]; omega), List.take_append,
      List.take_of_length_le hdeleted, ← List.map_take]
    exact hrec _

/-- Outside the deletions, an `AppendEntries` request can be cut anywhere. -/
theorem Holds.recoverable_appendEntries (h : Holds s d) (hr : s.Recovered)
    {req : AppendEntriesRequest} (hwf : req.WellFormed lib) {k : ℕ}
    (hcut : (DurableOp.handleAppendEntries req).CutsSafely s d k) :
    (d.writeAll ((DurableOp.appendEntriesWrites lib s d req).take k)).Recoverable := by
  obtain ⟨hoff, hsnap⟩ := handleAppendEntries_offset lib s req
  have hhard : Holds s (d.writeAll (handleAppendEntries lib s req).1.saveHardState) :=
    h.hardState_take _ hoff 3
  by_cases hstart : (Call.appendEntries req).StartsAboveOffset s
  · have hal' := (RaftState.Aligned.handleAppendEntries hr.log hwf).mpr hstart
    rcases appendEntriesWrites_cases d hr.log hal' with ⟨-, -, heq⟩ | ⟨i, hfrom, htake, heq⟩
    · rw [heq]
      exact ⟨s, h.hardState_take _ hoff k, hr⟩
    · rw [heq]
      refine h.recoverable_rewrite hr hoff (hcut _ hfrom) fun n => ?_
      refine ⟨_, hhard.rewrite_take hoff hsnap hal' htake n, ⟨hal'.take _, ?_⟩⟩
      change 0 < (handleAppendEntries lib s req).1.logOffset →
        ∃ snapshot ∈ (handleAppendEntries lib s req).1.snapshot,
          (handleAppendEntries lib s req).1.logOffset ≤ _
      rw [hsnap, hoff]
      exact hr.snapshot
  · obtain ⟨hlt, hfrom, entries, hentries, heq⟩ := appendEntriesWrites_below d hwf hstart
    rw [heq]
    refine h.recoverable_rewrite hr hoff (hcut _ hfrom) fun n => ?_
    refine ⟨_, hhard.rewrite_below hlt (hentries.take n), ⟨?_, hr.snapshot⟩⟩
    have hdrop := (hentries.take n).drop (s.logOffset - req.prevLogIndex)
    rwa [Nat.add_sub_cancel' hlt.le] at hdrop

theorem Holds.recoverable_saveSame (h : Holds s d) (hr : s.Recovered)
    (hoff : s'.logOffset = s.logOffset) (hsnap : s'.snapshot = s.snapshot) (d₀ : Disk) (k : ℕ) :
    (d.writeAll ((s'.saveSnapshot d₀).take k)).Recoverable := by
  cases k with
  | zero => exact ⟨s, h, hr⟩
  | succ k =>
    rw [RaftState.saveSnapshot, hsnap, hoff]
    cases hsome : s.snapshot with
    | none => exact ⟨s, h, hr⟩
    | some snapshot =>
      refine h.recoverable_saveSnapshot hr.log d₀ le_rfl ?_ k
      rcases Nat.eq_zero_or_pos s.logOffset with hzero | hpos
      · omega
      · obtain ⟨snapshot', hmem, hle⟩ := hr.snapshot hpos
        rw [hsome] at hmem
        exact Option.some.inj hmem ▸ hle

theorem Holds.recoverable_installSnapshot (h : Holds s d) (hr : s.Recovered)
    {req : InstallSnapshotRequest} {k : ℕ}
    (hcut : (DurableOp.handleInstallSnapshot req).CutsSafely s d k) :
    (d.writeAll ((DurableOp.installSnapshotWrites lib s d req).take k)).Recoverable := by
  have hlength : (handleInstallSnapshot lib s req).1.saveHardState.length = 3 := rfl
  rw [DurableOp.installSnapshotWrites, List.take_append, hlength, Disk.writeAll_append]
  rcases handleInstallSnapshot_outcome lib hr.log req with
    ⟨hoff, -, hsnap⟩ | ⟨hinst, hoff, -, hsnap⟩
  · have hhard := h.hardState_take _ hoff k
    split_ifs
    · exact hhard.recoverable_saveSame hr hoff hsnap d _
    · rw [List.take_nil]
      exact ⟨s, hhard, hr⟩
  · rw [if_pos hoff.ge]
    rcases lt_or_ge k 3 with hlt | hge
    · rw [Nat.sub_eq_zero_of_le hlt.le, List.take_zero]
      refine ⟨s, ?_, hr⟩
      rcases k with _ | _ | _ | k
      · exact h
      · exact ⟨⟨h.snapshot, h.log⟩, h.logOffset⟩
      · exact ⟨⟨h.snapshot, h.log⟩, h.logOffset⟩
      · omega
    · -- The offset is the new one and the snapshot still the old one.
      have hlog := hr.log.drop (req.lastIncludedIndex - s.logOffset)
      rw [Nat.add_sub_cancel' hinst.2.le] at hlog
      have hhard : Holds { s with
            log := s.log.drop (req.lastIncludedIndex - s.logOffset)
            logOffset := req.lastIncludedIndex }
          (d.writeAll (handleInstallSnapshot lib s req).1.saveHardState) := by
        refine ⟨⟨h.snapshot, fun j => ?_⟩, hoff⟩
        change d.log.lookup (req.lastIncludedIndex + 1 + j) =
          (s.log.drop (req.lastIncludedIndex - s.logOffset))[j]?
        rw [List.getElem?_drop, ← h.log]
        have := hinst.2
        congr 1
        omega
      rw [List.take_of_length_le (hlength ▸ hge)]
      obtain ⟨m, rfl⟩ := Nat.exists_eq_add_of_le' hge
      rw [Nat.add_sub_cancel]
      cases m with
      | zero => exact ⟨_, hhard, hlog, fun _ => hcut hinst rfl⟩
      | succ m =>
        rw [RaftState.saveSnapshot, hsnap, hoff]
        exact hhard.recoverable_saveSnapshot hlog d le_rfl le_rfl m

theorem Holds.recoverable_compactLog (h : Holds s d) (hr : s.Recovered) (snapshot : Snapshot)
    (k : ℕ) :
    (d.writeAll (((s.compactLog snapshot).saveSnapshot d).take k)).Recoverable := by
  rcases le_or_gt snapshot.lastIncludedIndex s.logOffset with hle | hgt
  · have hsame : s.compactLog snapshot = s := if_pos hle
    rw [hsame]
    exact h.recoverable_saveSame hr rfl rfl d k
  · have hnew : (s.compactLog snapshot).saveSnapshot d =
        d.saveSnapshot snapshot snapshot.lastIncludedIndex := by
      rw [RaftState.compactLog, if_neg (not_le.mpr hgt)]
      rfl
    rw [hnew]
    cases k with
    | zero => exact ⟨s, h, hr⟩
    | succ k => exact h.recoverable_saveSnapshot hr.log d hgt.le le_rfl k

end Cuts

/-! ### Operations and crashes -/

namespace RaftState.Recovered

variable {lib : WireLib} {s s' : RaftState}

theorem of_eq (h : s.Recovered) (hoff : s'.logOffset = s.logOffset) (hlog : s'.log = s.log)
    (hsnap : s'.snapshot = s.snapshot) : s'.Recovered :=
  ⟨by rw [hoff, hlog]; exact h.log, by rw [hoff, hsnap]; exact h.snapshot⟩

theorem compactLog (h : s.Recovered) (snapshot : Snapshot) :
    (s.compactLog snapshot).Recovered := by
  refine ⟨Aligned.compactLog h.log snapshot, ?_⟩
  rw [RaftState.compactLog]
  split_ifs
  · exact h.snapshot
  · exact fun _ => ⟨_, rfl, le_rfl⟩

theorem exec (h : s.Recovered) {op : DurableOp} (hkeep : op.KeepsAligned lib s) :
    (op.exec lib s).Recovered := by
  cases op.recipe lib s .empty with
  | hardState hoff hlog hsnap => exact h.of_eq hoff hlog hsnap
  | volatile hsame =>
    obtain ⟨-, -, hoff, hsnap, hlog⟩ := PersistedState.mk.inj hsame
    exact h.of_eq hoff hlog hsnap
  | appendEntries req hop =>
    subst hop
    obtain ⟨hoff, hsnap⟩ := handleAppendEntries_offset lib s req
    refine ⟨(Aligned.handleAppendEntries h.log hkeep.1).mpr hkeep.2, ?_⟩
    rw [DurableOp.exec, hoff, hsnap]
    exact h.snapshot
  | installSnapshot req hop =>
    subst hop
    refine ⟨Aligned.handleInstallSnapshot h.log req, ?_⟩
    rw [DurableOp.exec]
    rcases handleInstallSnapshot_outcome lib h.log req with ⟨hoff, -, hsnap⟩ | ⟨-, hoff, -, hsnap⟩
    · rw [hoff, hsnap]
      exact h.snapshot
    · rw [hoff, hsnap]
      exact fun _ => ⟨_, rfl, le_rfl⟩
  | appendCommand command hop hrole =>
    subst hop
    rw [DurableOp.exec, if_pos hrole]
    exact ⟨Aligned.appendEntry h.log command, h.snapshot⟩
  | compaction lastApplied lastAppliedTerm jobs workers hop =>
    subst hop
    exact h.compactLog _

end RaftState.Recovered

namespace DurableNode

variable {lib : WireLib} {nd nd' : DurableNode}

theorem Kept.recoverable_crash (h : nd.Kept) (hr : nd.state.Recovered) {op : DurableOp} {k : ℕ}
    (hen : op.Enabled nd.state) (hwf : op.WellFormed lib)
    (hcut : op.CutsSafely nd.state nd.disk k) :
    (nd.disk.writeAll ((op.writes lib nd.state nd.disk).take k)).Recoverable := by
  have hd := h.holds
  cases op.recipe lib nd.state nd.disk with
  | hardState hoff hlog hsnap hsaves hwrites =>
    rw [hwrites]
    exact ⟨nd.state, hd.hardState_take _ hoff k, hr⟩
  | volatile hsame hsaves hwrites =>
    rw [hwrites, List.take_nil]
    exact ⟨nd.state, hd, hr⟩
  | appendEntries req hop =>
    subst hop
    exact hd.recoverable_appendEntries hr hwf hcut
  | installSnapshot req hop =>
    subst hop
    exact hd.recoverable_installSnapshot hr hcut
  | appendCommand command hop hrole =>
    subst hop
    cases k with
    | zero => exact ⟨nd.state, hd, hr⟩
    | succ k =>
      -- There is one write, so the operation is complete.
      have hr' : ((DurableOp.handleAppendCommand command).exec lib nd.state).Recovered :=
        hr.exec trivial
      have hkept : Kept ⟨(DurableOp.handleAppendCommand command).exec lib nd.state,
          nd.disk.writeAll ((DurableOp.handleAppendCommand command).writes lib nd.state nd.disk)⟩ :=
        h.step hr.log (if_pos hen) hr'.log
      have hall : (DurableOp.handleAppendCommand command).writes lib nd.state nd.disk =
          ((DurableOp.handleAppendCommand command).writes lib nd.state nd.disk).take (k + 1) := by
        refine (List.take_of_length_le ?_).symm
        rw [DurableOp.writes, if_pos hrole]
        exact Nat.le_add_left 1 k
      rw [← hall]
      exact ⟨_, hkept.holds, hr'⟩
  | compaction lastApplied lastAppliedTerm jobs workers hop =>
    subst hop
    exact hd.recoverable_compactLog hr _ k

theorem kept_crashStep (h : nd.Kept ∧ nd.state.Recovered) {action : CrashAction}
    (hsafe : action.Safe lib nd) (hs : nd.crashStep lib action = some nd') :
    nd'.Kept ∧ nd'.state.Recovered := by
  cases action with
  | run op =>
    have hr' := h.2.exec hsafe.2
    obtain ⟨-, rfl⟩ := eq_of_step hs
    exact ⟨h.1.step h.2.log hs hr'.log, hr'⟩
  | crash op writes =>
    rw [crashStep] at hs
    split_ifs at hs with hen
    obtain rfl := Option.some.inj hs
    exact kept_restart (begun_crash h.1 hen writes)
      (h.1.recoverable_crash h.2 hen hsafe.2.1 hsafe.2.2)

theorem kept_of_safe
    (h : Runs.Reach (crashStep lib) (fun nd action => action.Safe lib nd) start nd) :
    nd.Kept ∧ nd.state.Recovered :=
  h.invariant ⟨.inl fresh_new, RaftState.recovered_new⟩ fun hi hsafe hs =>
    kept_crashStep hi hsafe hs

/-- In every run of operations and crashes in which no crash falls inside the deletions of a
truncation or before the snapshot of an installation, every state has a log without gaps from
the offset on and a snapshot up to the offset. -/
theorem recovered_after_safe_crashes (lib : WireLib)
    (h : Runs.Reach (crashStep lib) (fun nd action => action.Safe lib nd) start nd) :
    nd.state.Recovered :=
  (kept_of_safe h).2

def threeEntries : AppendEntriesRequest :=
  ⟨1, 2, 0, 0, [⟨1, 1, none⟩, ⟨1, 2, none⟩, ⟨1, 3, none⟩], 0⟩

def replaceSecond : AppendEntriesRequest := ⟨2, 3, 1, 1, [⟨2, 2, none⟩], 0⟩

/-- The process stops when a compaction has written the snapshot and not yet the offset, and again
after both deletions of a replacement and before the new entry is written. -/
def stoppedTwice : List CrashAction :=
  [.run (.handleAppendEntries threeEntries), .run (.handleAppendEntries ⟨1, 2, 0, 0, [], 1⟩),
    .run .getCommittedEntries, .crash (.maybeCompactLog 1 1 [] []) 1,
    .crash (.handleAppendEntries replaceSecond) 5]

theorem recovered_after_deletions :
    ∃ nd, Runs.Reach (crashStep .standard) (fun nd action => action.Safe .standard nd) start nd ∧
      nd.state.currentTerm = 2 ∧ nd.state.log = [⟨1, 1, .noop⟩] ∧
      nd.state.snapshot = some ⟨1, 1, [], []⟩ ∧ nd.state.Recovered := by
  obtain ⟨nd, hreach, hterm, hlog, hsnap⟩ := Runs.exists_reach_of_guardedRun (crashStep .standard)
    (fun nd action => action.Safe .standard nd)
    (fun nd => nd.state.currentTerm = 2 ∧ nd.state.log = [⟨1, 1, .noop⟩] ∧
      nd.state.snapshot = some ⟨1, 1, [], []⟩) start stoppedTwice (by decide +kernel)
  exact ⟨nd, hreach, hterm, hlog, hsnap, recovered_after_safe_crashes .standard hreach⟩

/-- A crash after the first of two deletions leaves a gap, and one between the hard state and
the snapshot leaves an offset without a snapshot. -/
theorem crash_leaves_gap_or_bare_offset :
    (¬ ∀ (lib : WireLib) (nd : DurableNode),
      Runs.Reach (crashStep lib) (fun nd action => action.KeepsAligned lib nd) start nd →
        IndexedFrom nd.state.logOffset nd.state.log) ∧
    ¬ ∀ (lib : WireLib) (nd : DurableNode),
      Runs.Reach (crashStep lib) (fun nd action => action.KeepsAligned lib nd) start nd →
        0 < nd.state.logOffset →
          ∃ snapshot ∈ nd.state.snapshot, nd.state.logOffset ≤ snapshot.lastIncludedIndex := by
  constructor
  · intro hall
    obtain ⟨nd, hreach, hoff, hlog⟩ := Runs.exists_reach_of_guardedRun (crashStep .standard)
      (fun nd action => action.KeepsAligned .standard nd)
      (fun nd => nd.state.logOffset = 0 ∧ nd.state.log = [⟨1, 1, .noop⟩, ⟨1, 3, .noop⟩]) start
      [.run (.handleAppendEntries threeEntries), .crash (.handleAppendEntries replaceSecond) 4]
      (by decide +kernel)
    have hindexed := hall .standard nd hreach
    rw [hoff, hlog] at hindexed
    exact absurd (hindexed 1 ⟨1, 3, .noop⟩ rfl) (by decide)
  · intro hall
    obtain ⟨nd, hreach, hoff, hnone⟩ := Runs.exists_reach_of_guardedRun (crashStep .standard)
      (fun nd action => action.KeepsAligned .standard nd)
      (fun nd => nd.state.logOffset = 5 ∧ nd.state.snapshot = none) start
      [.crash (.handleInstallSnapshot ⟨1, 2, 5, 1, [], []⟩) 3] (by decide +kernel)
    obtain ⟨snapshot, hmem, -⟩ := hall .standard nd hreach (by omega)
    rw [hnone] at hmem
    cases hmem

end DurableNode
end NomadLite
