import NomadLite.CrashRecovery
import NomadLite.IndexArithmetic

/-!
# Entries across restarts

Only a truncation and a compaction remove entries from the disk. A truncation deletes
the keys from its index on, a compaction deletes keys up to an offset that it has
written before. So an entry outlives every operation and every crash until a request
cuts the log at its index or below, or a snapshot covers it.
-/

namespace NomadLite

open OrderedScan

/-- An `AppendEntries` request cuts the log above the index, if at all. -/
def DurableOp.Spares (i : ℕ) (s : RaftState) : DurableOp → Prop
  | .handleAppendEntries req => ∀ c ∈ s.cutFrom req, i < c
  | _ => True

instance (i : ℕ) (s : RaftState) : (op : DurableOp) → Decidable (op.Spares i s)
  | .handleAppendEntries _ => inferInstanceAs (Decidable (∀ c ∈ _, _))
  | .handleVoteRequest _ | .handleInstallSnapshot _ | .handleAppendCommand _ | .startElection _
  | .finishElection .. | .stepDown _ | .handleAppendReply .. | .handleSnapshotReply ..
  | .getCommittedEntries | .maybeCompactLog .. => isTrue trivial

def CrashAction.Spares (i : ℕ) (nd : DurableNode) : CrashAction → Prop
  | .run op | .crash op _ => op.Spares i nd.state

instance (i : ℕ) (nd : DurableNode) : (action : CrashAction) → Decidable (action.Spares i nd)
  | .run op | .crash op _ => inferInstanceAs (Decidable (op.Spares i nd.state))

/-! ### Writes that leave an index alone -/

namespace DiskWrite

def OffsetFrom (base : ℕ) : DiskWrite → Prop
  | putLogOffset logOffset => base ≤ logOffset
  | _ => True

end DiskWrite

namespace Disk

variable {d : Disk} {i : ℕ}

theorem lookup_writeAll {ws : List DiskWrite} (h : ∀ w ∈ ws, w.touches i = false) :
    (d.writeAll ws).log.lookup i = d.log.lookup i := by
  induction ws generalizing d with
  | nil => rfl
  | cons w ws ih =>
    have hfirst : (d.write w).log.lookup i = d.log.lookup i := by
      have hw := h w (List.mem_cons_self ..)
      cases w with
      | putEntry e => exact Finmap.lookup_insert_of_ne _ (Ne.symm (of_decide_eq_false hw))
      | deleteEntry j => exact Finmap.lookup_erase_ne (Ne.symm (of_decide_eq_false hw))
      | _ => rfl
    rw [writeAll_cons, ih fun w' hw' => h w' (List.mem_cons_of_mem _ hw'), hfirst]

theorem logOffset_writeAll {base : ℕ} {ws : List DiskWrite} (hd : base ≤ d.logOffset.getD 0)
    (h : ∀ w ∈ ws, w.OffsetFrom base) : base ≤ (d.writeAll ws).logOffset.getD 0 := by
  induction ws generalizing d with
  | nil => exact hd
  | cons w ws ih =>
    have hfirst : base ≤ (d.write w).logOffset.getD 0 := by
      have hw := h w (List.mem_cons_self ..)
      cases w with
      | putLogOffset logOffset => exact hw
      | _ => exact hd
    exact ih hfirst fun w' hw' => h w' (List.mem_cons_of_mem _ hw')

def Stores (d : Disk) (i : ℕ) (e : LogEntry) : Prop :=
  d.log.lookup i = some e ∨ i ≤ d.logOffset.getD 0

end Disk

/-- Writes of which the first part leaves the index alone. The rest are deletions, none of them at
the index, or the offset has passed it by then. -/
def Sparing (i base : ℕ) (d : Disk) (ws : List DiskWrite) : Prop :=
  ∃ (front : List DiskWrite) (indices : List ℕ), ws = front ++ indices.map .deleteEntry ∧
    (∀ w ∈ front, w.touches i = false ∧ w.OffsetFrom base) ∧
    (i ∉ indices ∨ i ≤ (d.writeAll front).logOffset.getD 0)

namespace Sparing

variable {i base : ℕ} {d : Disk} {ws : List DiskWrite}

theorem of_untouched (h : ∀ w ∈ ws, w.touches i = false ∧ w.OffsetFrom base) :
    Sparing i base d ws :=
  ⟨ws, [], (List.append_nil ws).symm, h, .inl List.not_mem_nil⟩

theorem nil : Sparing i base d [] := .of_untouched fun w hw => by cases hw

/-- Wherever the writes are cut, the offset does not go back and the entry stays. -/
theorem stores_take {e : LogEntry} (h : Sparing i base d ws) (hbase : d.logOffset.getD 0 = base)
    (hd : d.Stores i e) (k : ℕ) : (d.writeAll (ws.take k)).Stores i e := by
  obtain ⟨front, indices, rfl, hfront, hback⟩ := h
  rcases hd with hlook | hle
  · rw [List.take_append]
    rcases hback with hback | hpassed
    · left
      rw [Disk.lookup_writeAll, hlook]
      intro w hw
      rcases List.mem_append.mp hw with hw | hw
      · exact (hfront w (List.mem_of_mem_take hw)).1
      · obtain ⟨j, hj, rfl⟩ := List.mem_map.mp (List.mem_of_mem_take hw)
        exact decide_eq_false fun heq => hback (heq ▸ hj)
    · rcases le_or_gt k front.length with hk | hk
      · left
        rw [Nat.sub_eq_zero_of_le hk, List.take_zero, List.append_nil, Disk.lookup_writeAll, hlook]
        exact fun w hw => (hfront w (List.mem_of_mem_take hw)).1
      · right
        have hhead := Disk.sameHead_deletes (d.writeAll front) (indices.take (k - front.length))
        rw [List.take_of_length_le hk.le, Disk.writeAll_append, ← List.map_take, hhead.logOffset]
        exact hpassed
  · refine .inr ((hbase ▸ hle).trans (Disk.logOffset_writeAll hbase.ge fun w hw => ?_))
    rcases List.mem_append.mp (List.mem_of_mem_take hw) with hw | hw
    · exact (hfront w hw).2
    · obtain ⟨j, -, rfl⟩ := List.mem_map.mp hw
      trivial

end Sparing

/-! ### The writes of an operation -/

section Writes

variable {lib : WireLib} {s : RaftState} {d : Disk} {i : ℕ}

theorem untouched_saveHardState {base : ℕ} (h : base ≤ s.logOffset) :
    ∀ w ∈ s.saveHardState, w.touches i = false ∧ w.OffsetFrom base := by
  intro w hw
  simp only [RaftState.saveHardState, Disk.saveHardState, List.mem_cons, List.not_mem_nil,
    or_false] at hw
  rcases hw with rfl | rfl | rfl
  · exact ⟨rfl, trivial⟩
  · exact ⟨rfl, trivial⟩
  · exact ⟨rfl, h⟩

theorem sparing_saveHardState {base : ℕ} (h : base ≤ s.logOffset) :
    Sparing i base d s.saveHardState :=
  .of_untouched (untouched_saveHardState h)

/-- The keys that are deleted with a snapshot are not above the offset written before. -/
theorem sparing_saveSnapshot (front : List DiskWrite) {base : ℕ} (d : Disk)
    (hfront : ∀ w ∈ front, w.touches i = false ∧ w.OffsetFrom base) (h : base ≤ s.logOffset) :
    Sparing i base d (front ++ s.saveSnapshot d) := by
  cases hsnap : s.snapshot with
  | none =>
    rw [RaftState.saveSnapshot, hsnap, List.append_nil]
    exact .of_untouched hfront
  | some snapshot =>
    obtain ⟨indices, hindices, heq⟩ : ∃ indices : List ℕ, (∀ j ∈ indices, j ≤ s.logOffset) ∧
        s.saveSnapshot d =
          [.putSnapshot snapshot, .putLogOffset s.logOffset] ++ indices.map .deleteEntry := by
      rw [RaftState.saveSnapshot, hsnap]
      simp only [Disk.saveSnapshot]
      split_ifs
      · refine ⟨(keysFrom d.log 1).takeWhile (· < s.logOffset + 1), fun j hj => ?_, rfl⟩
        have hlt := List.all_eq_true.mp List.all_takeWhile j hj
        exact Nat.lt_succ_iff.mp (of_decide_eq_true hlt)
      · exact ⟨[], fun j hj => absurd hj List.not_mem_nil, rfl⟩
    refine ⟨front ++ [.putSnapshot snapshot, .putLogOffset s.logOffset], indices,
      by rw [heq, List.append_assoc], fun w hw => ?_, ?_⟩
    · rcases List.mem_append.mp hw with hw | hw
      · exact hfront w hw
      · simp only [List.mem_cons, List.not_mem_nil, or_false] at hw
        rcases hw with rfl | rfl
        · exact ⟨rfl, trivial⟩
        · exact ⟨rfl, h⟩
    · rcases le_or_gt i s.logOffset with hle | hgt
      · right
        rw [Disk.writeAll_append]
        exact hle
      · exact .inl fun hmem => absurd (hindices i hmem) (not_le.mpr hgt)

theorem sparing_rewrite {front : List DiskWrite} {base c : ℕ} {entries : List LogEntry}
    (hfront : ∀ w ∈ front, w.touches i = false ∧ w.OffsetFrom base) (hc : i < c)
    (hentries : ∀ e ∈ entries, c ≤ e.index) :
    Sparing i base d (front ++ (d.truncateFrom c ++ entries.map .putEntry)) := by
  refine .of_untouched fun w hw => ?_
  rcases List.mem_append.mp hw with hw | hw
  · exact hfront w hw
  · rcases List.mem_append.mp hw with hw | hw
    · obtain ⟨j, hj, rfl⟩ := List.mem_map.mp hw
      exact ⟨decide_eq_false (hc.trans_le ((mem_keysFrom ..).mp hj).1).ne', trivial⟩
    · obtain ⟨e, he, rfl⟩ := List.mem_map.mp hw
      exact ⟨decide_eq_false (hc.trans_le (hentries e he)).ne', trivial⟩

theorem sparing_appendEntries (hal : s.Aligned) {req : AppendEntriesRequest}
    (hwf : req.WellFormed lib) (hspares : (DurableOp.handleAppendEntries req).Spares i s) :
    Sparing i s.logOffset d (DurableOp.appendEntriesWrites lib s d req) := by
  have hoff := (handleAppendEntries_offset lib s req).1
  have hfront : ∀ w ∈ (handleAppendEntries lib s req).1.saveHardState,
      w.touches i = false ∧ w.OffsetFrom s.logOffset := untouched_saveHardState hoff.ge
  by_cases hstart : (Call.appendEntries req).StartsAboveOffset s
  · have hal' := (RaftState.Aligned.handleAppendEntries hal hwf).mpr hstart
    rcases appendEntriesWrites_cases d hal hal' with ⟨-, -, heq⟩ | ⟨c, hcut, -, heq⟩
    · rw [heq]
      exact sparing_saveHardState hoff.ge
    · rw [heq]
      refine sparing_rewrite hfront (hspares _ hcut) fun e he => ?_
      rw [hal'.getEntriesFrom_eq_filter] at he
      exact of_decide_eq_true (List.mem_filter.mp he).2
  · obtain ⟨-, hcut, entries, hentries, heq⟩ := appendEntriesWrites_below d hwf hstart
    rw [heq]
    exact sparing_rewrite hfront (hspares _ hcut) hentries.le_index

theorem RaftState.logOffset_le_compactLog (s : RaftState) (snapshot : Snapshot) :
    s.logOffset ≤ (s.compactLog snapshot).logOffset := by
  rw [compactLog]
  split_ifs with hle
  · exact le_rfl
  · exact (not_le.mp hle).le

theorem DurableOp.sparing_writes (hr : s.Recovered) {op : DurableOp} (hwf : op.WellFormed lib)
    (hspares : op.Spares i s) (hi : i ≤ s.lastLogIndex) :
    Sparing i s.logOffset d (op.writes lib s d) := by
  cases op.recipe lib s d with
  | hardState hoff _ _ _ hwrites =>
    rw [hwrites]
    exact sparing_saveHardState hoff.ge
  | volatile _ _ hwrites =>
    rw [hwrites]
    exact .nil
  | appendEntries req hop =>
    subst hop
    exact sparing_appendEntries hr.log hwf hspares
  | installSnapshot req hop =>
    subst hop
    have hle : s.logOffset ≤ (NomadLite.handleInstallSnapshot lib s req).1.logOffset := by
      rcases handleInstallSnapshot_outcome lib hr.log req with ⟨hoff, -⟩ | ⟨hinst, hoff, -⟩
      · exact hoff.ge
      · exact hinst.2.le.trans hoff.ge
    rw [writes, installSnapshotWrites]
    split_ifs
    · exact sparing_saveSnapshot _ d (untouched_saveHardState hle) hle
    · rw [List.append_nil]
      exact sparing_saveHardState hle
  | appendCommand command hop hrole =>
    subst hop
    rw [writes, if_pos hrole]
    refine .of_untouched fun w hw => ?_
    obtain rfl := List.mem_singleton.mp hw
    exact ⟨decide_eq_false (Nat.lt_succ_of_le hi).ne', trivial⟩
  | compaction lastApplied lastAppliedTerm jobs workers hop =>
    subst hop
    exact sparing_saveSnapshot [] d (fun w hw => by cases hw) (s.logOffset_le_compactLog _)

end Writes

/-! ### Runs with crashes -/

namespace DurableNode

variable {lib : WireLib} {nd nd' : DurableNode} {i : ℕ} {e : LogEntry}

/-- Above the offset, the disk and the log in memory answer alike. -/
theorem Kept.getEntry_eq_lookup (h : nd.Kept) (hlt : nd.state.logOffset < i) :
    nd.state.getEntry i = nd.disk.log.lookup i := by
  rw [RaftState.getEntry, if_neg (by omega), ← h.holds.log]
  congr 1
  omega

theorem Kept.stores_iff (h : nd.Kept) :
    nd.disk.Stores i e ↔ nd.state.getEntry i = some e ∨ i ≤ nd.state.logOffset := by
  rw [Disk.Stores, h.holds.logOffset]
  rcases le_or_gt i nd.state.logOffset with hle | hgt
  · exact iff_of_true (.inr hle) (.inr hle)
  · rw [h.getEntry_eq_lookup hgt]

theorem le_lastLogIndex_of_stores (h : nd.Kept ∧ nd.state.Recovered) (hd : nd.disk.Stores i e) :
    i ≤ nd.state.lastLogIndex := by
  rw [RaftState.Aligned.lastLogIndex h.2.log]
  rcases h.1.stores_iff.mp hd with he | hle
  · rw [RaftState.getEntry] at he
    split_ifs at he with hgt
    have := (List.getElem?_eq_some_iff.mp he).1
    omega
  · omega

theorem wellFormed_of_keepsAligned {op : DurableOp} (h : op.KeepsAligned lib nd.state) :
    op.WellFormed lib := by
  cases op with
  | handleAppendEntries req => exact h.1
  | _ => trivial

/-- A completed operation is one that is cut after its last write. -/
theorem stores_crashStep (h : nd.Kept ∧ nd.state.Recovered) {action : CrashAction}
    (hsafe : action.Safe lib nd) (hspares : action.Spares i nd) (hd : nd.disk.Stores i e)
    (hs : nd.crashStep lib action = some nd') : nd'.disk.Stores i e := by
  have hi := le_lastLogIndex_of_stores h hd
  cases action with
  | run op =>
    obtain ⟨-, rfl⟩ := eq_of_step hs
    have hsparing : Sparing i nd.state.logOffset nd.disk (op.writes lib nd.state nd.disk) :=
      op.sparing_writes h.2 (wellFormed_of_keepsAligned hsafe.2) hspares hi
    have hstores := hsparing.stores_take h.1.holds.logOffset hd
      (op.writes lib nd.state nd.disk).length
    rwa [List.take_length] at hstores
  | crash op writes =>
    rw [crashStep] at hs
    split_ifs at hs
    obtain rfl := Option.some.inj hs
    exact (op.sparing_writes h.2 hsafe.2.1 hspares hi).stores_take h.1.holds.logOffset hd writes

/-- An entry of a node is there after any further operations, crashes and restarts that do not cut
the log at its index or below, or a snapshot covers it. -/
theorem entry_survives_crashes (lib : WireLib)
    (h : Runs.Reach (crashStep lib) (fun nd action => action.Safe lib nd) start nd)
    (he : nd.state.getEntry i = some e)
    (h' : Runs.Reach (crashStep lib)
      (fun nd action => action.Safe lib nd ∧ action.Spares i nd) nd nd') :
    nd'.state.getEntry i = some e ∨
      (i ≤ nd'.state.logOffset ∧ ∃ snapshot ∈ nd'.state.snapshot,
        i ≤ snapshot.lastIncludedIndex) := by
  have hkept := kept_of_safe h
  have hstores : nd.disk.Stores i e := hkept.1.stores_iff.mpr (.inl he)
  obtain ⟨hkept', hstores'⟩ : (nd'.Kept ∧ nd'.state.Recovered) ∧ nd'.disk.Stores i e :=
    h'.invariant (P := fun nd => (nd.Kept ∧ nd.state.Recovered) ∧ nd.disk.Stores i e)
      ⟨hkept, hstores⟩ fun hi hq hs =>
        ⟨kept_crashStep hi.1 hq.1 hs, stores_crashStep hi.1 hq.1 hq.2 hi.2 hs⟩
  rcases hkept'.1.stores_iff.mp hstores' with hget | hle
  · exact .inl hget
  · rcases Nat.eq_zero_or_pos i with rfl | hpos
    · rw [RaftState.getEntry, if_pos (.inl rfl)] at he
      cases he
    · obtain ⟨snapshot, hmem, hcover⟩ := hkept'.2.snapshot (hpos.trans_le hle)
      exact .inr ⟨hle, snapshot, hmem, hle.trans hcover⟩

/-- The process stops when the third of three entries has been deleted to be replaced. -/
theorem second_entry_survives_replacement :
    ∃ nd nd',
      Runs.Reach (crashStep .standard) (fun nd action => action.Safe .standard nd) start nd ∧
      nd.state.getEntry 2 = some ⟨1, 2, .noop⟩ ∧
      Runs.Reach (crashStep .standard)
        (fun nd action => action.Safe .standard nd ∧ action.Spares 2 nd) nd nd' ∧
      nd'.state.lastLogIndex = 2 ∧ nd'.state.getEntry 2 = some ⟨1, 2, .noop⟩ := by
  obtain ⟨nd, hreach, hget, hrun⟩ := Runs.exists_reach_of_guardedRun (crashStep .standard)
    (fun nd action => action.Safe .standard nd)
    (fun nd => nd.state.getEntry 2 = some ⟨1, 2, .noop⟩ ∧
      (Runs.guardedRun (crashStep .standard)
        (fun nd action => action.Safe .standard nd ∧ action.Spares 2 nd) nd
        [.crash (.handleAppendEntries ⟨2, 3, 2, 1, [⟨2, 3, none⟩], 0⟩) 4]).any
          (fun nd => decide (nd.state.lastLogIndex = 2 ∧ nd.state.logOffset = 0)) = true) start
    [.run (.handleAppendEntries threeEntries)] (by decide +kernel)
  obtain ⟨nd', hreach', hlast, hoff⟩ := Runs.exists_reach_of_guardedRun (crashStep .standard)
    (fun nd action => action.Safe .standard nd ∧ action.Spares 2 nd)
    (fun nd => nd.state.lastLogIndex = 2 ∧ nd.state.logOffset = 0) nd _ hrun
  refine ⟨nd, nd', hreach, hget, hreach', hlast, ?_⟩
  rcases entry_survives_crashes .standard hreach hget hreach' with hget' | ⟨hle, -⟩
  · exact hget'
  · omega

end DurableNode
end NomadLite
