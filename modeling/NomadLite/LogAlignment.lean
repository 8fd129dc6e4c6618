import NomadLite.ReleaseCalls
import NomadLite.StandardWire

/-!
# The index stored in an entry and its position in the log

Positions are computed from indices by subtracting `log_offset`, so every accessor
relies on `log[j].index = log_offset + 1 + j`. An accepted `AppendEntries` request
that starts below `log_offset` replaces the whole log by entries that begin too low;
every other call keeps the log aligned.
-/

namespace NomadLite

/-- The entry at position `j` carries index `base + 1 + j`. -/
def IndexedFrom (base : ℕ) (log : List LogEntry) : Prop :=
  ∀ j e, log[j]? = some e → e.index = base + 1 + j

namespace IndexedFrom

variable {base : ℕ} {log log' : List LogEntry}

theorem nil (base : ℕ) : IndexedFrom base [] := by
  intro j e h
  rw [List.getElem?_nil] at h
  cases h

theorem take (h : IndexedFrom base log) (n : ℕ) : IndexedFrom base (log.take n) := by
  intro j e hj
  rw [List.getElem?_take] at hj
  split_ifs at hj
  exact h j e hj

theorem drop (h : IndexedFrom base log) (n : ℕ) : IndexedFrom (base + n) (log.drop n) := by
  intro j e hj
  rw [List.getElem?_drop] at hj
  have := h (n + j) e hj
  omega

theorem append (h : IndexedFrom base log) (h' : IndexedFrom (base + log.length) log') :
    IndexedFrom base (log ++ log') := by
  intro j e hj
  rcases lt_or_ge j log.length with hlt | hge
  · exact h j e (by rwa [List.getElem?_append_left hlt] at hj)
  · rw [List.getElem?_append_right hge] at hj
    have := h' _ e hj
    omega

theorem le_index (h : IndexedFrom base log) : ∀ e ∈ log, base + 1 ≤ e.index := by
  intro e he
  obtain ⟨j, hj⟩ := List.mem_iff_getElem?.mp he
  have := h j e hj
  omega

theorem iff_map_index :
    IndexedFrom base log ↔ log.map LogEntry.index = List.range' (base + 1) log.length := by
  constructor
  · intro h
    refine List.ext_getElem? fun j => ?_
    rw [List.getElem?_map]
    cases hj : log[j]? with
    | none =>
      rw [List.getElem?_eq_none (by rw [List.length_range']; exact List.getElem?_eq_none_iff.mp hj)]
      rfl
    | some e =>
      have hlt := (List.getElem?_eq_some_iff.mp hj).1
      rw [List.getElem?_range' hlt, Option.map_some, h j e hj, one_mul]
  · intro h j e hj
    have hlt := (List.getElem?_eq_some_iff.mp hj).1
    have hindex := congrArg (fun l => l[j]?) h
    simp only [List.getElem?_map, hj, Option.map_some, List.getElem?_range' hlt, one_mul,
      Option.some.injEq] at hindex
    exact hindex

theorem base_unique {base' : ℕ} (h : IndexedFrom base log) (h' : IndexedFrom base' log)
    (hne : log ≠ []) : base = base' := by
  have hget := List.getElem?_eq_getElem (List.length_pos_of_ne_nil hne)
  have := h 0 _ hget
  have := h' 0 _ hget
  omega

theorem tail {e : LogEntry} (h : IndexedFrom base (e :: log)) : IndexedFrom (base + 1) log := by
  intro j e' hj
  have := h (j + 1) e' hj
  omega

/-- Dropping by index and dropping by count agree on an aligned log. -/
theorem filter_eq_drop (h : IndexedFrom base log) (n : ℕ) :
    log.filter (fun e => base + n + 1 ≤ e.index) = log.drop n := by
  induction log generalizing base n with
  | nil => rw [List.filter_nil, List.drop_nil]
  | cons e log ih =>
    have he := h 0 e rfl
    cases n with
    | zero =>
      refine List.filter_eq_self.mpr fun e' he' => ?_
      obtain ⟨j, hj⟩ := List.mem_iff_getElem?.mp he'
      have := h j e' hj
      exact decide_eq_true (by omega)
    | succ n =>
      have hn := ih h.tail n
      rw [show base + 1 + n + 1 = base + (n + 1) + 1 by omega] at hn
      rw [List.filter_cons_of_neg (by simp only [decide_eq_true_eq]; omega), hn, List.drop_succ_cons]

theorem getLast? (h : IndexedFrom base log) :
    (log.getLast?.map LogEntry.index).getD base = base + log.length := by
  cases hlast : log.getLast? with
  | none =>
    rw [List.getLast?_eq_none_iff.mp hlast]
    rfl
  | some e =>
    rw [List.getLast?_eq_getElem?] at hlast
    have := h _ e hlast
    have hpos : 0 < log.length := by
      by_contra hzero
      rw [List.length_eq_zero_iff.mp (by omega : log.length = 0)] at hlast
      cases hlast
    simp only [Option.map_some, Option.getD_some]
    omega

end IndexedFrom

instance (base : ℕ) (log : List LogEntry) : Decidable (IndexedFrom base log) :=
  decidable_of_iff _ IndexedFrom.iff_map_index.symm

namespace RaftState

def Aligned (s : RaftState) : Prop := IndexedFrom s.logOffset s.log

instance (s : RaftState) : Decidable s.Aligned := inferInstanceAs (Decidable (IndexedFrom _ _))

variable {s : RaftState}

theorem Aligned.lastLogIndex (h : s.Aligned) : s.lastLogIndex = s.logOffset + s.log.length :=
  h.getLast?

theorem Aligned.getEntry_index (h : s.Aligned) {i : ℕ} {e : LogEntry} (he : s.getEntry i = some e) :
    e.index = i := by
  rw [getEntry] at he
  split_ifs at he with hi
  have := h _ e he
  omega

theorem Aligned.appendEntry (h : s.Aligned) (command : Command) :
    (s.appendEntry command).Aligned := by
  refine IndexedFrom.append h fun j e hj => ?_
  obtain ⟨rfl, rfl⟩ : j = 0 ∧ s.newEntry command = e := by
    cases j with
    | zero => exact ⟨rfl, Option.some.inj hj⟩
    | succ j => cases hj
  exact congrArg (· + 1) h.lastLogIndex

theorem Aligned.compactLog (h : s.Aligned) (snapshot : Snapshot) :
    (s.compactLog snapshot).Aligned := by
  rw [RaftState.compactLog]
  split_ifs with hle
  · exact h
  · have hdrop := h.drop (snapshot.lastIncludedIndex - s.logOffset)
    rwa [Nat.add_sub_cancel' (by omega)] at hdrop

theorem Aligned.installSnapshot (h : s.Aligned) (snapshot : Snapshot) :
    (s.installSnapshot snapshot).1.Aligned := by
  rw [RaftState.installSnapshot]
  split_ifs with hle
  · exact h
  · have hfilter := h.filter_eq_drop (snapshot.lastIncludedIndex - s.logOffset)
    have hdrop := h.drop (snapshot.lastIncludedIndex - s.logOffset)
    rw [← hfilter, Nat.add_sub_cancel' (by omega)] at hdrop
    exact hdrop

theorem getEntry_compactLog (s : RaftState) {snapshot : Snapshot} {i : ℕ}
    (hi : snapshot.lastIncludedIndex < i) :
    (s.compactLog snapshot).getEntry i = s.getEntry i := by
  rw [RaftState.compactLog]
  split_ifs with hle
  · rfl
  · rw [getEntry, getEntry, if_neg (by dsimp only; omega), if_neg (by omega), List.getElem?_drop]
    congr 1
    dsimp only
    omega

theorem Aligned.getEntry_installSnapshot (h : s.Aligned) {snapshot : Snapshot} {i : ℕ}
    (hi : snapshot.lastIncludedIndex < i) :
    (s.installSnapshot snapshot).1.getEntry i = s.getEntry i := by
  rw [RaftState.installSnapshot]
  split_ifs with hle
  · rfl
  · have hfilter := h.filter_eq_drop (snapshot.lastIncludedIndex - s.logOffset)
    rw [Nat.add_sub_cancel' (by omega)] at hfilter
    rw [getEntry, getEntry, if_neg (by dsimp only; omega), if_neg (by omega), hfilter,
      List.getElem?_drop]
    congr 1
    dsimp only
    omega

/-- A position that the consistency check found is inside the log. -/
theorem le_of_checkPrevLog {prevLogIndex prevLogTerm : ℕ}
    (hoff : s.logOffset < prevLogIndex)
    (hcheck : s.checkPrevLog prevLogIndex prevLogTerm = .accept) :
    prevLogIndex ≤ s.logOffset + s.log.length := by
  rw [checkPrevLog, if_pos (by omega), if_neg (by omega), if_neg (by omega)] at hcheck
  cases hget : s.getEntry prevLogIndex with
  | none =>
    rw [hget] at hcheck
    cases hcheck
  | some e =>
    rw [getEntry] at hget
    split_ifs at hget
    have := (List.getElem?_eq_some_iff.mp hget).1
    omega

theorem lt_of_mismatch {prevLogIndex prevLogTerm : ℕ}
    (h : s.checkPrevLog prevLogIndex prevLogTerm = .mismatch) :
    s.logOffset < prevLogIndex ∧ prevLogIndex ≤ s.logOffset + s.log.length := by
  rw [checkPrevLog] at h
  split_ifs at h with hpos hbelow heq
  · split at h
    · split_ifs at h
    · cases h
  · cases hget : s.getEntry prevLogIndex with
    | none =>
      rw [hget] at h
      cases h
    | some e =>
      rw [getEntry] at hget
      split_ifs at hget
      have hlt := (List.getElem?_eq_some_iff.mp hget).1
      omega

theorem checkPrevLog_below {prevLogIndex prevLogTerm : ℕ} (h : prevLogIndex < s.logOffset) :
    s.checkPrevLog prevLogIndex prevLogTerm = .accept := by
  rw [checkPrevLog]
  split_ifs <;> rfl

end RaftState

/-- What `replicate_to_peers` builds: decodable entries numbered from `prev_log_index + 1`. -/
structure AppendEntriesRequest.WellFormed (lib : WireLib) (req : AppendEntriesRequest) : Prop where
  decodable : ∀ p ∈ req.entries, (protoToLogEntry lib p).isSome
  consecutive : req.entries.map Proto.LogEntry.index =
    List.range' (req.prevLogIndex + 1) req.entries.length

instance (lib : WireLib) (req : AppendEntriesRequest) : Decidable (req.WellFormed lib) :=
  decidable_of_iff (_ ∧ _) ⟨fun h => ⟨h.1, h.2⟩, fun h => ⟨h.1, h.2⟩⟩

theorem protoToLogEntry_index {lib : WireLib} {p : Proto.LogEntry} {e : LogEntry}
    (h : protoToLogEntry lib p = some e) : e.index = p.index := by
  rw [protoToLogEntry, Option.map_eq_some_iff] at h
  obtain ⟨_, _, rfl⟩ := h
  rfl

theorem protoToLogEntry_term {lib : WireLib} {p : Proto.LogEntry} {e : LogEntry}
    (h : protoToLogEntry lib p = some e) : e.term = p.term := by
  rw [protoToLogEntry, Option.map_eq_some_iff] at h
  obtain ⟨_, _, rfl⟩ := h
  rfl

theorem getElem?_decodeEntries {lib : WireLib} {ps : List Proto.LogEntry}
    (h : ∀ p ∈ ps, (protoToLogEntry lib p).isSome) (j : ℕ) :
    (decodeEntries lib ps)[j]? = ps[j]?.bind (protoToLogEntry lib) := by
  induction ps generalizing j with
  | nil => rfl
  | cons p ps ih =>
    obtain ⟨e, he⟩ := Option.isSome_iff_exists.mp (h p (List.mem_cons_self ..))
    have hcons : decodeEntries lib (p :: ps) = e :: decodeEntries lib ps :=
      List.filterMap_cons_some he
    rw [hcons]
    cases j with
    | zero => exact he.symm
    | succ j => exact ih (fun q hq => h q (List.mem_cons_of_mem _ hq)) j

namespace AppendEntriesRequest.WellFormed

variable {lib : WireLib} {req : AppendEntriesRequest}

theorem indexedFrom (h : req.WellFormed lib) :
    IndexedFrom req.prevLogIndex (decodeEntries lib req.entries) := by
  intro j e hj
  rw [getElem?_decodeEntries h.decodable] at hj
  obtain ⟨p, hp, hdec⟩ := Option.bind_eq_some_iff.mp hj
  have hlt : j < req.entries.length := (List.getElem?_eq_some_iff.mp hp).1
  have hindex := congrArg (fun l => l[j]?) h.consecutive
  simp only [List.getElem?_map, hp, Option.map_some, List.getElem?_range' hlt, one_mul,
    Option.some.injEq] at hindex
  exact (protoToLogEntry_index hdec).trans hindex

theorem length_decodeEntries (h : req.WellFormed lib) :
    (decodeEntries lib req.entries).length = req.entries.length := by
  exact List.filterMap_length_eq_length.mpr h.decodable

theorem decodeEntries_ne_nil (h : req.WellFormed lib) (hne : req.entries ≠ []) :
    decodeEntries lib req.entries ≠ [] := by
  intro hnil
  obtain ⟨p, ps, hps⟩ := List.exists_cons_of_ne_nil hne
  have hsome := h.decodable p (hps ▸ List.mem_cons_self ..)
  have hget := getElem?_decodeEntries h.decodable 0
  rw [hnil, hps] at hget
  change none = protoToLogEntry lib p at hget
  rw [← hget] at hsome
  cases hsome

end AppendEntriesRequest.WellFormed

def Call.WellFormed (lib : WireLib) : Call → Prop
  | .appendEntries req => req.WellFormed lib
  | _ => True

instance (lib : WireLib) : (call : Call) → Decidable (call.WellFormed lib)
  | .appendEntries req => inferInstanceAs (Decidable (req.WellFormed lib))
  | .appendEntry _ | .getCommittedEntries | .compactLog .. | .requestVote _ | .installSnapshot _
  | .becomeCandidate _ => .isTrue trivial

def Call.StartsAboveOffset (s : RaftState) : Call → Prop
  | .appendEntries req =>
    req.entries ≠ [] → s.currentTerm ≤ req.term → s.logOffset ≤ req.prevLogIndex
  | _ => True

instance (s : RaftState) : (call : Call) → Decidable (call.StartsAboveOffset s)
  | .appendEntries req => inferInstanceAs (Decidable (req.entries ≠ [] →
      s.currentTerm ≤ req.term → s.logOffset ≤ req.prevLogIndex))
  | .appendEntry _ | .getCommittedEntries | .compactLog .. | .requestVote _ | .installSnapshot _
  | .becomeCandidate _ => .isTrue trivial

namespace RaftState

variable {lib : WireLib} {s : RaftState} {req : AppendEntriesRequest}

theorem updateCommitIndex_aligned (s : RaftState) (leaderCommit : ℕ) :
    (s.updateCommitIndex leaderCommit).Aligned ↔ s.Aligned := by
  rw [updateCommitIndex]
  split_ifs <;> exact Iff.rfl

theorem Aligned.appendNewEntries (h : s.Aligned) (hwf : req.WellFormed lib)
    (hcheck : s.checkPrevLog req.prevLogIndex req.prevLogTerm = .accept) :
    (s.appendNewEntries lib req).Aligned ↔ (req.entries ≠ [] → s.logOffset ≤ req.prevLogIndex) := by
  rw [RaftState.appendNewEntries]
  split_ifs with hnil
  · exact ⟨fun _ hne => absurd hnil hne, fun _ => h⟩
  · rw [truncateAndAppend]
    split_ifs with hoff
    · -- the whole log is replaced by entries that start at or below `log_offset`
      constructor
      · intro hal _
        exact (hal.base_unique hwf.indexedFrom (hwf.decodeEntries_ne_nil hnil)).le
      · intro hle
        have := hle hnil
        omega
    · refine ⟨fun _ _ => by omega, fun _ => IndexedFrom.append (h.take _) ?_⟩
      have hbase : s.logOffset + (s.log.take (req.prevLogIndex + 1 - s.logOffset - 1)).length =
          req.prevLogIndex := by
        rw [List.length_take]
        rcases (by omega : s.logOffset ≤ req.prevLogIndex).lt_or_eq with hlt | heq
        · have := s.le_of_checkPrevLog hlt hcheck
          omega
        · omega
      exact hbase.symm ▸ hwf.indexedFrom

theorem Aligned.handleAppendEntries (h : s.Aligned) (hwf : req.WellFormed lib) :
    (handleAppendEntries lib s req).1.Aligned ↔
      (Call.appendEntries req).StartsAboveOffset s := by
  rcases lt_or_ge req.term s.currentTerm with hlt | hge
  · rw [handleAppendEntries_stale hlt]
    exact ⟨fun _ _ hcur => by omega, fun _ => h⟩
  · have hfollow : (s.follow req.term req.leaderId).Aligned := by
      rw [Aligned, follow_log, follow_logOffset]
      exact h
    rw [handleAppendEntries_current hge]
    cases hcheck : s.checkPrevLog req.prevLogIndex req.prevLogTerm with
    | reject =>
      refine ⟨fun _ _ _ => ?_, fun _ => hfollow⟩
      by_contra hbelow
      rw [s.checkPrevLog_below (by omega)] at hcheck
      cases hcheck
    | mismatch =>
      refine ⟨fun _ _ _ => ?_, fun _ => ?_⟩
      · by_contra hbelow
        rw [s.checkPrevLog_below (by omega)] at hcheck
        cases hcheck
      · change IndexedFrom (s.follow req.term req.leaderId).logOffset (s.log.take _)
        rw [follow_logOffset]
        exact h.take _
    | accept =>
      refine (updateCommitIndex_aligned _ _).trans ((hfollow.appendNewEntries hwf ?_).trans ?_)
      · rw [follow_checkPrevLog, hcheck]
      · rw [follow_logOffset]
        exact ⟨fun hoff hne _ => hoff hne, fun hoff hne => hoff hne hge⟩

theorem Aligned.handleRequestVote (h : s.Aligned) (req : VoteRequest) :
    (handleRequestVote s req).1.Aligned := by
  have hadopt : (s.adoptTerm req.term).Aligned := by
    rw [Aligned, adoptTerm_log, adoptTerm_logOffset]
    exact h
  rw [NomadLite.handleRequestVote]
  split_ifs <;> exact hadopt

theorem Aligned.handleInstallSnapshot (h : s.Aligned) (req : InstallSnapshotRequest) :
    (handleInstallSnapshot lib s req).1.Aligned := by
  have hadopt : (s.adoptTerm req.term).Aligned := by
    rw [Aligned, adoptTerm_log, adoptTerm_logOffset]
    exact h
  rw [NomadLite.handleInstallSnapshot]
  split_ifs
  · exact hadopt
  · exact Aligned.installSnapshot (s := { s.adoptTerm req.term with
      leaderId := some req.leaderId }) hadopt _

end RaftState

theorem Call.aligned_exec_iff {lib : WireLib} {s : RaftState} {call : Call}
    (hwf : call.WellFormed lib) (h : s.Aligned) :
    (call.exec lib s).Aligned ↔ call.StartsAboveOffset s := by
  cases call with
  | appendEntry command => exact iff_of_true (h.appendEntry command) trivial
  | getCommittedEntries => exact iff_of_true h trivial
  | compactLog term jobs workers => exact iff_of_true (h.compactLog _) trivial
  | requestVote req => exact iff_of_true (h.handleRequestVote req) trivial
  | appendEntries req => exact h.handleAppendEntries hwf
  | installSnapshot req => exact iff_of_true (h.handleInstallSnapshot req) trivial
  | becomeCandidate myId => exact iff_of_true h trivial

/-- The log is aligned in every state of a run, and `get_entry` returns entries of the index it
is asked for, exactly when no accepted request of the run starts below `log_offset`. -/
theorem log_aligned_iff (lib : WireLib) (calls : List Call)
    (hwf : ∀ call ∈ calls, call.WellFormed lib)
    (hfits : Runs.Along (Call.step lib) (fun s call => call.Fits s) RaftState.new calls) :
    Runs.Always (Call.step lib)
        (fun s => s.Aligned ∧ ∀ i e, s.getEntry i = some e → e.index = i) RaftState.new calls ↔
      Runs.Along (Call.step lib) (fun s call => call.StartsAboveOffset s) RaftState.new calls := by
  have hget : ∀ s : RaftState,
      (s.Aligned ∧ ∀ i e, s.getEntry i = some e → e.index = i) ↔ s.Aligned := fun s =>
    and_iff_left_of_imp fun h _ _ he => h.getEntry_index he
  simp only [hget]
  refine Runs.always_iff_along hfits (IndexedFrom.nil 0) ?_ fun s call _ => ⟨_, rfl⟩
  intro s s' call hmem hfit hal hs
  obtain rfl := Option.some.inj hs
  rw [Release.exec_eq hfit]
  exact Call.aligned_exec_iff (hwf call hmem) hal

def compactedCalls : List Call :=
  [.appendEntries ⟨1, 2, 0, 0, [⟨1, 1, none⟩, ⟨1, 2, none⟩], 2⟩, .getCommittedEntries,
    .compactLog 1 [] []]

/-- The next request starts at the offset, and the log stays aligned. -/
theorem log_aligned_after_compaction :
    Runs.Always (Call.step .standard)
      (fun s => s.Aligned ∧ ∀ i e, s.getEntry i = some e → e.index = i) RaftState.new
      (compactedCalls ++ [.appendEntries ⟨1, 2, 2, 1, [⟨1, 3, none⟩], 2⟩]) := by
  exact (log_aligned_iff .standard _ (by decide) (Runs.along_of_guardedRun (by decide))).mpr
    (Runs.along_of_guardedRun (by decide))

/-- The first request arrives a second time: `get_entry 3` returns the entry of index 1. -/
theorem log_misaligned_after_duplicate :
    ¬ ∀ (lib : WireLib) (calls : List Call), (∀ call ∈ calls, call.WellFormed lib) →
      Runs.Along (Call.step lib) (fun s call => call.Fits s) RaftState.new calls →
      Runs.Always (Call.step lib)
        (fun s => s.Aligned ∧ ∀ i e, s.getEntry i = some e → e.index = i) RaftState.new calls := by
  intro hall
  have hlast := (hall .standard (compactedCalls ++
    [.appendEntries ⟨1, 2, 0, 0, [⟨1, 1, none⟩, ⟨1, 2, none⟩], 2⟩]) (by decide)
      (Runs.along_of_guardedRun (by decide))).last rfl
  exact absurd (hlast.2 3 ⟨1, 1, .noop⟩ (by decide)) (by decide)

end NomadLite
