import NomadLite.LogAlignment

/-!
# The order of the four index pointers

`log_offset`, `last_applied`, `commit_index` and the last index of the log are moved
by different operations. Two branches of `handle_append_entries` shorten the log
without a look at `commit_index`, and the next heartbeat then lowers `commit_index`
to the end of the log. The pointers stay in order exactly as long as no request
shortens the log below `commit_index`.
-/

namespace NomadLite

namespace RaftState

structure PointersOrdered (s : RaftState) : Prop where
  offset_le : s.logOffset ≤ s.lastApplied
  applied_le : s.lastApplied ≤ s.commitIndex
  commit_le : s.commitIndex ≤ s.lastLogIndex

instance (s : RaftState) : Decidable s.PointersOrdered :=
  decidable_of_iff (_ ∧ _ ∧ _) ⟨fun h => ⟨h.1, h.2.1, h.2.2⟩, fun h => ⟨h.1, h.2, h.3⟩⟩

def lastIndexOfTake (s : RaftState) (n : ℕ) : ℕ :=
  ((s.log.take n).getLast?.map LogEntry.index).getD s.logOffset

variable {s s' : RaftState}

def KeepsPointers (s s' : RaftState) : Prop :=
  s'.PointersOrdered ∧ s.commitIndex ≤ s'.commitIndex

theorem PointersOrdered.of_eq (h : s.PointersOrdered) (hoff : s'.logOffset = s.logOffset)
    (happlied : s'.lastApplied = s.lastApplied) (hcommit : s'.commitIndex = s.commitIndex)
    (hlast : s.lastLogIndex ≤ s'.lastLogIndex) : s.KeepsPointers s' := by
  obtain ⟨h₁, h₂, h₃⟩ := h
  exact ⟨⟨by omega, by omega, by omega⟩, by omega⟩

theorem PointersOrdered.updateCommitIndex (h : s.PointersOrdered) (leaderCommit : ℕ) :
    s.KeepsPointers (s.updateCommitIndex leaderCommit) := by
  obtain ⟨h₁, h₂, h₃⟩ := h
  rw [RaftState.updateCommitIndex]
  split_ifs with hlt
  · have hmin : s.commitIndex ≤ min leaderCommit s.lastLogIndex := le_min hlt.le h₃
    exact ⟨⟨h₁, h₂.trans hmin, min_le_right ..⟩, hmin⟩
  · exact ⟨⟨h₁, h₂, h₃⟩, le_rfl⟩

theorem PointersOrdered.replaceLog (h : s.PointersOrdered) {log : List LogEntry} {last : ℕ}
    (hlast : ({ s with log := log } : RaftState).lastLogIndex = last) (leaderCommit : ℕ) :
    s.KeepsPointers (({ s with log := log } : RaftState).updateCommitIndex leaderCommit) ↔
      s.commitIndex ≤ last := by
  constructor
  · rintro ⟨hord, hmono⟩
    rw [RaftState.updateCommitIndex] at hord hmono
    split_ifs at hord hmono with hlt
    · exact hmono.trans ((min_le_right ..).trans hlast.le)
    · exact hord.commit_le.trans hlast.le
  · intro hle
    have hord : ({ s with log := log } : RaftState).PointersOrdered :=
      ⟨h.offset_le, h.applied_le, hle.trans hlast.ge⟩
    exact hord.updateCommitIndex leaderCommit

theorem lastLogIndex_append (s : RaftState) (log : List LogEntry) {base : ℕ}
    {entries : List LogEntry} (hidx : IndexedFrom base entries) (hne : entries ≠ []) :
    ({ s with log := log ++ entries } : RaftState).lastLogIndex = base + entries.length := by
  have hlast := hidx.getLast?
  obtain ⟨e, he⟩ := Option.ne_none_iff_exists'.mp (mt List.getLast?_eq_none_iff.mp hne)
  simp only [lastLogIndex, List.getLast?_append, he, Option.some_or, Option.map_some,
    Option.getD_some] at hlast ⊢
  exact hlast

theorem PointersOrdered.compactLog (h : s.PointersOrdered) (term : ℕ) (jobs : List SnapshotJob)
    (workers : List ℕ) :
    s.KeepsPointers (s.compactLog ⟨s.lastApplied, term, jobs, workers⟩) ↔
      (s.log.length ≤ s.lastApplied - s.logOffset → s.commitIndex ≤ s.lastApplied) := by
  obtain ⟨h₁, h₂, h₃⟩ := h
  rw [RaftState.compactLog]
  split_ifs with hle
  · refine iff_of_true ⟨⟨h₁, h₂, h₃⟩, le_rfl⟩ fun hlen => ?_
    have hnil : s.log = [] := by
      change s.lastApplied ≤ s.logOffset at hle
      exact List.eq_nil_of_length_eq_zero (by omega)
    rw [lastLogIndex, hnil] at h₃
    exact h₃.trans h₁
  · rcases le_or_gt s.log.length (s.lastApplied - s.logOffset) with hlen | hlen
    · have hdrop : s.log.drop (s.lastApplied - s.logOffset) = [] := List.drop_eq_nil_of_le hlen
      refine ⟨fun hk _ => ?_, fun hcommit => ⟨⟨le_rfl, h₂, ?_⟩, le_rfl⟩⟩
      · have hlast := hk.1.commit_le
        rw [lastLogIndex, hdrop] at hlast
        exact hlast
      · rw [lastLogIndex, hdrop]
        exact hcommit hlen
    · refine iff_of_true ⟨⟨le_rfl, h₂, ?_⟩, le_rfl⟩ fun hle => absurd hle (not_le.mpr hlen)
      have hne : s.log ≠ [] := List.ne_nil_of_length_pos (by omega)
      obtain ⟨e, he⟩ := Option.ne_none_iff_exists'.mp (mt List.getLast?_eq_none_iff.mp hne)
      simp only [lastLogIndex, List.getLast?_drop, if_neg (not_le.mpr hlen), he, Option.map_some,
        Option.getD_some] at h₃ ⊢
      exact h₃

theorem le_getLast?_filter (log : List LogEntry) (n : ℕ) :
    n ≤ ((log.filter fun e => n + 1 ≤ e.index).getLast?.map LogEntry.index).getD n ∧
      ∀ e ∈ log.getLast?,
        e.index ≤ ((log.filter fun e => n + 1 ≤ e.index).getLast?.map LogEntry.index).getD n := by
  have hlow : n ≤ ((log.filter fun e => n + 1 ≤ e.index).getLast?.map LogEntry.index).getD n := by
    cases hlast : (log.filter fun e => n + 1 ≤ e.index).getLast? with
    | none => exact le_rfl
    | some e =>
      have hkept := (List.mem_filter.mp (List.mem_of_getLast? hlast)).2
      exact (Nat.le_succ n).trans (of_decide_eq_true hkept)
  refine ⟨hlow, fun e he => ?_⟩
  rcases le_or_gt e.index n with hle | hgt
  · exact hle.trans hlow
  · obtain ⟨init, rfl⟩ := List.getLast?_eq_some_iff.mp he
    have hkeep : [e].filter (fun e => n + 1 ≤ e.index) = [e] :=
      List.filter_cons_of_pos (decide_eq_true hgt)
    rw [List.filter_append, hkeep, List.getLast?_concat]
    exact le_rfl

theorem PointersOrdered.installSnapshot (h : s.PointersOrdered) (snapshot : Snapshot) :
    s.KeepsPointers (s.installSnapshot snapshot).1 := by
  obtain ⟨h₁, h₂, h₃⟩ := h
  rw [RaftState.installSnapshot]
  split_ifs with hle
  · exact ⟨⟨h₁, h₂, h₃⟩, le_rfl⟩
  · refine ⟨⟨le_max_right .., max_le_max_right _ h₂, ?_⟩, le_max_left ..⟩
    obtain ⟨hlow, hhigh⟩ := le_getLast?_filter s.log snapshot.lastIncludedIndex
    refine max_le ?_ hlow
    cases hlast : s.log.getLast? with
    | none =>
      rw [lastLogIndex, hlast] at h₃
      exact h₃.trans ((not_le.mp hle).le.trans hlow)
    | some e =>
      rw [lastLogIndex, hlast] at h₃
      exact h₃.trans (hhigh e hlast)

end RaftState

/-- Requests do not shorten the log below `commit_index`. The clause on compaction always holds
where the entries stand at the positions of their indices. -/
def Call.KeepsCommit (s : RaftState) : Call → Prop
  | .appendEntries req => s.currentTerm ≤ req.term →
    match s.checkPrevLog req.prevLogIndex req.prevLogTerm with
    | .reject => True
    | .mismatch => s.commitIndex ≤ s.lastIndexOfTake (req.prevLogIndex - s.logOffset - 1)
    | .accept => req.entries ≠ [] → s.commitIndex ≤ req.prevLogIndex + req.entries.length
  | .compactLog .. => s.log.length ≤ s.lastApplied - s.logOffset → s.commitIndex ≤ s.lastApplied
  | _ => True

instance (s : RaftState) (req : AppendEntriesRequest) :
    (check : PrevLogCheck) → Decidable (match check with
      | .reject => True
      | .mismatch => s.commitIndex ≤ s.lastIndexOfTake (req.prevLogIndex - s.logOffset - 1)
      | .accept => req.entries ≠ [] → s.commitIndex ≤ req.prevLogIndex + req.entries.length)
  | .reject => isTrue trivial
  | .mismatch => inferInstanceAs (Decidable (_ ≤ _))
  | .accept => inferInstanceAs (Decidable (_ → _))

instance (s : RaftState) : (call : Call) → Decidable (call.KeepsCommit s)
  | .appendEntries _ => inferInstanceAs (Decidable (_ → _))
  | .compactLog .. => inferInstanceAs (Decidable (_ → _))
  | .appendEntry _ | .getCommittedEntries | .requestVote _ | .installSnapshot _
  | .becomeCandidate _ => isTrue trivial

namespace RaftState

variable {lib : WireLib} {s : RaftState}

/-- Accepted entries end the log, whatever part of the old one is kept before them. -/
theorem exists_appendNewEntries (lib : WireLib) (s : RaftState) {req : AppendEntriesRequest}
    (hne : req.entries ≠ []) :
    ∃ log, s.appendNewEntries lib req = { s with log := log ++ decodeEntries lib req.entries } := by
  rw [appendNewEntries, if_neg hne, truncateAndAppend]
  split_ifs
  · exact ⟨[], rfl⟩
  · exact ⟨_, rfl⟩

theorem PointersOrdered.handleAppendEntries {req : AppendEntriesRequest}
    (h : s.PointersOrdered) (hwf : req.WellFormed lib) :
    s.KeepsPointers (handleAppendEntries lib s req).1 ↔ (Call.appendEntries req).KeepsCommit s := by
  rcases lt_or_ge req.term s.currentTerm with hlt | hge
  · rw [handleAppendEntries_stale hlt]
    exact iff_of_true ⟨h, le_rfl⟩ fun hcur => absurd hcur (not_le.mpr hlt)
  · have hcommit : (s.follow req.term req.leaderId).commitIndex = s.commitIndex :=
      follow_commitIndex
    have hfollow : (s.follow req.term req.leaderId).PointersOrdered := by
      refine (h.of_eq follow_logOffset follow_lastApplied follow_commitIndex ?_).1
      rw [lastLogIndex, lastLogIndex, follow_log, follow_logOffset]
    have hkeeps : ∀ t : RaftState, s.KeepsPointers t ↔
        (s.follow req.term req.leaderId).KeepsPointers t := fun t => by
      rw [KeepsPointers, KeepsPointers, hcommit]
    simp only [handleAppendEntries_current hge, hkeeps, Call.KeepsCommit, hge, true_imp_iff]
    cases s.checkPrevLog req.prevLogIndex req.prevLogTerm with
    | reject => exact iff_of_true ⟨hfollow, le_rfl⟩ trivial
    | mismatch =>
      have hlast : ({ s.follow req.term req.leaderId with
          log := s.log.take (req.prevLogIndex - s.logOffset - 1) } : RaftState).lastLogIndex =
          s.lastIndexOfTake (req.prevLogIndex - s.logOffset - 1) := by
        rw [lastLogIndex, follow_logOffset]
        rfl
      rw [← hcommit, ← hlast]
      exact ⟨fun hk => hk.1.commit_le,
        fun hle => ⟨⟨hfollow.offset_le, hfollow.applied_le, hle⟩, le_rfl⟩⟩
    | accept =>
      by_cases hnil : req.entries = []
      · refine iff_of_true ?_ fun hne => absurd hnil hne
        rw [appendNewEntries, if_pos hnil]
        exact hfollow.updateCommitIndex req.leaderCommit
      · obtain ⟨log, hlog⟩ := exists_appendNewEntries lib (s.follow req.term req.leaderId) hnil
        have hlast := (s.follow req.term req.leaderId).lastLogIndex_append log hwf.indexedFrom
          (hwf.decodeEntries_ne_nil hnil)
        rw [hlog, hfollow.replaceLog hlast, hcommit, hwf.length_decodeEntries]
        exact ⟨fun hle _ => hle, fun hle => hle hnil⟩

theorem PointersOrdered.handleInstallSnapshot (h : s.PointersOrdered)
    (req : InstallSnapshotRequest) :
    s.KeepsPointers (handleInstallSnapshot lib s req).1 := by
  have hadopt : (s.adoptTerm req.term).PointersOrdered := by
    refine (h.of_eq adoptTerm_logOffset adoptTerm_lastApplied adoptTerm_commitIndex ?_).1
    rw [lastLogIndex, lastLogIndex, adoptTerm_log, adoptTerm_logOffset]
  have hcommit : (s.adoptTerm req.term).commitIndex = s.commitIndex := adoptTerm_commitIndex
  rw [KeepsPointers, ← hcommit, NomadLite.handleInstallSnapshot]
  split_ifs
  · exact ⟨hadopt, le_rfl⟩
  · exact PointersOrdered.installSnapshot (s := { s.adoptTerm req.term with
      leaderId := some req.leaderId }) ⟨hadopt.1, hadopt.2, hadopt.3⟩ _

theorem PointersOrdered.handleRequestVote (h : s.PointersOrdered) (req : VoteRequest) :
    s.KeepsPointers (handleRequestVote s req).1 := by
  have hadopt : s.KeepsPointers (s.adoptTerm req.term) := by
    refine h.of_eq adoptTerm_logOffset adoptTerm_lastApplied adoptTerm_commitIndex ?_
    rw [lastLogIndex, lastLogIndex, adoptTerm_log, adoptTerm_logOffset]
  rw [NomadLite.handleRequestVote]
  split_ifs <;> exact ⟨⟨hadopt.1.1, hadopt.1.2, hadopt.1.3⟩, hadopt.2⟩

theorem PointersOrdered.getCommittedEntries (h : s.PointersOrdered) :
    s.KeepsPointers s.getCommittedEntries.1 := by
  obtain ⟨h₁, h₂, h₃⟩ := h
  exact ⟨⟨h₁.trans (le_max_left ..), max_le h₂ le_rfl, h₃⟩, le_rfl⟩

theorem PointersOrdered.appendEntry (h : s.PointersOrdered) (command : Command) :
    s.KeepsPointers (s.appendEntry command) := by
  refine h.of_eq rfl rfl rfl ?_
  have hlast : (s.appendEntry command).lastLogIndex = s.lastLogIndex + 1 := by
    rw [RaftState.appendEntry, lastLogIndex, List.getLast?_concat]
    rfl
  omega

end RaftState

theorem Call.keepsPointers_exec_iff {lib : WireLib} {s : RaftState} {call : Call}
    (hwf : call.WellFormed lib) (h : s.PointersOrdered) :
    s.KeepsPointers (call.exec lib s) ↔ call.KeepsCommit s := by
  cases call with
  | appendEntry command => exact iff_of_true (h.appendEntry command) trivial
  | getCommittedEntries => exact iff_of_true h.getCommittedEntries trivial
  | compactLog term jobs workers => exact h.compactLog term jobs workers
  | requestVote req => exact iff_of_true (h.handleRequestVote req) trivial
  | appendEntries req => exact h.handleAppendEntries hwf
  | installSnapshot req => exact iff_of_true (h.handleInstallSnapshot req) trivial
  | becomeCandidate myId => exact iff_of_true (h.of_eq rfl rfl rfl le_rfl) trivial

/-- The pointers are in order in every state of a run and the commit index never decreases exactly
when no step of the run shortens the log below the commit index. -/
theorem pointers_ordered_iff (lib : WireLib) (calls : List Call)
    (hwf : ∀ call ∈ calls, call.WellFormed lib)
    (hfits : Runs.Along (Call.step lib) (fun s call => call.Fits s) RaftState.new calls) :
    Runs.Always (Call.step lib) RaftState.PointersOrdered RaftState.new calls ∧
        Runs.Along (Call.step lib)
          (fun s call => s.commitIndex ≤ (Release.exec lib s call).commitIndex) RaftState.new
          calls ↔
      Runs.Along (Call.step lib) (fun s call => call.KeepsCommit s) RaftState.new calls := by
  refine Runs.always_and_along_iff hfits ⟨le_rfl, le_rfl, le_rfl⟩ ?_ fun s call _ => ⟨_, rfl⟩
  intro s s' call hmem hfit hord hs
  obtain rfl := Option.some.inj hs
  rw [Release.exec_eq hfit]
  exact Call.keepsPointers_exec_iff (hwf call hmem) hord

/-- A follower takes and applies two entries, compacts its log and takes a third one. -/
theorem pointers_ordered_after_compaction :
    Runs.Always (Call.step .standard) RaftState.PointersOrdered RaftState.new
        (compactedCalls ++ [.appendEntries ⟨1, 2, 2, 1, [⟨1, 3, none⟩], 3⟩]) ∧
      Runs.Along (Call.step .standard)
        (fun s call => s.commitIndex ≤ (Release.exec .standard s call).commitIndex) RaftState.new
        (compactedCalls ++ [.appendEntries ⟨1, 2, 2, 1, [⟨1, 3, none⟩], 3⟩]) :=
  (pointers_ordered_iff .standard _ (by decide) (Runs.along_of_guardedRun (by decide))).mpr
    (Runs.along_of_guardedRun (by decide))

/-- What the leader `leaderId` of term `term` may send in the course of its leadership, where
`log` is its log at the end of it. -/
structure AppendEntriesRequest.FromLog (lib : WireLib) (term leaderId : ℕ) (log : List LogEntry)
    (req : AppendEntriesRequest) : Prop where
  term_eq : req.term = term
  leader_eq : req.leaderId = leaderId
  entries : decodeEntries lib req.entries <+: log.drop req.prevLogIndex
  prev : 0 < req.prevLogIndex →
    log[req.prevLogIndex - 1]?.map LogEntry.term = some req.prevLogTerm
  commit : req.leaderCommit ≤ log.length

def Call.OfFollower : Call → Prop
  | .appendEntries _ | .installSnapshot _ | .getCommittedEntries | .compactLog .. => True
  | .appendEntry _ | .requestVote _ | .becomeCandidate _ => False

/-- The leader's first request, with one entry, arrives after the second one, with two: the log
ends at index 1 below `commit_index` 2. The next heartbeat moves `commit_index` back to 1, below
`last_applied`. -/
def overtakenCalls : List Call :=
  [.appendEntries ⟨1, 2, 0, 0, [⟨1, 1, none⟩, ⟨1, 2, none⟩], 2⟩, .getCommittedEntries,
    .appendEntries ⟨1, 2, 0, 0, [⟨1, 1, none⟩], 0⟩, .appendEntries ⟨1, 2, 0, 0, [], 3⟩]

theorem pointers_cross_after_overtaking :
    ¬ ∀ (lib : WireLib) (term leaderId : ℕ) (log : List LogEntry) (calls : List Call),
      IndexedFrom 0 log → (∀ call ∈ calls, call.WellFormed lib ∧ call.OfFollower) →
      (∀ req, .appendEntries req ∈ calls → req.FromLog lib term leaderId log) →
      Runs.Along (Call.step lib) (fun s call => call.Fits s) RaftState.new calls →
      Runs.Always (Call.step lib) RaftState.PointersOrdered RaftState.new calls ∧
        Runs.Along (Call.step lib)
          (fun s call => s.commitIndex ≤ (Release.exec lib s call).commitIndex) RaftState.new
          calls := by
  intro hall
  have hlog : IndexedFrom 0 [⟨1, 1, .noop⟩, ⟨1, 2, .noop⟩, ⟨1, 3, .noop⟩] := by
    intro j e hj
    match j, hj with
    | 0, rfl | 1, rfl | 2, rfl => rfl
  have hsent : ∀ req, Call.appendEntries req ∈ overtakenCalls →
      req.FromLog .standard 1 2 [⟨1, 1, .noop⟩, ⟨1, 2, .noop⟩, ⟨1, 3, .noop⟩] := by
    intro req hreq
    simp only [overtakenCalls, List.mem_cons, Call.appendEntries.injEq, reduceCtorEq, false_or,
      List.not_mem_nil, or_false] at hreq
    rcases hreq with rfl | rfl | rfl <;>
      exact ⟨rfl, rfl, by decide, by decide, by decide⟩
  have hcalls : ∀ call ∈ overtakenCalls, call.WellFormed .standard ∧ call.OfFollower := by
    intro call hcall
    simp only [overtakenCalls, List.mem_cons, List.not_mem_nil, or_false] at hcall
    rcases hcall with rfl | rfl | rfl | rfl <;> exact ⟨by decide, trivial⟩
  have hfits : Runs.Along (Call.step .standard) (fun s call => call.Fits s) RaftState.new
      overtakenCalls := Runs.along_of_guardedRun (by decide)
  have hlast := (hall .standard 1 2 _ overtakenCalls hlog hcalls hsent hfits).1.last rfl
  exact absurd hlast.applied_le (by decide)

end NomadLite
