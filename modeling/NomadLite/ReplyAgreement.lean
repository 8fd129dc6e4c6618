import NomadLite.LogRequests
import NomadLite.NodeTransition
import NomadLite.RepeatedRequests

/-!
# What a successful reply says about the follower's log

A follower answers an accepted request with its last index, and the leader takes this for
the index up to which the two logs are equal. The consistency check covers the log up to
`prev_log_index` and the entries come from the leader, so the answer is right when the
follower has been sent entries. A probe without entries leaves a longer log in place and
reports all of it. A request from below the follower's offset is not checked at all.
-/

namespace NomadLite

open ReplicatedLog

/-- What a node holds at an index, `h` telling what it has compacted. -/
def RaftState.wholeEntry (lib : WireLib) (h : List LogEntry) (s : RaftState) (i : ℕ) :
    Option LogEntry :=
  if i ≤ s.logOffset then h[i - 1]? else (s.getEntry i).map (LogEntry.onWire lib)

structure BuiltFor (lib : WireLib) (L : RaftState) (peer next : ℕ) (req : AppendEntriesRequest) :
    Prop where
  next_eq : L.nextIndex.lookup peer = some next
  next_le : next ≤ L.lastLogIndex + 1
  built : ∃ myId, L.replicationMessage lib myId peer = some (.appendEntries .replication req)

section Agreement

variable {lib : WireLib} {L F : RaftState} {logL logF : List LogEntry} {peer next : ℕ}
  {req : AppendEntriesRequest}

theorem BuiltFor.slice (h : BuiltFor lib L peer next req) (hL : L.Holds lib logL) :
    req.Slice lib logL ∧
      (decodeEntries lib req.entries).map (LogEntry.onWire lib) = logL.drop req.prevLogIndex := by
  obtain ⟨myId, hbuilt⟩ := h.built
  have hlookup : (L.nextIndex.lookup peer).getD 1 = next := by rw [h.next_eq, Option.getD_some]
  rcases RaftState.replicationMessage_cases hbuilt with ⟨snapshot, -, -, heq⟩ | ⟨hoff, heq⟩
  · cases heq
  · obtain ⟨-, rfl⟩ := Message.appendEntries.inj heq
    rw [hlookup] at hoff ⊢
    have hle := h.next_le
    rw [hL.lastLogIndex] at hle
    refine ⟨hL.slice_appendRequest h.next_eq hoff (.inr hle), ?_⟩
    exact (hL.decodeEntries_appendRequest myId h.next_eq (hL.offset_le_prev hoff)).1

theorem matchIndex_handleAppendEntries (lib : WireLib) (s : RaftState)
    (req : AppendEntriesRequest) : (handleAppendEntries lib s req).2.matchIndex =
      (handleAppendEntries lib s req).1.lastLogIndex := by
  rcases lt_or_ge req.term s.currentTerm with hstale | hcurrent
  · rw [handleAppendEntries_stale hstale]
    rfl
  · rw [handleAppendEntries_current hcurrent]
    cases s.checkPrevLog req.prevLogIndex req.prevLogTerm <;> rfl

theorem wholeEntry_of_holds {s : RaftState} {h h' : List LogEntry} (hs : s.Holds lib h')
    (htake : h.take s.logOffset = h'.take s.logOffset) {i : ℕ} (hpos : 0 < i) :
    s.wholeEntry lib h i = h'[i - 1]? := by
  rw [RaftState.wholeEntry]
  split_ifs with hle
  · have hsame := congrArg (·[i - 1]?) htake
    simpa only [List.getElem?_take_of_lt (show i - 1 < s.logOffset by omega)] using hsame
  · exact hs.getEntry (not_le.mp hle)

theorem lastLogIndex_of_wire {s : RaftState} {h : List LogEntry} {n : ℕ}
    (hindexed : IndexedFrom 0 h) (hn : n < h.length)
    (hlog : s.log.map (LogEntry.onWire lib) = h.drop n) : s.lastLogIndex = h.length := by
  have hget : s.log.getLast?.map (LogEntry.onWire lib) = h.getLast? := by
    rw [← List.getLast?_map, hlog, List.getLast?_drop, if_neg (by omega)]
  have hend := hindexed.getLast?
  rw [RaftState.lastLogIndex]
  cases hentry : s.log.getLast? with
  | none =>
    rw [← hget, hentry] at hend
    change 0 = 0 + h.length at hend
    omega
  | some e =>
    rw [← hget, hentry] at hend
    exact hend.trans (Nat.zero_add _)

section Reply

variable (hL : L.Holds lib logL) (hF : F.Holds lib logF) (hslice : req.Slice lib logL)
  (hwire : (decodeEntries lib req.entries).map (LogEntry.onWire lib) =
    logL.drop req.prevLogIndex)
  (hsuccess : (handleAppendEntries lib F req).2.success = true)

include hL hF hslice hwire hsuccess

theorem agreement_of_checked (hmatch : Matching LogEntry.term logF logL)
    (hoff : F.logOffset ≤ req.prevLogIndex) :
    ((handleAppendEntries lib F req).2.matchIndex ≤ L.lastLogIndex ∧
      ∀ i, 0 < i → i ≤ (handleAppendEntries lib F req).2.matchIndex →
        (handleAppendEntries lib F req).1.wholeEntry lib logF i = logL[i - 1]?) ↔
    req.entries ≠ [] ∨ F.lastLogIndex ≤ req.prevLogIndex := by
  obtain ⟨hcurrent, hcheck⟩ := accept_of_success hsuccess
  obtain ⟨hprev, htake⟩ := hF.take_of_accept hslice hmatch hcheck hoff
  obtain ⟨-, -, hoffset, -⟩ := handleAppendEntries_follower lib hcurrent
  obtain ⟨h', success, hholds, hreply, hout⟩ := hF.handleAppendEntries hmatch hL.indexed hcurrent
    fun _ => ⟨hslice, hoff⟩
  have hlength := congrArg List.length hwire
  rw [List.length_map, hslice.decodable, List.length_drop] at hlength
  rw [hreply, hL.lastLogIndex, hF.lastLogIndex]
  cases hout with
  | rejected => rw [hreply] at hsuccess; cases hsuccess
  | cut he hpos hne => rw [hreply] at hsuccess; cases hsuccess
  | kept hnil hcheck =>
    rw [hnil, List.length_nil] at hlength
    have hend : logL.length = req.prevLogIndex := by
      have := hslice.prev_le
      omega
    rw [or_iff_right (not_not.mpr hnil), ← hend]
    refine ⟨fun h => h.1, fun hle => ⟨hle, fun i hpos _ => ?_⟩⟩
    have hsame : logF = logL := by
      rwa [← hend, List.take_length, List.take_of_length_le hle] at htake
    rw [wholeEntry_of_holds hholds rfl hpos, hsame]
  | copied hne hcheck =>
    have hwhole : logL.take (req.prevLogIndex + req.entries.length) = logL :=
      List.take_of_length_le (by omega)
    rw [hwhole] at hholds ⊢
    refine iff_of_true ⟨le_rfl, fun i hpos _ => ?_⟩ (.inl hne)
    refine wholeEntry_of_holds hholds ?_ hpos
    rw [hoffset]
    have hboth := congrArg (List.take F.logOffset) htake
    rwa [List.take_take, List.take_take, min_eq_left hoff] at hboth

/-- The request starts below the follower's offset, where nothing is checked: its entries replace
the stored log and are then read at the wrong indices. -/
theorem agreement_of_unchecked (hoff : req.prevLogIndex < F.logOffset) :
    ((handleAppendEntries lib F req).2.matchIndex ≤ L.lastLogIndex ∧
      ∀ i, 0 < i → i ≤ (handleAppendEntries lib F req).2.matchIndex →
        (handleAppendEntries lib F req).1.wholeEntry lib logF i = logL[i - 1]?) ↔
    req.entries ≠ [] ∧ L.lastLogIndex ≤ F.logOffset ∧ logF.take L.lastLogIndex = logL := by
  obtain ⟨-, -, hoffset, -⟩ := handleAppendEntries_follower lib (accept_of_success hsuccess).1
  have hlog := log_of_success hsuccess
  have hfollower := hF.offset_le
  have hlength := congrArg List.length hwire
  rw [List.length_map, hslice.decodable, List.length_drop] at hlength
  rw [matchIndex_handleAppendEntries, hL.lastLogIndex]
  by_cases hnil : req.entries = []
  · rw [if_pos hnil] at hlog
    have hlast : (handleAppendEntries lib F req).1.lastLogIndex = logF.length := by
      rw [RaftState.lastLogIndex, hlog, hoffset]
      exact hF.lastLogIndex
    rw [hnil, List.length_nil] at hlength
    refine iff_of_false (fun h => ?_) fun h => h.1 hnil
    have := h.1
    omega
  · rw [if_neg hnil, if_pos hoff] at hlog
    have hpos : 0 < req.entries.length := List.length_pos_of_ne_nil hnil
    have hindexed := hL.indexed
    have hat : ∀ j, ((decodeEntries lib req.entries)[j]?).map (LogEntry.onWire lib) =
        logL[req.prevLogIndex + j]? := fun j => by
      rw [← List.getElem?_map, hwire, List.getElem?_drop]
    have hlast : (handleAppendEntries lib F req).1.lastLogIndex = logL.length :=
      lastLogIndex_of_wire hindexed (by omega) (hlog ▸ hwire)
    rw [hlast, and_iff_right le_rfl, and_iff_right hnil]
    by_cases hle : logL.length ≤ F.logOffset
    · rw [and_iff_right hle, take_length_eq_iff]
      refine forall_congr' fun i => imp_congr_right fun _ => forall_congr' fun hi => ?_
      rw [RaftState.wholeEntry, if_pos (by omega)]
    · refine iff_of_false (fun hall => ?_) fun h => hle h.1
      -- the index just above the offset gets the first entry of the request
      have hfirst := hall (F.logOffset + 1) (Nat.succ_pos _) (by omega)
      rw [RaftState.wholeEntry, if_neg (by omega), RaftState.getEntry, if_neg (by omega), hlog,
        hoffset, show F.logOffset + 1 - F.logOffset - 1 = 0 by omega, hat 0] at hfirst
      have hsome : logL[req.prevLogIndex + 0]? = some logL[req.prevLogIndex] :=
        List.getElem?_eq_getElem (by omega)
      have hlow := hindexed _ _ hsome
      have hhigh := hindexed _ _ (hfirst.symm.trans hsome)
      omega

end Reply

/-- A successful reply reports agreement exactly when the request brought entries or found
nothing behind `prev_log_index`, and did not start in the part that the follower has compacted,
unless all of the leader's log is there. -/
theorem success_reports_agreement_iff (hL : L.Holds lib logL) (hF : F.Holds lib logF)
    (hmatch : Matching LogEntry.term logF logL) (hreq : BuiltFor lib L peer next req)
    (hsuccess : (handleAppendEntries lib F req).2.success = true) :
    ((handleAppendEntries lib F req).2.matchIndex ≤ L.lastLogIndex ∧
      ∀ i, 0 < i → i ≤ (handleAppendEntries lib F req).2.matchIndex →
        (handleAppendEntries lib F req).1.wholeEntry lib logF i = logL[i - 1]?) ↔
    (req.entries ≠ [] ∨ F.lastLogIndex ≤ req.prevLogIndex) ∧
      (F.logOffset ≤ req.prevLogIndex ∨
        (L.lastLogIndex ≤ F.logOffset ∧ logF.take L.lastLogIndex = logL)) := by
  obtain ⟨hslice, hwire⟩ := hreq.slice hL
  rcases le_or_gt F.logOffset req.prevLogIndex with hoff | hoff
  · rw [agreement_of_checked hL hF hslice hwire hsuccess hmatch hoff, and_iff_left (.inl hoff)]
  · have hlast : ¬ F.lastLogIndex ≤ req.prevLogIndex := by
      have := hF.offset_le
      rw [hF.lastLogIndex]
      omega
    rw [agreement_of_unchecked hL hF hslice hwire hsuccess hoff, or_iff_left hlast,
      or_iff_right (not_le.mpr hoff)]

end Agreement

def sentEntries (n : ℕ) : RaftState :=
  (handleAppendEntries .standard .new ⟨1, 1, 0, 0, (List.range' 1 n).map (⟨1, ·, none⟩), 1⟩).1

def leaderOfOneEntry : RaftState := ((sentEntries 1).becomeCandidate 2).becomeLeader 2 [1, 3, 4, 5]

def probe : AppendEntriesRequest := ⟨2, 2, 1, 1, [], 1⟩

theorem probe_of_equal_logs :
    (handleAppendEntries .standard (sentEntries 1) probe).2.matchIndex ≤
        leaderOfOneEntry.lastLogIndex ∧
      ∀ i, 0 < i → i ≤ (handleAppendEntries .standard (sentEntries 1) probe).2.matchIndex →
        (handleAppendEntries .standard (sentEntries 1) probe).1.wholeEntry .standard
            ((sentEntries 1).log.map (LogEntry.onWire .standard)) i =
          (leaderOfOneEntry.log.map (LogEntry.onWire .standard))[i - 1]? := by
  have hL : leaderOfOneEntry.Holds .standard _ := .of_aligned (by decide) (by decide) (by decide)
  have hF : (sentEntries 1).Holds .standard _ := .of_aligned (by decide) (by decide) (by decide)
  have hreq : BuiltFor .standard leaderOfOneEntry 3 2 probe :=
    ⟨by decide, by decide, 2, by decide⟩
  exact (success_reports_agreement_iff hL hF (matching_of_isPrefix (by decide)) hreq
    (by decide)).mpr ⟨.inr (by decide), .inl (by decide)⟩

/-- Node 3 has a second entry, which the leader has not. It accepts the probe and reports both. -/
theorem probe_of_longer_log :
    ¬ ∀ (lib : WireLib) (L F : RaftState) (logL logF : List LogEntry) (peer next : ℕ)
      (req : AppendEntriesRequest), L.Holds lib logL → F.Holds lib logF →
      Matching LogEntry.term logF logL → BuiltFor lib L peer next req →
      (handleAppendEntries lib F req).2.success = true →
      (handleAppendEntries lib F req).2.matchIndex ≤ L.lastLogIndex := by
  intro hall
  have hL : leaderOfOneEntry.Holds .standard _ := .of_aligned (by decide) (by decide) (by decide)
  have hF : (sentEntries 2).Holds .standard _ := .of_aligned (by decide) (by decide) (by decide)
  have hreq : BuiltFor .standard leaderOfOneEntry 3 2 probe :=
    ⟨by decide, by decide, 2, by decide⟩
  have hle := hall .standard leaderOfOneEntry (sentEntries 2) _ _ 3 2 probe hL hF
    (matching_of_isPrefix (by decide)) hreq (by decide)
  exact absurd hle (by decide)

end NomadLite
