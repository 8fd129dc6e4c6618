import NomadLite.NodeTransition
import NomadLite.WholeLog

/-!
# Requests carry pieces of the leader's log

`replicate_to_peers` clones the log from the least `next_index` on and cuts the
request of each peer out of that. The request is a slice of the leader's log, with
the term of the entry before it, so the follower's consistency check compares its
own log with the leader's.
-/

namespace NomadLite

open ReplicatedLog

/-- The request carries the entries of `L` after `prev_log_index` and the term at it. -/
structure AppendEntriesRequest.Slice (lib : WireLib) (req : AppendEntriesRequest)
    (L : List LogEntry) : Prop where
  prev_le : req.prevLogIndex ≤ L.length
  prev_term : 0 < req.prevLogIndex →
    (L[req.prevLogIndex - 1]?).map LogEntry.term = some req.prevLogTerm
  entries : (decodeEntries lib req.entries).map (LogEntry.onWire lib) <+: L.drop req.prevLogIndex
  decodable : (decodeEntries lib req.entries).length = req.entries.length

theorem AppendEntriesRequest.Slice.grow {lib : WireLib} {req : AppendEntriesRequest}
    {L ext : List LogEntry} (h : req.Slice lib L) : req.Slice lib (L ++ ext) where
  prev_le := by
    rw [List.length_append]
    exact h.prev_le.trans (Nat.le_add_right _ _)
  prev_term hpos := by
    have := h.prev_le
    rw [List.getElem?_append_left (by omega)]
    exact h.prev_term hpos
  entries := by
    rw [List.drop_append_of_le_length h.prev_le]
    exact h.entries.trans (List.prefix_append _ _)
  decodable := h.decodable

theorem IndexedFrom.find? {base i : ℕ} {log : List LogEntry} (h : IndexedFrom base log)
    (hi : base < i) : log.find? (fun e => e.index = i) = log[i - base - 1]? := by
  induction log generalizing base with
  | nil => rfl
  | cons e log ih =>
    have he := h 0 e rfl
    by_cases hfirst : i = base + 1
    · rw [List.find?_cons_of_pos (by simp only [decide_eq_true_eq]; omega),
        show i - base - 1 = 0 by omega]
      rfl
    · rw [List.find?_cons_of_neg (by simp only [decide_eq_true_eq]; omega), ih h.tail (by omega),
        show i - base - 1 = i - (base + 1) - 1 + 1 by omega]
      rfl

namespace IndexMap

theorem mem_sortedValues {m : IndexMap} {v : ℕ} :
    v ∈ m.sortedValues ↔ ∃ k, m.lookup k = some v := by
  induction m using Finmap.induction_on with
  | _ al =>
    change v ∈ (al.entries.map Sigma.snd).insertionSort (· ≤ ·) ↔ ∃ k, al.lookup k = some v
    rw [List.mem_insertionSort]
    constructor
    · intro hv
      obtain ⟨⟨k, v'⟩, hmem, rfl⟩ := List.mem_map.mp hv
      exact ⟨k, AList.mem_lookup_iff.mpr hmem⟩
    · rintro ⟨k, hk⟩
      exact List.mem_map.mpr ⟨⟨k, v⟩, AList.mem_lookup_iff.mp hk, rfl⟩

theorem pairwise_sortedValues (m : IndexMap) : m.sortedValues.Pairwise (· ≤ ·) := by
  induction m using Finmap.induction_on with
  | _ al => exact List.pairwise_insertionSort _ _

theorem head_sortedValues_le {m : IndexMap} {k v : ℕ} (h : m.lookup k = some v) :
    m.sortedValues.head?.getD 1 ≤ v := by
  have hmem := mem_sortedValues.mpr ⟨k, h⟩
  have hsorted := m.pairwise_sortedValues
  cases hvalues : m.sortedValues with
  | nil =>
    rw [hvalues] at hmem
    cases hmem
  | cons w ws =>
    rw [hvalues] at hmem hsorted
    rcases List.mem_cons.mp hmem with rfl | hrest
    · exact le_rfl
    · exact (List.pairwise_cons.mp hsorted).1 v hrest

end IndexMap

theorem RaftState.getEntriesFrom_subset (s : RaftState) (start : ℕ) :
    s.getEntriesFrom start ⊆ s.log := by
  simp only [RaftState.getEntriesFrom]
  split_ifs with hfirst hlast
  all_goals first | exact List.nil_subset _ | exact List.drop_subset _ _

namespace RaftState.Aligned

variable {s : RaftState}

theorem getEntriesFrom (h : s.Aligned) {start : ℕ} (hstart : s.logOffset < start) :
    s.getEntriesFrom start = s.log.drop (start - s.logOffset - 1) := by
  have hmax : max start (s.logOffset + 1) = start := max_eq_left hstart
  rw [RaftState.getEntriesFrom, if_neg (by omega : start ≠ 0), hmax, h.lastLogIndex]
  split_ifs
  · exact (List.drop_eq_nil_of_le (by omega)).symm
  · exact (List.drop_eq_nil_of_le (by omega)).symm
  · rfl

/-- On an aligned log the entries from `start` on are a suffix of it. -/
theorem getEntriesFrom_succ (h : s.Aligned) (i : ℕ) :
    s.getEntriesFrom (i + 1) = s.log.drop (i - s.logOffset) := by
  rcases lt_or_ge i s.logOffset with hlt | hge
  · have hsame : s.getEntriesFrom (i + 1) = s.getEntriesFrom (s.logOffset + 1) := by
      simp only [RaftState.getEntriesFrom, Nat.succ_ne_zero, if_false,
        max_eq_right (by omega : i + 1 ≤ s.logOffset + 1), max_self]
    rw [hsame, h.getEntriesFrom (Nat.lt_succ_self _), show i - s.logOffset = 0 by omega,
      show s.logOffset + 1 - s.logOffset - 1 = 0 by omega]
  · rw [h.getEntriesFrom (by omega), show i + 1 - s.logOffset - 1 = i - s.logOffset by omega]

theorem replicationEntries (h : s.Aligned) {peer next : ℕ}
    (hnext : s.nextIndex.lookup peer = some next) :
    ∃ k, s.replicationEntries = s.log.drop k ∧ (k = 0 ∨ s.logOffset + k + 2 ≤ next) := by
  have hmin := IndexMap.head_sortedValues_le hnext
  refine ⟨_, h.getEntriesFrom (by omega), ?_⟩
  omega

theorem filter_replicationEntries (h : s.Aligned) {peer next : ℕ}
    (hnext : s.nextIndex.lookup peer = some next) (hprev : s.logOffset ≤ next - 1) :
    s.replicationEntries.filter (fun e => next ≤ e.index) =
      s.log.drop (next - 1 - s.logOffset) := by
  obtain ⟨k, hk, hkle⟩ := h.replicationEntries hnext
  have hindexed : IndexedFrom (s.logOffset + k) s.replicationEntries := hk ▸ h.drop k
  rcases Nat.eq_zero_or_pos next with hzero | hpos
  · have hall : s.replicationEntries.filter (fun e => next ≤ e.index) = s.replicationEntries :=
      List.filter_eq_self.mpr fun e _ => decide_eq_true (by omega)
    rw [hall, hk, show next - 1 - s.logOffset = k by omega]
  · have hdrop := hindexed.filter_eq_drop (next - 1 - s.logOffset - k)
    rw [show s.logOffset + k + (next - 1 - s.logOffset - k) + 1 = next by omega] at hdrop
    rw [hdrop, hk, List.drop_drop]
    congr 1
    omega

/-- The shared part of the log holds the entry before the ones that a peer is sent. -/
theorem find?_replicationEntries (h : s.Aligned) {peer next : ℕ}
    (hnext : s.nextIndex.lookup peer = some next) (hprev : s.logOffset < next - 1) :
    s.replicationEntries.find? (fun e => e.index = next - 1) = s.getEntry (next - 1) := by
  obtain ⟨k, hk, hkle⟩ := h.replicationEntries hnext
  have hindexed : IndexedFrom (s.logOffset + k) s.replicationEntries := hk ▸ h.drop k
  rw [hindexed.find? (by omega), hk, List.getElem?_drop, RaftState.getEntry, if_neg (by omega)]
  congr 1
  omega

end RaftState.Aligned

namespace RaftState.Holds

variable {lib : WireLib} {s : RaftState} {h L : List LogEntry}

/-- A request is only built for a peer whose `next_index` is above the offset. -/
theorem offset_le_prev (hs : s.Holds lib h) {next : ℕ}
    (hoff : s.logOffset < next ∨ s.snapshot = none) : s.logOffset ≤ next - 1 := by
  rcases hoff with hlt | hnone
  · omega
  · rcases Nat.eq_zero_or_pos s.logOffset with hzero | hpos
    · omega
    · obtain ⟨snapshot, hsnap, -⟩ := hs.snapshot_some hpos
      rw [hsnap] at hnone
      cases hnone

/-- The receiver decodes the whole log of the sender from `next_index` on. -/
theorem decodeEntries_appendRequest (hs : s.Holds lib h) {peer next : ℕ} (myId : ℕ)
    (hnext : s.nextIndex.lookup peer = some next) (hprev : s.logOffset ≤ next - 1) :
    (decodeEntries lib (s.appendRequest lib myId next).entries).map (LogEntry.onWire lib) =
        h.drop (next - 1) ∧
      (decodeEntries lib (s.appendRequest lib myId next).entries).length =
        (s.appendRequest lib myId next).entries.length := by
  have hfilter := hs.aligned.filter_replicationEntries hnext hprev
  have hdecode : decodeEntries lib (s.appendRequest lib myId next).entries =
      (s.log.drop (next - 1 - s.logOffset)).map (LogEntry.onWire lib) :=
    hfilter ▸ filterMap_protoToLogEntry lib _
  constructor
  · rw [hdecode, List.map_map, show LogEntry.onWire lib ∘ LogEntry.onWire lib = LogEntry.onWire lib
      from funext (LogEntry.onWire_onWire lib), List.map_drop, hs.log_eq, List.drop_drop,
      Nat.add_sub_cancel' hprev]
  · rw [hdecode, ← hfilter, List.length_map]
    exact (List.length_map _).symm

theorem slice_appendRequest (hs : s.Holds lib h) {myId peer next : ℕ}
    (hnext : s.nextIndex.lookup peer = some next) (hoff : s.logOffset < next ∨ s.snapshot = none)
    (hle : (s.appendRequest lib myId next).entries ≠ [] ∨ next ≤ h.length + 1) :
    (s.appendRequest lib myId next).Slice lib h := by
  have hprev := hs.offset_le_prev hoff
  obtain ⟨hwire, hlength⟩ := hs.decodeEntries_appendRequest myId hnext hprev
  have hprevle : next - 1 ≤ h.length := by
    rcases hle with hne | hle
    · by_contra hgt
      have hlen := congrArg List.length hwire
      rw [List.length_map, hlength, List.length_drop] at hlen
      exact hne (List.length_eq_zero_iff.mp (by omega))
    · omega
  refine ⟨hprevle, fun hpos => ?_, hwire ▸ List.prefix_rfl, hlength⟩
  change (h[next - 1 - 1]?).map LogEntry.term =
    some (s.prevLogTerm s.replicationEntries (next - 1))
  have hpos : 0 < next - 1 := hpos
  rw [RaftState.prevLogTerm, if_neg (by omega)]
  by_cases hat : next - 1 = s.logOffset
  · obtain ⟨snapshot, hsnap, -, hterm⟩ := hs.snapshot_some (by omega)
    rw [if_pos hat, hat, hterm, hsnap]
    rfl
  · have hget := hs.aligned.find?_replicationEntries hnext (by omega)
    obtain ⟨e, he⟩ : ∃ e, h[next - 1 - 1]? = some e :=
      ⟨_, List.getElem?_eq_getElem (by omega)⟩
    have hterm := hs.getEntry_term (show s.logOffset < next - 1 by omega)
    rw [if_neg hat, hget, hterm, he]
    rfl

theorem slice_heartbeatRequest (lib : WireLib) (s : RaftState) (myId : ℕ) (L : List LogEntry) :
    (s.heartbeatRequest myId).Slice lib L :=
  ⟨Nat.zero_le _, fun hpos => absurd hpos (lt_irrefl 0), List.nil_prefix, rfl⟩

/-! ### The consistency check -/

variable {req : AppendEntriesRequest}

theorem term_of_accept (hs : s.Holds lib h) {prevLogIndex prevLogTerm : ℕ}
    (hcheck : s.checkPrevLog prevLogIndex prevLogTerm = .accept)
    (hoff : s.logOffset ≤ prevLogIndex) (hpos : 0 < prevLogIndex) :
    (h[prevLogIndex - 1]?).map LogEntry.term = some prevLogTerm := by
  rw [RaftState.checkPrevLog, if_pos hpos, if_neg (by omega)] at hcheck
  by_cases hat : prevLogIndex = s.logOffset
  · obtain ⟨snapshot, hsnap, -, hterm⟩ := hs.snapshot_some (by omega)
    simp only [if_pos hat, hsnap] at hcheck
    split_ifs at hcheck with hne
    rw [hat, hterm, not_not.mp hne]
  · rw [if_neg hat] at hcheck
    cases hget : s.getEntry prevLogIndex with
    | none =>
      rw [hget] at hcheck
      cases hcheck
    | some e =>
      simp only [hget] at hcheck
      split_ifs at hcheck with hne
      rw [← hs.getEntry_term (by omega), hget, Option.map_some, not_not.mp hne]

theorem term_of_mismatch (hs : s.Holds lib h) {prevLogIndex prevLogTerm : ℕ}
    (hcheck : s.checkPrevLog prevLogIndex prevLogTerm = .mismatch) :
    s.logOffset < prevLogIndex ∧ ∃ e, h[prevLogIndex - 1]? = some e ∧ e.term ≠ prevLogTerm := by
  simp only [RaftState.checkPrevLog] at hcheck
  split_ifs at hcheck with hpos hbelow hat
  · cases hsnap : s.snapshot with
    | none =>
      rw [hsnap] at hcheck
      cases hcheck
    | some snapshot =>
      simp only [hsnap] at hcheck
      split_ifs at hcheck
  · refine ⟨by omega, ?_⟩
    cases hget : s.getEntry prevLogIndex with
    | none =>
      rw [hget] at hcheck
      cases hcheck
    | some e =>
      simp only [hget] at hcheck
      split_ifs at hcheck with hne
      refine ⟨e.onWire lib, ?_, hne⟩
      rw [← hs.getEntry (by omega), hget, Option.map_some]

/-- An accepted request finds the follower's log equal to the leader's up to `prev_log_index`. -/
theorem take_of_accept (hs : s.Holds lib h) (hreq : req.Slice lib L)
    (hmatch : Matching LogEntry.term h L)
    (hcheck : s.checkPrevLog req.prevLogIndex req.prevLogTerm = .accept)
    (hoff : s.logOffset ≤ req.prevLogIndex) :
    req.prevLogIndex ≤ h.length ∧ h.take req.prevLogIndex = L.take req.prevLogIndex := by
  rcases Nat.eq_zero_or_pos req.prevLogIndex with hzero | hpos
  · rw [hzero]
    exact ⟨Nat.zero_le _, rfl⟩
  · obtain ⟨e, he, hterm⟩ := Option.map_eq_some_iff.mp (hs.term_of_accept hcheck hoff hpos)
    obtain ⟨e', he', hterm'⟩ := Option.map_eq_some_iff.mp (hreq.prev_term hpos)
    have htake := hmatch _ e e' he he' (hterm.trans hterm'.symm)
    rw [Nat.sub_add_cancel hpos] at htake
    have := (List.getElem?_eq_some_iff.mp he).1
    exact ⟨by omega, htake⟩

end RaftState.Holds

/-! ### What the handlers do to the whole log -/

/-- How a request of an acceptable term changes the whole log `h`, and whether it reports success:
`L` is the log that its entries come from. -/
inductive AppendOutcome (s : RaftState) (req : AppendEntriesRequest) (h L : List LogEntry) :
    List LogEntry → Bool → Prop where
  | rejected : AppendOutcome s req h L h false
  | cut {e : LogEntry} (he : h[req.prevLogIndex - 1]? = some e) (hpos : 0 < req.prevLogIndex)
      (hne : e.term ≠ req.prevLogTerm) :
      AppendOutcome s req h L (h.take (req.prevLogIndex - 1)) false
  | kept (hnil : req.entries = [])
      (hcheck : s.checkPrevLog req.prevLogIndex req.prevLogTerm = .accept) :
      AppendOutcome s req h L h true
  | copied (hne : req.entries ≠ [])
      (hcheck : s.checkPrevLog req.prevLogIndex req.prevLogTerm = .accept) :
      AppendOutcome s req h L (L.take (req.prevLogIndex + req.entries.length)) true

namespace RaftState.Holds

variable {lib : WireLib} {s : RaftState} {h L : List LogEntry}

theorem appendReply (hs : s.Holds lib h) {t : ℕ} (ht : s.currentTerm = t) (success : Bool) :
    s.appendReply success = ⟨t, success, h.length⟩ := by
  rw [RaftState.appendReply, ht, hs.lastLogIndex]

theorem handleAppendEntries {req : AppendEntriesRequest} (hs : s.Holds lib h)
    (hmatch : Matching LogEntry.term h L) (hindexed : IndexedFrom 0 L)
    (hge : s.currentTerm ≤ req.term)
    (hreq : req.entries ≠ [] → req.Slice lib L ∧ s.logOffset ≤ req.prevLogIndex) :
    ∃ h' success, (NomadLite.handleAppendEntries lib s req).1.Holds lib h' ∧
      (NomadLite.handleAppendEntries lib s req).2 = ⟨req.term, success, h'.length⟩ ∧
      AppendOutcome s req h L h' success := by
  have hfollow : (s.follow req.term req.leaderId).Holds lib h :=
    hs.congr follow_log follow_logOffset follow_snapshot
  have hterm := s.follow_currentTerm req.leaderId hge
  rw [handleAppendEntries_current hge]
  cases hcheck : s.checkPrevLog req.prevLogIndex req.prevLogTerm with
  | reject => exact ⟨h, false, hfollow, hfollow.appendReply hterm _, .rejected⟩
  | mismatch =>
    obtain ⟨hoff, e, he, hne⟩ := hs.term_of_mismatch hcheck
    have hlog : s.log.take (req.prevLogIndex - s.logOffset - 1) =
        (s.follow req.term req.leaderId).log.take
          (req.prevLogIndex - 1 - (s.follow req.term req.leaderId).logOffset) := by
      rw [follow_log, follow_logOffset, Nat.sub_right_comm]
    have hcut := hfollow.cut (n := req.prevLogIndex - 1) (by rw [follow_logOffset]; omega)
    rw [← hlog] at hcut
    exact ⟨h.take (req.prevLogIndex - 1), false, hcut, hcut.appendReply hterm _,
      .cut he (by omega) hne⟩
  | accept =>
    have hcommit : ∀ t : RaftState, (t.updateCommitIndex req.leaderCommit).log = t.log ∧
        (t.updateCommitIndex req.leaderCommit).logOffset = t.logOffset ∧
        (t.updateCommitIndex req.leaderCommit).snapshot = t.snapshot ∧
        (t.updateCommitIndex req.leaderCommit).currentTerm = t.currentTerm := fun t => by
      rw [RaftState.updateCommitIndex]
      split_ifs <;> exact ⟨rfl, rfl, rfl, rfl⟩
    obtain ⟨hlog, hoff, hsnap, hcur⟩ :=
      hcommit ((s.follow req.term req.leaderId).appendNewEntries lib req)
    by_cases hnil : req.entries = []
    · have hsame : (s.follow req.term req.leaderId).appendNewEntries lib req =
          s.follow req.term req.leaderId := if_pos hnil
      have hholds := (hsame ▸ hfollow).congr hlog hoff hsnap
      exact ⟨h, true, hholds, hholds.appendReply (by rw [hcur, hsame, hterm]) _,
        .kept hnil hcheck⟩
    · obtain ⟨hslice, hbase⟩ := hreq hnil
      obtain ⟨hle, htake⟩ := hs.take_of_accept hslice hmatch hcheck hbase
      have hsplice := hfollow.splice (by rwa [follow_logOffset]) hle htake hindexed hslice.entries
      have hnew : (s.follow req.term req.leaderId).appendNewEntries lib req =
          (s.follow req.term req.leaderId).truncateAndAppend (req.prevLogIndex + 1)
            (decodeEntries lib req.entries) := if_neg hnil
      have hholds := (hnew ▸ hsplice).congr hlog hoff hsnap
      rw [hslice.decodable] at hholds
      have hsameTerm : ((s.follow req.term req.leaderId).appendNewEntries lib req).currentTerm =
          req.term := by
        obtain ⟨log, heq⟩ := (s.follow req.term req.leaderId).appendNewEntries_eq lib req
        rw [heq]
        exact hterm
      exact ⟨_, true, hholds, hholds.appendReply (hcur.trans hsameTerm) _, .copied hnil hcheck⟩

theorem handleInstallSnapshot {req : InstallSnapshotRequest} (hs : s.Holds lib h)
    (hindexed : IndexedFrom 0 L)
    (hterm : (L[req.lastIncludedIndex - 1]?).map LogEntry.term = some req.lastIncludedTerm)
    (hcond : s.currentTerm ≤ req.term → s.logOffset < req.lastIncludedIndex →
      (s.getEntry req.lastIncludedIndex).map LogEntry.term = some req.lastIncludedTerm ∨
        s.lastLogIndex ≤ req.lastIncludedIndex) :
    ∃ h', (NomadLite.handleInstallSnapshot lib s req).1.Holds lib h' ∧
      s.logOffset ≤ (NomadLite.handleInstallSnapshot lib s req).1.logOffset ∧
      (h' = h ∨ (s.currentTerm ≤ req.term ∧ h.length ≤ req.lastIncludedIndex ∧
        h' = L.take req.lastIncludedIndex)) := by
  have hadopt : (s.adoptTerm req.term).Holds lib h :=
    hs.congr adoptTerm_log adoptTerm_logOffset adoptTerm_snapshot
  rw [NomadLite.handleInstallSnapshot]
  split_ifs with hstale
  · exact ⟨h, hadopt, adoptTerm_logOffset.ge, .inl rfl⟩
  · have hge : s.currentTerm ≤ req.term := by
      rw [adoptTerm_currentTerm] at hstale
      omega
    have hled : { s.adoptTerm req.term with leaderId := some req.leaderId }.Holds lib h :=
      hadopt.congr rfl rfl rfl
    rcases le_or_gt req.lastIncludedIndex s.logOffset with hold | hnew
    · have hkeep : ({ s.adoptTerm req.term with leaderId := some req.leaderId }.installSnapshot
          (req.toSnapshot lib)).1 =
            { s.adoptTerm req.term with leaderId := some req.leaderId } := by
        rw [RaftState.installSnapshot]
        exact congrArg Prod.fst (if_pos (adoptTerm_logOffset.symm ▸ hold))
      dsimp only
      rw [hkeep]
      exact ⟨h, hled, adoptTerm_logOffset.ge, .inl rfl⟩
    · have hoff : { s.adoptTerm req.term with leaderId := some req.leaderId }.logOffset <
          (req.toSnapshot lib).lastIncludedIndex := adoptTerm_logOffset.trans_lt hnew
      obtain ⟨hlog', hoff', hsnap'⟩ := hled.installSnapshot_log hoff
      have hmono : s.logOffset ≤ req.lastIncludedIndex := hnew.le
      rcases hcond hge hnew with hsame | hpast
      · rw [hs.getEntry_term hnew] at hsame
        exact ⟨h, hled.compact hoff hsame hlog' hoff' hsnap', hmono.trans_eq hoff'.symm, .inl rfl⟩
      · rw [hs.lastLogIndex] at hpast
        exact ⟨_, hled.replace hindexed hoff hpast hterm hlog' hoff' hsnap',
          hmono.trans_eq hoff'.symm, .inr ⟨hge, hpast, rfl⟩⟩

end RaftState.Holds
end NomadLite
