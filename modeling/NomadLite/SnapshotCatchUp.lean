import NomadLite.CommitKept
import NomadLite.CommitProgress
import NomadLite.PeerRequests

/-!
# Catching up with a compacted log

The entries that a follower lacks may be compacted at the leader. `replicate_to_peers` then
sends its snapshot in their place and continues behind it. A pass sends a request only if there
is something to send: entries from `next_index` on, or a commit index that the follower is not
known to have. Positions are tried downwards, to the leader's offset at most or to that of the
follower, where a compacted part that the leader shares is accepted. After the snapshot one more
request is enough, and the leader falls silent only when the follower has its whole log.
-/

namespace NomadLite

open ReplicatedLog

namespace RaftState.Holds

variable {lib : WireLib} {s s' : RaftState} {h L : List LogEntry}

/-- A snapshot of `L` takes the place of the beginning; the entries above its index stay, whether
they follow it or not. -/
theorem overwrite (hs : s.Holds lib h) {snapshot : Snapshot} (hL : IndexedFrom 0 L)
    (hnew : s.logOffset < snapshot.lastIncludedIndex)
    (hterm : (L[snapshot.lastIncludedIndex - 1]?).map LogEntry.term =
      some snapshot.lastIncludedTerm)
    (hlog : s'.log = s.log.drop (snapshot.lastIncludedIndex - s.logOffset))
    (hoff : s'.logOffset = snapshot.lastIncludedIndex) (hsnap : s'.snapshot = some snapshot) :
    s'.Holds lib (L.take snapshot.lastIncludedIndex ++ h.drop snapshot.lastIncludedIndex) := by
  have hle : snapshot.lastIncludedIndex ≤ L.length := by
    obtain ⟨e, he, -⟩ := Option.map_eq_some_iff.mp hterm
    have := (List.getElem?_eq_some_iff.mp he).1
    omega
  have hlength : (L.take snapshot.lastIncludedIndex).length = snapshot.lastIncludedIndex :=
    List.length_take_of_le hle
  refine ⟨?_, ?_, (hL.take _).append ?_, fun hzero => by omega, fun _ =>
    ⟨snapshot, hsnap, hoff.symm, ?_⟩⟩
  · rw [hlog, hoff, List.map_drop, hs.log_eq, List.drop_drop, List.drop_left' hlength]
    congr 1
    omega
  · rw [List.length_append]
    omega
  · rw [hlength]
    exact hs.indexed.drop _
  · rw [hoff, List.getElem?_append_left (by omega), List.getElem?_take_of_lt (by omega), hterm]

theorem accept_of_offset (hs : s.Holds lib h) {req : AppendEntriesRequest}
    (hslice : req.Slice lib L) (htake : h.take s.logOffset = L.take s.logOffset)
    (hprev : req.prevLogIndex = s.logOffset) :
    s.checkPrevLog req.prevLogIndex req.prevLogTerm = .accept := by
  rw [checkPrevLog]
  split_ifs with hpos hlt
  · rfl
  · obtain ⟨snapshot, hsnap, -, hterm⟩ := hs.snapshot_of_take (hprev ▸ hpos) htake
    have hprevTerm := hslice.prev_term hpos
    rw [hprev, hterm] at hprevTerm
    rw [hsnap]
    exact if_neg (not_not.mpr (Option.some.inj hprevTerm))
  · rfl

theorem length_appendRequest (hs : s.Holds lib L) {peer next : ℕ} (myId : ℕ)
    (hnext : s.nextIndex.lookup peer = some next) (hoff : s.logOffset ≤ next - 1) :
    (s.appendRequest lib myId next).entries.length = L.length - (next - 1) := by
  obtain ⟨hwire, hlength⟩ := hs.decodeEntries_appendRequest myId hnext hoff
  rw [← hlength, ← List.length_drop, ← hwire, List.length_map]

/-- A peer that reported the whole log, and knows what is committed, is sent nothing. -/
theorem replicationMessage_eq_none (hs : s.Holds lib L) {peer m : ℕ} (myId : ℕ)
    (hnext : s.nextIndex.lookup peer = some (m + 1)) (hmatch : s.matchIndex.lookup peer = some m)
    (hle : L.length ≤ m) (hcommit : s.commitIndex ≤ L.length) :
    s.replicationMessage lib myId peer = none := by
  have hoff := hs.offset_le
  have hlength := hs.length_appendRequest myId hnext (by omega)
  rw [replicationMessage_of_above lib myId hnext (by omega), if_pos]
  exact ⟨List.length_eq_zero_iff.mp (by omega), by rw [hmatch]; exact hcommit.trans hle⟩

end RaftState.Holds

theorem success_of_accept (lib : WireLib) {s : RaftState} {req : AppendEntriesRequest}
    (hterm : s.currentTerm ≤ req.term)
    (hcheck : s.checkPrevLog req.prevLogIndex req.prevLogTerm = .accept) :
    (handleAppendEntries lib s req).2.success = true := by
  rw [handleAppendEntries_current hterm, hcheck]
  rfl

theorem handleInstallSnapshot_reply (lib : WireLib) (s : RaftState)
    (req : InstallSnapshotRequest) : (handleInstallSnapshot lib s req).2.term =
      (handleInstallSnapshot lib s req).1.currentTerm := by
  rw [handleInstallSnapshot]
  split_ifs <;> rfl

namespace Exchange

variable (lib : WireLib) (peer : ℕ)

/-- One pass of `replicate_to_peers` as far as `peer` is concerned, with the reply. -/
def replicate (x : Exchange) : Exchange :=
  match x.leader.state.replicationMessage lib x.leader.id peer with
  | some (.installSnapshot req) =>
    let (follower, resp) := handleInstallSnapshot lib x.follower req
    ⟨(x.leader.handleSnapshotReply peer req resp).node, follower⟩
  | some (.appendEntries _ req) =>
    let (follower, resp) := handleAppendEntries lib x.follower req
    ⟨(x.leader.handleAppendReply peer resp).node, follower⟩
  | _ => x

/-- The leader of the log `L`, compacted up to `k`, is about to send to a follower that agrees
with it on what the follower has compacted itself. -/
structure Lagging (L : List LogEntry) (k next : ℕ) (x : Exchange) : Prop where
  leader : x.leader.state.role = .leader
  term : x.follower.currentTerm = x.leader.state.currentTerm
  leaderHolds : x.leader.state.Holds lib L
  leaderOffset : x.leader.state.logOffset = k
  commit_le : x.leader.state.commitIndex ≤ L.length
  followerHolds : ∃ h, x.follower.Holds lib h ∧ Matching LogEntry.term h L ∧
    h.take x.follower.logOffset = L.take x.follower.logOffset
  followerOffset : x.follower.logOffset ≤ k ∨ x.follower.logOffset < next
  position : x.leader.state.nextIndex.lookup peer = some next
  next_pos : 1 ≤ next
  next_le : next ≤ L.length + 1
  unsent : next ≤ L.length ∨
    (x.leader.state.matchIndex.lookup peer).getD 0 < x.leader.state.commitIndex

structure CaughtUp (L : List LogEntry) (x : Exchange) : Prop where
  leaderHolds : x.leader.state.Holds lib L
  followerHolds : ∃ h, x.follower.Holds lib h ∧ L <+: h
  silent : x.leader.state.replicationMessage lib x.leader.id peer = none

variable {peer} {L : List LogEntry} {k next : ℕ} {x : Exchange}

theorem request_eq (hnext : x.leader.state.nextIndex.lookup peer = some next) :
    x.request lib peer = x.leader.state.appendRequest lib x.leader.id next := by
  rw [request, hnext, Option.getD_some]

variable {lib}

namespace Lagging

theorem replicate_eq_round (h : x.Lagging lib peer L k next) (hlow : k < next) :
    x.replicate lib peer = x.round lib peer := by
  have hoff := h.leaderOffset
  have hlength := h.leaderHolds.length_appendRequest x.leader.id h.position (by omega)
  have hsend : x.leader.state.replicationMessage lib x.leader.id peer =
      some (.appendEntries .replication (x.request lib peer)) := by
    rw [RaftState.replicationMessage_of_above lib _ h.position (by omega),
      request_eq lib h.position]
    refine if_neg fun hnone => ?_
    obtain ⟨hnil, hcommit⟩ := hnone
    rw [hnil, List.length_nil] at hlength
    rcases h.unsent with hle | hlt <;> omega
  rw [replicate, hsend]
  rfl

/-- After a rejection the leader tries the position before, which the follower still has. -/
theorem lower (h : x.Lagging lib peer L k next) (hlow : k < next) {h' : List LogEntry}
    (hreply : x.reply lib peer = ⟨(x.request lib peer).term, false, h'.length⟩)
    (hcheck : (x.request lib peer).prevLogIndex = x.follower.logOffset →
      x.follower.checkPrevLog (x.request lib peer).prevLogIndex
        (x.request lib peer).prevLogTerm = .accept)
    (hholds : (x.round lib peer).follower.Holds lib h') (hmatch : Matching LogEntry.term h' L)
    (htake : x.follower.logOffset < next - 1 →
      h'.take x.follower.logOffset = L.take x.follower.logOffset) :
    x.follower.logOffset ≠ next - 1 ∧ (x.round lib peer).Lagging lib peer L k (next - 1) := by
  have hterm : x.follower.currentTerm ≤ (x.request lib peer).term := h.term.le
  have hprev : (x.request lib peer).prevLogIndex = next - 1 := by
    rw [request_eq lib h.position]
    rfl
  have hne : x.follower.logOffset ≠ next - 1 := by
    intro hat
    have hsuccess := success_of_accept lib hterm (hcheck (hprev.trans hat.symm))
    have hfail : (x.reply lib peer).success = false := congrArg (·.success) hreply
    rw [reply, hsuccess] at hfail
    cases hfail
  have hlt : x.follower.logOffset < next - 1 := by
    rcases h.followerOffset with hle | hlt <;> omega
  obtain ⟨hcurrent, -, hoffset, -⟩ := handleAppendEntries_follower lib hterm
  have hround : (x.round lib peer).leader.state = { x.leader.state with
      nextIndex := x.leader.state.nextIndex.insert peer (next - 1) } :=
    RaftNode.handleAppendReply_of_failure h.leader (congrArg (·.term) hreply)
      (congrArg (·.success) hreply) h.position (by omega)
  have hfollower : (x.round lib peer).follower.logOffset = x.follower.logOffset := hoffset
  have hle := h.next_le
  refine ⟨hne, ?_, ?_, ?_, ?_, ?_, ⟨h', hholds, hmatch, ?_⟩, .inr ?_, ?_, by omega, by omega,
    .inl (by omega)⟩
  · rw [hround]
    exact h.leader
  · rw [hround]
    exact hcurrent
  · rw [hround]
    exact h.leaderHolds.congr rfl rfl rfl
  · rw [hround]
    exact h.leaderOffset
  · rw [hround]
    exact h.commit_le
  · rw [hfollower, htake hlt]
  · rw [hfollower]
    exact hlt
  · rw [hround]
    exact Finmap.lookup_insert _

/-- An acceptance reports a log that goes at least as far as the leader's. -/
theorem caughtUp (h : x.Lagging lib peer L k next) {h' : List LogEntry}
    (hreply : x.reply lib peer = ⟨(x.request lib peer).term, true, h'.length⟩)
    (hholds : (x.round lib peer).follower.Holds lib h') (hpre : L <+: h') :
    (x.round lib peer).CaughtUp lib peer L := by
  obtain ⟨commitIndex, hstate, -, hmoved⟩ := RaftNode.handleAppendReply_of_success peer h.leader
    (congrArg (·.term) hreply) (congrArg (·.success) hreply)
  have hround : (x.round lib peer).leader.state =
      { x.leader.state.recordMatch peer (x.reply lib peer).matchIndex with
        commitIndex := commitIndex } := hstate
  have hL : (x.round lib peer).leader.state.Holds lib L := by
    rw [hround]
    exact h.leaderHolds.congr rfl rfl rfl
  have hcommit : commitIndex ≤ L.length := by
    rcases hmoved with rfl | hmay
    · exact h.commit_le
    · obtain ⟨e, he, -⟩ := Option.map_eq_some_iff.mp hmay.2
      exact (h.leaderHolds.lt_length he).2
  have hmatch : (x.reply lib peer).matchIndex = h'.length := congrArg (·.matchIndex) hreply
  refine ⟨hL, ⟨h', hholds, hpre⟩, hL.replicationMessage_eq_none _ (m := h'.length) ?_ ?_
    hpre.length_le ?_⟩
  · rw [hround, hmatch]
    exact Finmap.lookup_insert _
  · rw [hround, hmatch]
    exact Finmap.lookup_insert _
  · rw [hround]
    exact hcommit

/-- A request either brings the follower up to the leader's log or lowers the position, and never
lowers it below the end of the follower's compacted part. -/
theorem of_append (h : x.Lagging lib peer L k next) (hlow : k < next) :
    (x.replicate lib peer).CaughtUp lib peer L ∨
      (x.follower.logOffset ≠ next - 1 ∧
        (x.replicate lib peer).Lagging lib peer L k (next - 1)) := by
  rw [h.replicate_eq_round hlow]
  obtain ⟨logF, hF, hmatch, htake⟩ := h.followerHolds
  have hrequest := request_eq lib h.position
  have hoffset := h.leaderOffset
  have hslice : (x.request lib peer).Slice lib L := by
    rw [hrequest]
    exact h.leaderHolds.slice_appendRequest h.position (.inl (by omega)) (.inr h.next_le)
  have hlength : (x.request lib peer).entries.length = L.length - (next - 1) := by
    rw [hrequest]
    exact h.leaderHolds.length_appendRequest _ h.position (by omega)
  have hprev : (x.request lib peer).prevLogIndex = next - 1 := by
    rw [hrequest]
    rfl
  have hoff : x.follower.logOffset ≤ (x.request lib peer).prevLogIndex := by
    rcases h.followerOffset with hle | hlt <;> omega
  have hterm : x.follower.currentTerm ≤ (x.request lib peer).term := h.term.le
  obtain ⟨h', success, hholds, hreply, hout⟩ :=
    hF.handleAppendEntries hmatch h.leaderHolds.indexed hterm fun _ => ⟨hslice, hoff⟩
  cases hout with
  | rejected =>
    exact .inr (h.lower hlow hreply (hF.accept_of_offset hslice htake) hholds hmatch fun _ => htake)
  | cut he hpos hne =>
    refine .inr (h.lower hlow hreply (hF.accept_of_offset hslice htake) hholds (hmatch.take _)
      fun hlt => ?_)
    rw [List.take_take, min_eq_left (by omega), htake]
  | kept hnil hcheck =>
    obtain ⟨-, hsame⟩ := hF.take_of_accept hslice hmatch hcheck hoff
    have hnone : (x.request lib peer).entries.length = 0 := congrArg List.length hnil
    rw [List.take_of_length_le (l := L) (by omega)] at hsame
    exact .inl (h.caughtUp hreply hholds (hsame ▸ List.take_prefix ..))
  | copied hne hcheck =>
    refine .inl (h.caughtUp hreply hholds ?_)
    rw [List.take_of_length_le (by omega)]

theorem install (h : x.Lagging lib peer L k next) (hlow : next ≤ k) (req : InstallSnapshotRequest)
    (hreq : req.term = x.leader.state.currentTerm) (hindex : req.lastIncludedIndex = k)
    (hterm : (L[k - 1]?).map LogEntry.term = some req.lastIncludedTerm) :
    (handleInstallSnapshot lib x.follower req).1.logOffset = k ∧
      ∃ h', (handleInstallSnapshot lib x.follower req).1.Holds lib h' ∧
        Matching LogEntry.term h' L ∧ h'.take k = L.take k := by
  subst hindex
  obtain ⟨logF, hF, hmatch, htake⟩ := h.followerHolds
  have hle : req.lastIncludedIndex ≤ L.length := h.leaderOffset ▸ h.leaderHolds.offset_le
  have hoff : x.follower.logOffset ≤ req.lastIncludedIndex := by
    rcases h.followerOffset with hle | hlt <;> omega
  rcases hoff.lt_or_eq with hlt | heq
  · have hinstalls : x.follower.Installs req := ⟨(h.term.trans hreq.symm).le, hlt⟩
    obtain ⟨hlog, hoff', -, -, hsnap⟩ := hinstalls.handleInstallSnapshot hF.aligned lib
    refine ⟨hoff', _, hF.overwrite h.leaderHolds.indexed hlt hterm hlog hoff' hsnap,
      hmatch.overwrite hle, ?_⟩
    exact List.take_left' (List.length_take_of_le hle)
  · have hcurrent : ¬ req.term < x.follower.currentTerm := by
      rw [hreq, h.term]
      exact lt_irrefl _
    have hkeep : (handleInstallSnapshot lib x.follower req).1 =
        { x.follower with leaderId := some req.leaderId } := by
      rw [handleInstallSnapshot, RaftState.adoptTerm_eq_self (hreq.trans h.term.symm).le,
        if_neg hcurrent]
      exact congrArg Prod.fst (if_pos heq.ge)
    rw [hkeep]
    exact ⟨heq, logF, hF.congr rfl rfl rfl, hmatch, heq ▸ htake⟩

/-- The snapshot is all there is, or the leader goes on right behind it. -/
theorem of_snapshot (h : x.Lagging lib peer L k next) (hlow : next ≤ k) :
    (x.replicate lib peer).CaughtUp lib peer L ∨
      ((x.replicate lib peer).follower.logOffset = k ∧
        (x.replicate lib peer).Lagging lib peer L k (k + 1)) := by
  have hpos : 0 < x.leader.state.logOffset := by
    have := h.next_pos
    have := h.leaderOffset
    omega
  obtain ⟨snapshot, hsnap, hindex, hterm⟩ := h.leaderHolds.snapshot_some hpos
  rw [h.leaderOffset] at hindex hterm
  have hle : k ≤ L.length := h.leaderOffset ▸ h.leaderHolds.offset_le
  have hsend : x.leader.state.replicationMessage lib x.leader.id peer = some (.installSnapshot
      (snapshot.toRequest lib x.leader.state.currentTerm x.leader.id)) := by
    have hbehind : next ≤ x.leader.state.logOffset := h.leaderOffset.symm ▸ hlow
    simp only [RaftState.replicationMessage, h.position, Option.getD_some, if_pos hbehind, hsnap]
  obtain ⟨hoff, h', hholds, hmatch, htake⟩ := h.install hlow (snapshot.toRequest lib
    x.leader.state.currentTerm x.leader.id) rfl hindex hterm
  have hcurrent : (handleInstallSnapshot lib x.follower (snapshot.toRequest lib
      x.leader.state.currentTerm x.leader.id)).1.currentTerm = x.leader.state.currentTerm := by
    rw [(handleInstallSnapshot_ballot lib ..).1, RaftState.adoptTerm_currentTerm, h.term]
    exact max_self _
  have hreply := handleInstallSnapshot_reply lib x.follower (snapshot.toRequest lib
    x.leader.state.currentTerm x.leader.id)
  have hleader : (x.replicate lib peer).leader.state = x.leader.state.recordMatch peer k := by
    simp only [replicate, hsend, RaftNode.handleSnapshotReply]
    rw [if_neg (by rw [hreply, hcurrent]; exact lt_irrefl _)]
    exact congrArg (x.leader.state.recordMatch peer) hindex
  have hfollower : (x.replicate lib peer).follower = (handleInstallSnapshot lib x.follower
      (snapshot.toRequest lib x.leader.state.currentTerm x.leader.id)).1 := by
    simp only [replicate, hsend]
  have hL : (x.replicate lib peer).leader.state.Holds lib L := by
    rw [hleader]
    exact h.leaderHolds.congr rfl rfl rfl
  rw [← hfollower] at hoff hholds hcurrent
  rcases hle.lt_or_eq with hlt | hall
  · refine .inr ⟨hoff, ?_, ?_, hL, ?_, ?_, ⟨h', hholds, hmatch, hoff ▸ htake⟩, .inl hoff.le, ?_,
      by omega, by omega, .inl (by omega)⟩
    · rw [hleader]
      exact h.leader
    · rw [hleader, hcurrent]
      rfl
    · rw [hleader]
      exact h.leaderOffset
    · rw [hleader]
      exact h.commit_le
    · rw [hleader]
      exact Finmap.lookup_insert _
  · rw [hall, List.take_length] at htake
    refine .inl ⟨hL, ⟨h', hholds, htake ▸ List.take_prefix ..⟩,
      hL.replicationMessage_eq_none _ (m := k) ?_ ?_ hall.ge ?_⟩
    · rw [hleader]
      exact Finmap.lookup_insert _
    · rw [hleader]
      exact Finmap.lookup_insert _
    · rw [hleader]
      exact h.commit_le

/-- The positions above the offset are tried one after the other; below it the snapshot and one
request behind it are enough. -/
theorem ends (h : x.Lagging lib peer L k next) :
    ∃ n ≤ next - k + 2, ((replicate lib peer)^[n] x).CaughtUp lib peer L := by
  induction next generalizing x with
  | zero => exact absurd h.next_pos (Nat.not_succ_le_zero 0)
  | succ next ih =>
    rcases Nat.lt_or_ge k (next + 1) with hlow | hlow
    · rcases h.of_append hlow with hdone | ⟨-, hlower⟩
      · exact ⟨1, by omega, hdone⟩
      · obtain ⟨n, hn, hdone⟩ := ih hlower
        exact ⟨n + 1, by omega, hdone⟩
    · rcases h.of_snapshot hlow with hdone | ⟨hoff, hbehind⟩
      · exact ⟨1, by omega, hdone⟩
      · rcases hbehind.of_append (Nat.lt_succ_self k) with hdone | ⟨hne, -⟩
        · exact ⟨2, by omega, hdone⟩
        · exact absurd hoff hne

end Lagging

/-- A message means that entries, or a commit index, are still to be sent. -/
theorem unsent_of_message (hL : x.leader.state.Holds lib L)
    (hnext : x.leader.state.nextIndex.lookup peer = some next) (hle : next ≤ L.length + 1)
    (hsend : x.leader.state.replicationMessage lib x.leader.id peer ≠ none) :
    next ≤ L.length ∨
      (x.leader.state.matchIndex.lookup peer).getD 0 < x.leader.state.commitIndex := by
  by_contra! hnone
  obtain ⟨hend, hcommit⟩ := hnone
  have hoff := hL.offset_le
  have hlength := hL.length_appendRequest x.leader.id hnext (by omega)
  rw [RaftState.replicationMessage_of_above lib _ hnext (by omega)] at hsend
  exact hsend (if_pos ⟨List.length_eq_zero_iff.mp (by omega), hcommit⟩)

def compactedLeader : Exchange where
  leader := { RaftNode.new 1 [2] with
    state := { RaftState.new with
      currentTerm := 3
      role := .leader
      log := [⟨3, 3, .noop⟩]
      commitIndex := 2
      lastApplied := 2
      logOffset := 2
      snapshot := some ⟨2, 2, [], []⟩
      nextIndex := (∅ : IndexMap).insert 2 3
      matchIndex := (∅ : IndexMap).insert 2 0 } }
  follower := { RaftState.new with currentTerm := 3, log := [⟨1, 1, .noop⟩, ⟨1, 2, .noop⟩] }

end Exchange
end NomadLite
