import NomadLite.LogRequests
import NomadLite.RepeatedRequests
import NomadLite.StandardWire

/-!
# Catching up

A leader probes a follower with `next_index` and lowers it by one with every rejection.
An `Exchange` is a leader and a follower that talk to each other and to nobody else; a
round is one request, built as `replicate_to_peers` builds it, its handling and the
handling of its reply. Rejections may cut the follower's log but never its agreement
with the leader's, so the position is lowered at most to the beginning of the log.
-/

namespace NomadLite

open ReplicatedLog

structure Exchange where
  leader : RaftNode
  follower : RaftState

namespace Exchange

variable (lib : WireLib) (peer : ℕ)

def request (x : Exchange) : AppendEntriesRequest :=
  x.leader.state.appendRequest lib x.leader.id ((x.leader.state.nextIndex.lookup peer).getD 1)

def reply (x : Exchange) : AppendEntriesResponse :=
  (handleAppendEntries lib x.follower (x.request lib peer)).2

def round (x : Exchange) : Exchange where
  leader := (x.leader.handleAppendReply peer (x.reply lib peer)).node
  follower := (handleAppendEntries lib x.follower (x.request lib peer)).1

def after (x : Exchange) (n : ℕ) : Exchange := (round lib peer)^[n] x

/-- The leader still has to find the position up to which the logs agree: it is about to try
`next`. -/
structure Probing (L : List LogEntry) (next : ℕ) (x : Exchange) : Prop where
  leader : x.leader.state.role = .leader
  term : x.follower.currentTerm = x.leader.state.currentTerm
  leaderHolds : x.leader.state.Holds lib L
  followerHolds : ∃ h, x.follower.Holds lib h ∧ Matching LogEntry.term h L
  leaderOffset : x.leader.state.logOffset = 0
  followerOffset : x.follower.logOffset = 0
  position : x.leader.state.nextIndex.lookup peer = some next
  next_pos : 1 ≤ next
  next_le : next ≤ L.length + 1

end Exchange

theorem RaftNode.log_handleAppendReply (nd : RaftNode) (peer : ℕ) (resp : AppendEntriesResponse) :
    (nd.handleAppendReply peer resp).node.state.log = nd.state.log := by
  unfold handleAppendReply
  split_ifs
  · rfl
  · dsimp only
    split_ifs <;> rfl
  · obtain ⟨nextIndex, hdecrement⟩ := nd.state.decrementNext_eq peer
    change (nd.state.decrementNext peer).log = _
    rw [hdecrement]
  · rfl

/-- A rejection of the leader's own term lowers `next_index`. -/
theorem RaftNode.handleAppendReply_of_failure {nd : RaftNode} {peer next : ℕ}
    {resp : AppendEntriesResponse} (hleader : nd.state.role = .leader)
    (hterm : resp.term = nd.state.currentTerm) (hfail : resp.success = false)
    (hnext : nd.state.nextIndex.lookup peer = some next) (hpos : 1 < next) :
    (nd.handleAppendReply peer resp).node.state =
      { nd.state with nextIndex := nd.state.nextIndex.insert peer (next - 1) } := by
  have hdecrement : nd.state.decrementNext peer =
      { nd.state with nextIndex := nd.state.nextIndex.insert peer (next - 1) } := by
    simp only [RaftState.decrementNext, hnext, Option.getD_some, if_pos hpos]
  have hrejected : ¬ resp.success = true := by
    rw [hfail]
    exact Bool.false_ne_true
  rw [handleAppendReply, if_neg (by omega), if_neg fun hc => hrejected hc.2,
    if_pos ⟨hleader, hrejected⟩]
  exact hdecrement

namespace Exchange

variable {lib : WireLib} {peer next : ℕ} {L : List LogEntry} {x : Exchange}

namespace Probing

theorem success_of_first (h : x.Probing lib peer L 1) : (x.reply lib peer).success = true := by
  have hterm : x.follower.currentTerm ≤ (x.request lib peer).term := h.term.le
  have hprev : (x.request lib peer).prevLogIndex = 0 := by
    change (x.leader.state.nextIndex.lookup peer).getD 1 - 1 = 0
    rw [h.position]
    rfl
  rw [reply, handleAppendEntries_current hterm, hprev]
  rfl

theorem lower (h : x.Probing lib peer L next) {h' : List LogEntry}
    (hreply : x.reply lib peer = ⟨(x.request lib peer).term, false, h'.length⟩)
    (hholds : (x.round lib peer).follower.Holds lib h') (hmatch : Matching LogEntry.term h' L) :
    1 < next ∧ (x.round lib peer).Probing lib peer L (next - 1) := by
  have hpos : 1 < next := by
    refine lt_of_le_of_ne h.next_pos fun hone => ?_
    subst hone
    have hsuccess := h.success_of_first
    rw [hreply] at hsuccess
    cases hsuccess
  have hterm : x.follower.currentTerm ≤ (x.request lib peer).term := h.term.le
  obtain ⟨hcurrent, -, hoffset, -⟩ := handleAppendEntries_follower lib hterm
  have hleader := RaftNode.handleAppendReply_of_failure h.leader (congrArg (·.term) hreply)
    (congrArg (·.success) hreply) h.position hpos
  have hround : (x.round lib peer).leader.state = { x.leader.state with
    nextIndex := x.leader.state.nextIndex.insert peer (next - 1) } := hleader
  have hle := h.next_le
  refine ⟨hpos, ?_, ?_, ?_, ⟨h', hholds, hmatch⟩, ?_, ?_, ?_, by omega, by omega⟩
  · rw [hround]
    exact h.leader
  · rw [hround]
    exact hcurrent
  · rw [hround]
    exact h.leaderHolds.congr rfl rfl rfl
  · rw [hround]
    exact h.leaderOffset
  · exact hoffset.trans h.followerOffset
  · rw [hround]
    exact Finmap.lookup_insert _

theorem round (h : x.Probing lib peer L next) :
    ((x.reply lib peer).success = true ∧
        L <+: (x.round lib peer).follower.log.map (LogEntry.onWire lib)) ∨
      ((x.reply lib peer).success = false ∧ 1 < next ∧
        (x.round lib peer).Probing lib peer L (next - 1)) := by
  obtain ⟨logF, hF, hmatch⟩ := h.followerHolds
  have hrequest : x.request lib peer = x.leader.state.appendRequest lib x.leader.id next := by
    rw [request, h.position, Option.getD_some]
  have hslice : (x.request lib peer).Slice lib L := by
    have hpos := h.next_pos
    rw [hrequest]
    exact h.leaderHolds.slice_appendRequest h.position (.inl (h.leaderOffset ▸ hpos))
      (.inr h.next_le)
  have hlength : (x.request lib peer).entries.length = L.length - (next - 1) := by
    obtain ⟨hwire, hlen⟩ := h.leaderHolds.decodeEntries_appendRequest x.leader.id h.position
      (h.leaderOffset ▸ Nat.zero_le _)
    have := congrArg List.length hwire
    rw [List.length_map, hlen, List.length_drop] at this
    rw [hrequest, this]
  have hprev : (x.request lib peer).prevLogIndex = next - 1 := by
    rw [hrequest]
    rfl
  have hoff : x.follower.logOffset ≤ (x.request lib peer).prevLogIndex :=
    h.followerOffset ▸ Nat.zero_le _
  have hterm : x.follower.currentTerm ≤ (x.request lib peer).term := h.term.le
  obtain ⟨h', success, hholds, hreply, hout⟩ :=
    hF.handleAppendEntries hmatch h.leaderHolds.indexed hterm fun _ => ⟨hslice, hoff⟩
  obtain ⟨-, -, hoffset, -⟩ := handleAppendEntries_follower lib hterm
  have hlog : (x.round lib peer).follower.log.map (LogEntry.onWire lib) = h' := by
    have hdrop := hholds.log_eq
    rwa [hoffset, h.followerOffset, List.drop_zero] at hdrop
  have hsuccess : (x.reply lib peer).success = success := congrArg (·.success) hreply
  cases hout with
  | rejected => exact .inr ⟨hsuccess, h.lower hreply hholds hmatch⟩
  | cut he hpos hne => exact .inr ⟨hsuccess, h.lower hreply hholds (hmatch.take _)⟩
  | kept hnil hcheck =>
    -- nothing is sent, so the position before `next_index` is the end of the leader's log
    obtain ⟨-, htake⟩ := hF.take_of_accept hslice hmatch hcheck hoff
    have hnone : (x.request lib peer).entries.length = 0 := congrArg List.length hnil
    rw [List.take_of_length_le (l := L) (by omega)] at htake
    exact .inl ⟨hsuccess, hlog ▸ htake ▸ List.take_prefix ..⟩
  | copied hne hcheck =>
    refine .inl ⟨hsuccess, ?_⟩
    rw [hlog, List.take_of_length_le (by omega)]

theorem terminates (h : x.Probing lib peer L next) :
    ∃ n < next, (∀ m < n, ((x.after lib peer m).reply lib peer).success = false) ∧
      ((x.after lib peer n).reply lib peer).success = true ∧
      L <+: (x.after lib peer (n + 1)).follower.log.map (LogEntry.onWire lib) := by
  induction next generalizing x with
  | zero => exact absurd h.next_pos (by omega)
  | succ next ih =>
    rcases h.round with ⟨hsuccess, hlog⟩ | ⟨hfail, -, hprobing⟩
    · exact ⟨0, Nat.succ_pos _, fun m hm => absurd hm (Nat.not_lt_zero m), hsuccess, hlog⟩
    · obtain ⟨n, hn, hbefore, hsuccess, hlog⟩ := ih hprobing
      refine ⟨n + 1, by omega, fun m hm => ?_, hsuccess, hlog⟩
      cases m with
      | zero => exact hfail
      | succ m => exact hbefore m (by omega)

end Probing

theorem leader_log_after (lib : WireLib) (peer : ℕ) (x : Exchange) (n : ℕ) :
    (x.after lib peer n).leader.state.log = x.leader.state.log := by
  induction n generalizing x with
  | zero => rfl
  | succ n ih => exact (ih (x.round lib peer)).trans (RaftNode.log_handleAppendReply ..)

/-- Two nodes without compacted entries, in one term, whose logs match on the wire: after at most
`next_index` rounds the follower accepts, and then has the leader's whole log. -/
theorem catch_up_terminates (lib : WireLib) {x : Exchange} {peer next : ℕ}
    (hleader : x.leader.state.role = .leader)
    (hterm : x.follower.currentTerm = x.leader.state.currentTerm)
    (haligned : x.leader.state.Aligned ∧ x.follower.Aligned)
    (hoffset : x.leader.state.logOffset = 0 ∧ x.follower.logOffset = 0)
    (hsnapshot : x.leader.state.snapshot = none ∧ x.follower.snapshot = none)
    (hmatch : Matching LogEntry.term (x.follower.log.map (LogEntry.onWire lib))
      (x.leader.state.log.map (LogEntry.onWire lib)))
    (hnext : x.leader.state.nextIndex.lookup peer = some next) (hpos : 1 ≤ next)
    (hle : next ≤ x.leader.state.lastLogIndex + 1) :
    ∃ n < next, (∀ m < n, ((x.after lib peer m).reply lib peer).success = false) ∧
      ((x.after lib peer n).reply lib peer).success = true ∧
      (x.after lib peer (n + 1)).leader.state.log = x.leader.state.log ∧
      x.leader.state.log.map (LogEntry.onWire lib) <+:
        (x.after lib peer (n + 1)).follower.log.map (LogEntry.onWire lib) := by
  have hL : x.leader.state.Holds lib _ := .of_aligned haligned.1 hoffset.1 hsnapshot.1
  have hF : x.follower.Holds lib _ := .of_aligned haligned.2 hoffset.2 hsnapshot.2
  have hprobing : x.Probing lib peer (x.leader.state.log.map (LogEntry.onWire lib)) next :=
    ⟨hleader, hterm, hL, ⟨_, hF, hmatch⟩, hoffset.1, hoffset.2, hnext, hpos,
      hL.lastLogIndex ▸ hle⟩
  obtain ⟨n, hn, hbefore, hsuccess, hlog⟩ := hprobing.terminates
  exact ⟨n, hn, hbefore, hsuccess, x.leader_log_after lib peer (n + 1), hlog⟩

def conflictingLogs : Exchange where
  leader := { RaftNode.new 1 [2] with
    state := { RaftState.new with
      currentTerm := 2
      role := .leader
      log := [⟨1, 1, .noop⟩, ⟨2, 2, .noop⟩]
      nextIndex := (∅ : IndexMap).insert 2 3 } }
  follower := { RaftState.new with currentTerm := 2, log := [⟨1, 1, .noop⟩, ⟨1, 2, .noop⟩] }

theorem conflicting_logs_catch_up :
    ∃ n < 3, (∀ m < n, ((conflictingLogs.after .standard 2 m).reply .standard 2).success = false) ∧
      ((conflictingLogs.after .standard 2 n).reply .standard 2).success = true ∧
      conflictingLogs.leader.state.log.map (LogEntry.onWire .standard) <+:
        (conflictingLogs.after .standard 2 (n + 1)).follower.log.map
          (LogEntry.onWire .standard) := by
  have hmatch : Matching LogEntry.term
      (conflictingLogs.follower.log.map (LogEntry.onWire .standard))
      (conflictingLogs.leader.state.log.map (LogEntry.onWire .standard)) := by
    intro i e e' he he' hterm
    rcases i with _ | _ | i
    · rfl
    · obtain rfl := Option.some.inj he
      obtain rfl := Option.some.inj he'
      cases hterm
    · cases he
  obtain ⟨n, hn, hbefore, hsuccess, -, hlog⟩ := @catch_up_terminates .standard conflictingLogs 2 3
    rfl rfl ⟨by decide, by decide⟩ ⟨rfl, rfl⟩ ⟨rfl, rfl⟩ hmatch (by decide) (by decide) (by decide)
  exact ⟨n, hn, hbefore, hsuccess, hlog⟩

end Exchange
end NomadLite
