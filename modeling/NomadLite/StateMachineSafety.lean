import NomadLite.ClusterLog
import NomadLite.StandardWire

/-!
# State Machine Safety

Every commit index lies in a prefix that was committed in the node's term or before,
so that two nodes never apply different entries at one index. A request without
entries moves the commit index without comparing logs: this is safe only when the
follower's entry there is the sender's.
-/

namespace NomadLite

open ReplicatedLog

structure NodeCommit (ids : List ℕ) (g : LogView) (x : ℕ) (nd : RaftNode) : Prop where
  le : nd.state.commitIndex ≤ (g.log x).length
  covered : g.Covered LogEntry.term ids.toFinset nd.state.currentTerm
    ((g.log x).take nd.state.commitIndex)

def PacketCommit (ids : List ℕ) (g : LogView) (p : Packet) : Prop :=
  match p.msg with
  | .appendEntries _ req => ∃ h : List LogEntry, h.length = req.leaderCommit ∧
      g.Covered LogEntry.term ids.toFinset req.term h ∧ h <+: g.log p.src
  | _ => True

def NoteCommit (lib : WireLib) (ids : List ℕ) (g : LogView) : Note → Prop
  | .applied entries => ∀ e ∈ entries, ∃ T h, g.Covered LogEntry.term ids.toFinset T h ∧
      h[e.index - 1]? = some (e.onWire lib)
  | _ => True

variable {lib : WireLib} {ids : List ℕ} {g g' : LogView} {x : ℕ} {nd : RaftNode} {eff : Effect}

theorem NoteCommit.extends {n : Note} (h : NoteCommit lib ids g n) (hext : g.Extends x g') :
    NoteCommit lib ids g' n := by
  cases n with
  | applied entries =>
    intro e he
    obtain ⟨T, h₀, hc, hget⟩ := h e he
    exact ⟨T, h₀, hc.grow hext.leaders hext.acks, hget⟩
  | becameLeader | advancedCommit => trivial

theorem NodeCommit.of_ne {y : ℕ} (h : NodeCommit ids g y nd) (hext : g.Extends x g')
    (hne : y ≠ x) : NodeCommit ids g' y nd := by
  obtain ⟨-, hlog, -⟩ := hext.other y hne
  exact ⟨hlog ▸ h.le, hlog ▸ h.covered.grow hext.leaders hext.acks⟩

theorem PacketCommit.extends {p : Packet} (h : PacketCommit ids g p)
    (hlog : PacketLog lib True ids g p) (hsim : Simulates lib True ids g x eff g') :
    PacketCommit ids g' p := by
  obtain ⟨src, dst, msg⟩ := p
  cases msg with
  | appendEntries kind req =>
    obtain ⟨h₀, hlen, hc, hpre⟩ := h
    refine ⟨h₀, hlen, hc.grow hsim.step.leaders hsim.step.acks, ?_⟩
    by_cases hsrc : src = x
    · subst hsrc
      exact hsim.kept hc (hsim.node.won_le _ (hsim.step.won hlog.2.2.1)).1 hpre
    · exact (hsim.step.other src hsrc).2.1.symm ▸ hpre
  | voteRequest | voteReply | appendReply | installSnapshot | snapshotReply | timeoutNow
  | timeoutNowReply => trivial

namespace NodeCommit

theorem of_isPrefix {h : List LogEntry} {k : ℕ} (hlen : h.length = k) (hpre : h <+: g'.log x)
    (hc : g'.Covered LogEntry.term ids.toFinset nd.state.currentTerm h)
    (hk : nd.state.commitIndex = k) : NodeCommit ids g' x nd := by
  have htake : (g'.log x).take nd.state.commitIndex = h := by
    rw [hk, ← hlen]
    exact (List.prefix_iff_eq_take.mp hpre).symm
  exact ⟨by rw [hk, ← hlen]; exact hpre.length_le, htake.symm ▸ hc⟩

theorem kept (h : NodeCommit ids g x nd) (hsim : Simulates lib True ids g x eff g')
    (hterm : nd.state.currentTerm ≤ eff.node.state.currentTerm) :
    (g.log x).take nd.state.commitIndex <+: g'.log x ∧
      g'.Covered LogEntry.term ids.toFinset eff.node.state.currentTerm
        ((g.log x).take nd.state.commitIndex) :=
  ⟨hsim.kept h.covered hterm (List.take_prefix _ _),
    (h.covered.grow hsim.step.leaders hsim.step.acks).mono hterm⟩

theorem of_same (h : NodeCommit ids g x nd) (hsim : Simulates lib True ids g x eff g')
    (hterm : nd.state.currentTerm ≤ eff.node.state.currentTerm)
    (hcommit : eff.node.state.commitIndex = nd.state.commitIndex) :
    NodeCommit ids g' x eff.node := by
  obtain ⟨hpre, hc⟩ := h.kept hsim hterm
  exact of_isPrefix (by rw [List.length_take, min_eq_left h.le]) hpre hc hcommit

theorem packetCommit (h : NodeCommit ids g x nd) (hsim : Simulates lib True ids g x eff g')
    (hterm : nd.state.currentTerm = eff.node.state.currentTerm) {dst : ℕ} {kind : AppendKind}
    {req : AppendEntriesRequest} (hreq : req.term = nd.state.currentTerm)
    (hcommit : req.leaderCommit = nd.state.commitIndex) :
    PacketCommit ids g' ⟨x, dst, .appendEntries kind req⟩ := by
  obtain ⟨hpre, hc⟩ := h.kept hsim hterm.le
  refine ⟨_, ?_, ?_, hpre⟩
  · rw [List.length_take, min_eq_left h.le, hcommit]
  · rw [hreq, hterm]
    exact hc

/-- The new commit index of an accepted request: with entries the log is the sender's up to it,
without entries the sender's entry there is compared. -/
theorem covered_of_accept (hnode : NodeLog lib True ids g x nd) (hg : g.Sound True ids)
    {src : ℕ} {kind : AppendKind} {req : AppendEntriesRequest} {other : RaftNode} {k : ℕ}
    (hpacket : PacketLog lib True ids g ⟨src, x, .appendEntries kind req⟩)
    (hcommit : PacketCommit ids g ⟨src, x, .appendEntries kind req⟩)
    (hother : NodeLog lib True ids g src other) (hzero : nd.state.logOffset = 0)
    (hzero' : other.state.logOffset = 0) {h' : List LogEntry}
    (hout : ∀ L, g.leader req.term = some L → AppendOutcome nd.state req (g.log x) L h' true)
    (hk : k = min req.leaderCommit h'.length)
    (hagree : req.entries = [] → (nd.state.getEntry k).map LogEntry.term =
      (other.state.getEntry k).map LogEntry.term) :
    g.Covered LogEntry.term ids.toFinset req.term (h'.take k) := by
  obtain ⟨-, -, -, L, hL, -⟩ := hpacket
  obtain ⟨h₀, hlen, hc, hpre⟩ := hcommit
  have hklen : k ≤ h₀.length := by
    rw [hk, hlen]
    exact min_le_left _ _
  cases hout L hL with
  | copied hne hcheck =>
    have hleader := hc.isPrefix_leader hg.matched (hg.safe trivial) hL
    refine hc.of_isPrefix (List.prefix_of_prefix_length_le
      ((List.take_prefix _ _).trans (List.take_prefix _ _)) hleader ?_)
    rw [List.length_take]
    omega
  | kept hnil hcheck =>
    rcases Nat.eq_zero_or_pos k with rfl | hpos
    · exact .inl rfl
    · have hterm := hagree hnil
      rw [hnode.holds.getEntry_term (by omega), hother.holds.getEntry_term (by omega)] at hterm
      have hget : (g.log x)[k - 1]? = some (g.log x)[k - 1] := List.getElem?_eq_getElem (by omega)
      have hget' : (g.log src)[k - 1]? = some h₀[k - 1] :=
        getElem?_of_isPrefix hpre (List.getElem?_eq_getElem (by omega))
      rw [hget, hget', Option.map_some, Option.map_some] at hterm
      have htake := (hg.matched.log_anchored x).take_eq_take (hg.matched.log_anchored src) hget hget'
        (Option.some.inj hterm)
      rw [Nat.sub_add_cancel hpos] at htake
      rw [htake]
      refine hc.of_isPrefix (List.prefix_of_prefix_length_le (List.take_prefix _ _) hpre ?_)
      rw [List.length_take]
      omega

theorem of_appendEntries (h : NodeCommit ids g x nd) (hnode : NodeLog lib True ids g x nd)
    (hg : g.Sound True ids) {src : ℕ} {kind : AppendKind} {req : AppendEntriesRequest}
    {other : RaftNode}
    (hsim : Simulates lib True ids g x (nd.handleAppendEntries lib src kind req) g')
    (hpacket : PacketLog lib True ids g ⟨src, x, .appendEntries kind req⟩)
    (hcommit : PacketCommit ids g ⟨src, x, .appendEntries kind req⟩)
    (hother : NodeLog lib True ids g src other) (hzero : nd.state.logOffset = 0)
    (hzero' : other.state.logOffset = 0)
    (hagree : nd.state.currentTerm ≤ req.term →
      nd.state.checkPrevLog req.prevLogIndex req.prevLogTerm = .accept → req.entries = [] →
      nd.state.commitIndex < req.leaderCommit →
      (nd.state.getEntry (min req.leaderCommit nd.state.lastLogIndex)).map LogEntry.term =
        (other.state.getEntry (min req.leaderCommit nd.state.lastLogIndex)).map LogEntry.term) :
    NodeCommit ids g' x (nd.handleAppendEntries lib src kind req).node := by
  have hstate : (nd.handleAppendEntries lib src kind req).node.state =
      (handleAppendEntries lib nd.state req).1 :=
    RaftNode.handleAppendEntries_state nd src kind req
  have hmono : nd.state.currentTerm ≤
      (nd.handleAppendEntries lib src kind req).node.state.currentTerm := by
    rw [hstate, handleAppendEntries_currentTerm]
    exact le_max_left _ _
  rcases handleAppendEntries_commitIndex lib nd.state req with
    hsame | ⟨hge, hcheck, hlt, hsucc, hmin⟩
  · exact h.of_same hsim hmono (hstate ▸ hsame)
  · obtain ⟨-, -, -, L, hL, hreq⟩ := id hpacket
    obtain ⟨h', success, hholds, hresp, hout⟩ := hnode.holds.handleAppendEntries
      ((hg.matched.log_anchored x).matching (hg.matched.leader_anchored _ L hL))
      (hg.indexed _ L hL) hge
      fun _ => ⟨hreq.resolve_right fun hempty => hempty.1 trivial, hzero ▸ Nat.zero_le _⟩
    obtain rfl : success = true := by
      rw [hresp] at hsucc
      exact hsucc
    rw [hholds.lastLogIndex] at hmin
    have hoff : (handleAppendEntries lib nd.state req).1.logOffset = 0 :=
      (handleAppendEntries_follower lib hge).2.2.1.trans hzero
    have hlog : g'.log x = h' := (hstate ▸ hsim.node.holds).eq_of_offset hholds hoff
    have hc : g.Covered LogEntry.term ids.toFinset req.term
        (h'.take (min req.leaderCommit h'.length)) := by
      refine covered_of_accept hnode hg hpacket hcommit hother hzero hzero'
        (fun L' hL' => Option.some.inj (hL.symm.trans hL') ▸ hout) rfl fun hnil => ?_
      have hkept : h' = g.log x := by
        cases hout with
        | kept => rfl
        | copied hne => exact absurd hnil hne
      rw [hkept, ← hnode.holds.lastLogIndex]
      exact hagree hge hcheck hnil hlt
    refine of_isPrefix (h := h'.take (min req.leaderCommit h'.length)) ?_
      (hlog.symm ▸ List.take_prefix _ _) ?_ (hstate ▸ hmin)
    · rw [List.length_take, min_eq_left (min_le_right _ _)]
    · rw [hstate, (handleAppendEntries_follower lib hge).1]
      exact hc.grow hsim.step.leaders hsim.step.acks

theorem of_transition (h : NodeCommit ids g x nd) (hsim : Simulates lib True ids g x eff g')
    {ev : Event} (htr : RaftNode.Transition lib nd ev eff) (hev : ev.AppendOnly)
    (hkeep : nd.KeepsTerm ev) (hzero : eff.node.state.logOffset = 0)
    (happend : ∀ task src kind req, ev = .deliver task src (.appendEntries kind req) →
      NodeCommit ids g' x eff.node) : NodeCommit ids g' x eff.node := by
  have hmono := htr.currentTerm_le_iff.mpr hkeep
  cases htr with
  | installSnapshot | snapshotStepDown | snapshotMatched | beginCompaction | finishCompaction =>
    exact hev.elim
  | appendEntries => exact happend _ _ _ _ rfl
  | @voteRequest _ src req =>
    refine h.of_same hsim hmono ?_
    rcases handleRequestVote_cases nd.state req with hrefused | ⟨-, -, -, hgranted⟩
    · rw [RaftNode.handleVoteRequest, hrefused]
      exact RaftState.adoptTerm_commitIndex
    · rw [RaftNode.handleVoteRequest, hgranted]
      exact RaftState.adoptTerm_commitIndex
  | appendCommitted hterm hrole hsuccess hs hmay =>
    obtain ⟨h₀, hholds, hle, hc, -⟩ := hsim.notes _ (List.mem_singleton_self _) trivial
    have hlog := hsim.node.holds.eq_of_offset hholds hzero
    exact ⟨hlog.symm ▸ hle, hlog.symm ▸ .of_committed hc⟩
  | @appendRejected _ src =>
    refine h.of_same hsim hmono ?_
    obtain ⟨nextIndex, hdecrement⟩ := nd.state.decrementNext_eq src
    rw [hdecrement]
    rfl
  | voteStepDown | voteCounted | heartbeatStepDown | heartbeatIgnored | appendStepDown
  | appendMatched | appendIgnored | timeoutNowRefused | timeoutNowTaken | transferDone
  | transferRefused | electionTimeout | timeoutNowElection | voteFailed | electionWon
  | electionLost | heartbeatTick | replicateTick | appendCommand | startTransfer | transferPoll
  | transferFailed | getCommittedEntries => exact h.of_same hsim hmono rfl

theorem sent (h : NodeCommit ids g x nd) (hsim : Simulates lib True ids g x eff g') {ev : Event}
    (htr : RaftNode.Transition lib nd ev eff) :
    ∀ dst msg, (dst, msg) ∈ eff.sent → PacketCommit ids g' ⟨x, dst, msg⟩ := by
  intro dst msg hm
  cases htr.sends hm with
  | heartbeat hnode => exact h.packetCommit hsim (by rw [hnode]) rfl rfl
  | append next hnode => exact h.packetCommit hsim (by rw [hnode]) rfl rfl
  | _ => trivial

theorem noted (h : NodeCommit ids g x nd) (hnode : NodeLog lib True ids g x nd)
    (hsim : Simulates lib True ids g x eff g') {ev : Event}
    (htr : RaftNode.Transition lib nd ev eff) : ∀ n ∈ eff.notes, NoteCommit lib ids g' n := by
  intro n hn
  cases htr with
  | getCommittedEntries =>
    rw [List.mem_singleton.mp hn]
    intro e he
    obtain ⟨i, hi, hget⟩ := List.mem_filterMap.mp he
    obtain ⟨hlow, hhigh⟩ := List.mem_range'_1.mp hi
    obtain rfl := hnode.holds.aligned.getEntry_index hget
    obtain ⟨hoff, hlen⟩ := hnode.holds.lt_length hget
    refine ⟨_, _, h.covered.grow hsim.step.leaders hsim.step.acks, ?_⟩
    rw [List.getElem?_take_of_lt (by omega), ← hnode.holds.getEntry hoff, hget, Option.map_some]
  | electionWon | appendCommitted =>
    rw [List.mem_singleton.mp hn]
    trivial
  | voteRequest | appendEntries | installSnapshot | timeoutNowRefused | transferPoll
  | voteStepDown | electionLost | electionTimeout | timeoutNowElection | voteCounted
  | heartbeatStepDown | heartbeatIgnored | appendStepDown | appendMatched | appendRejected
  | appendIgnored | snapshotStepDown | snapshotMatched | timeoutNowTaken | transferDone
  | transferRefused | voteFailed | appendCommand | startTransfer | transferFailed
  | beginCompaction | finishCompaction | heartbeatTick | replicateTick => cases hn

end NodeCommit

namespace Cluster

variable {cl cl' : Cluster} {a : Action}

/-- A request without entries moves the commit index to an entry of the same term as the sender's
entry at that index. -/
def CommitsAgreed (cl : Cluster) (a : Action) : Prop :=
  match a.event with
  | .deliver _ src (.appendEntries _ req) =>
    (cl.nodes a.node).state.currentTerm ≤ req.term →
    (cl.nodes a.node).state.checkPrevLog req.prevLogIndex req.prevLogTerm = .accept →
    req.entries = [] → (cl.nodes a.node).state.commitIndex < req.leaderCommit →
    ((cl.nodes a.node).state.getEntry
        (min req.leaderCommit (cl.nodes a.node).state.lastLogIndex)).map LogEntry.term =
      ((cl.nodes src).state.getEntry
        (min req.leaderCommit (cl.nodes a.node).state.lastLogIndex)).map LogEntry.term
  | _ => True

def KeepsApplied (lib : WireLib) (cl : Cluster) (a : Action) : Prop :=
  (cl.nodes a.node).KeepsTerm a.event ∧ (cl.nodes a.node).KeepsReported lib a.event ∧
    cl.CommitsAgreed a

instance (cl : Cluster) (a : Action) : Decidable (cl.CommitsAgreed a) := by
  unfold CommitsAgreed
  split <;> infer_instance

instance (lib : WireLib) (cl : Cluster) (a : Action) : Decidable (cl.KeepsApplied lib a) :=
  inferInstanceAs (Decidable (_ ∧ _ ∧ _))

def HasCommits (lib : WireLib) (ids : List ℕ) (cl : Cluster) : Prop :=
  ∃ g, HasLogs lib True ids g cl ∧
    Linked ids (NodeCommit ids g) (PacketCommit ids g) (fun _ => NoteCommit lib ids g) cl

theorem HasCommits.step (hids : ids.Nodup) (h : cl.HasCommits lib ids)
    (hone : cl'.OneLeaderPerTerm) (hunc : cl.Uncompacted ids) (hev : a.event.AppendOnly)
    (hoff : (cl.nodes a.node).KeepsOffset a.event) (hcond : cl.KeepsApplied lib a)
    (hs : cl.step lib ids a = some cl') : cl'.HasCommits lib ids := by
  obtain ⟨g, hg, hlinked⟩ := h
  obtain ⟨hterm, hrep, hagree⟩ := hcond
  obtain ⟨eff, g', hstep, hcl, hsim, hg'⟩ := hg.step hids hone ⟨hterm, hoff, fun _ => hrep⟩ hs
  obtain ⟨-, hx, hpacket, -⟩ := step_eq_some hs
  have htr := RaftNode.transition_of_step hstep
  have hnode := hg.linked.node _ hx
  have hcommit := hlinked.node _ hx
  have hzero := hunc.offset hx
  have hself : NodeCommit ids g' a.node eff.node := by
    refine hcommit.of_transition hsim htr hev hterm ((htr.offset_eq hev).1.trans hzero) ?_
    intro task src kind req hevent
    have hmem : ⟨src, a.node, .appendEntries kind req⟩ ∈ cl.network :=
      hpacket _ (hevent ▸ rfl)
    have hplog := hg.linked.packet _ hmem
    have hsrc := (mem_peersOf.mp hplog.1).1
    have heff : (cl.nodes a.node).handleAppendEntries lib src kind req = eff := by
      rw [hevent] at hstep
      exact Option.some.inj hstep
    subst heff
    simp only [CommitsAgreed, hevent] at hagree
    exact hcommit.of_appendEntries hnode hg.sound hsim hplog (hlinked.packet _ hmem)
      (hg.linked.node src hsrc) hzero (hunc.offset hsrc) hagree
  subst hcl
  exact ⟨g', hg', hlinked.apply (fun y _ hne hy => hy.of_ne hsim.step hne)
    (fun p hp hc => hc.extends (hg.linked.packet p hp) hsim) (fun _ _ _ hn => hn.extends hsim.step)
    hself (hcommit.sent hsim htr) (hcommit.noted hnode hsim htr)⟩

/-- In every run without compaction in which at most one node is leader per term, and whose steps
meet the conditions, entries applied at one index are the same. -/
theorem state_machine_safety (lib : WireLib) (hids : ids.Nodup)
    (h : Runs.Reach (step lib ids) (fun cl a => a.event.NoCompaction ∧ cl.KeepsApplied lib a)
      (start ids) cl)
    (hone : cl.OneLeaderPerTerm) {x y : ℕ} {entries entries' : List LogEntry}
    (hx : (x, .applied entries) ∈ cl.history) (hy : (y, .applied entries') ∈ cl.history)
    {e e' : LogEntry} (he : e ∈ entries) (he' : e' ∈ entries') (hindex : e.index = e'.index) :
    e.onWire lib = e'.onWire lib := by
  have hcommits : cl.HasCommits lib ids := by
    clear hx hy
    have hreach := (reach_uncompacted h).1
    revert hone
    refine (hreach.invariant (P := fun cl => cl.Uncompacted ids ∧
      (cl.OneLeaderPerTerm → cl.HasCommits lib ids)) ⟨linked_start fun _ _ => ⟨rfl, rfl⟩,
        fun _ => ⟨_, hasLogs_start lib True ids, linked_start fun _ _ => ⟨Nat.zero_le _, .inl rfl⟩⟩⟩
      fun hP hq hs => ?_).2
    obtain ⟨hev, hoff, hcond⟩ := hq
    exact ⟨hP.1.step hev hs, fun hone =>
      (hP.2 (hone.of_step hs)).step hids hone hP.1 hev hoff hcond hs⟩
  obtain ⟨g, hg, hlinked⟩ := hcommits
  obtain ⟨T, h₀, hc, hget⟩ := hlinked.note x _ hx e he
  obtain ⟨T', h₁, hc', hget'⟩ := hlinked.note y _ hy e' he'
  rw [hindex] at hget
  exact hc.getElem?_unique hc' hg.sound.matched (hg.sound.safe trivial) hget hget'

/-- Leader 1 commits an entry that node 2 has, tells node 2 with a heartbeat, and both apply it. -/
theorem state_machine_safety_heartbeat :
    ∃ cl entries entries', Runs.Reach (step .standard [1, 2, 3])
        (fun cl a => a.event.NoCompaction ∧ cl.KeepsApplied .standard a) (start [1, 2, 3]) cl ∧
      cl.OneLeaderPerTerm ∧ (1, .applied entries) ∈ cl.history ∧
      (2, .applied entries') ∈ cl.history ∧
      ∃ e ∈ entries, ∃ e' ∈ entries', e.index = e'.index ∧
        e.onWire .standard = e'.onWire .standard := by
  obtain ⟨cl, hreach, hone, ⟨x, n⟩, hn, ⟨y, n'⟩, hn', hnotes⟩ := Runs.exists_reach_of_guardedRun
    (step .standard [1, 2, 3]) (fun cl a => a.event.NoCompaction ∧ cl.KeepsApplied .standard a)
    (fun cl => cl.OneLeaderPerTerm ∧ ∃ p ∈ cl.history, ∃ q ∈ cl.history,
      (match p, q with
        | (x, .applied entries), (y, .applied entries') =>
          decide (x = 1 ∧ y = 2 ∧ ∃ e ∈ entries, ∃ e' ∈ entries', e.index = e'.index)
        | _, _ => false) = true) (start [1, 2, 3])
    (electedBy 1 2 1 0 0 ++ [⟨1, .appendCommand .noop⟩, ⟨1, .replicateTick⟩,
      ⟨2, .deliver 0 1 (.appendEntries .replication (wholeLogRequest 1 1 [⟨1, 1, .noop⟩]))⟩,
      ⟨1, .deliver 0 2 (.appendReply .replication (wholeLogRequest 1 1 [⟨1, 1, .noop⟩])
        ⟨1, true, 1⟩)⟩, ⟨1, .heartbeatTick⟩,
      ⟨2, .deliver 0 1 (.appendEntries .heartbeat ⟨1, 1, 0, 0, [], 1⟩)⟩,
      ⟨1, .getCommittedEntries⟩, ⟨2, .getCommittedEntries⟩])
    (by decide +kernel)
  cases n with
  | becameLeader | advancedCommit => cases hnotes
  | applied entries =>
    cases n' with
    | becameLeader | advancedCommit => cases hnotes
    | applied entries' =>
      obtain ⟨rfl, rfl, e, he, e', he', hindex⟩ := of_decide_eq_true hnotes
      exact ⟨cl, entries, entries', hreach, hone, hn, hn', e, he, e', he', hindex,
        state_machine_safety .standard (by decide) hreach hone hn hn' he he' hindex⟩

/-- Leader 1 keeps an entry of term 1 to itself. Leader 2 of term 2 commits another one at the same
index, and its heartbeat makes node 1 commit and apply its own. -/
theorem applied_entries_differ :
    ¬ ∀ (lib : WireLib) (ids : List ℕ) (cl : Cluster), ids.Nodup →
      Runs.Reach (step lib ids) (fun _ a => a.event.NoCompaction) (start ids) cl →
      cl.OneLeaderPerTerm → ∀ (x y : ℕ) (entries entries' : List LogEntry),
        (x, .applied entries) ∈ cl.history → (y, .applied entries') ∈ cl.history →
        ∀ e ∈ entries, ∀ e' ∈ entries', e.index = e'.index → e.onWire lib = e'.onWire lib := by
  intro hall
  obtain ⟨cl, hreach, hone, ⟨x, n⟩, hn, ⟨y, n'⟩, hn', hnotes⟩ := Runs.exists_reach_of_guardedRun
    (step .standard [1, 2, 3]) (fun _ a => a.event.NoCompaction)
    (fun cl => cl.OneLeaderPerTerm ∧ ∃ p ∈ cl.history, ∃ q ∈ cl.history,
      (match p, q with
        | (_, .applied entries), (_, .applied entries') =>
          decide (∃ e ∈ entries, ∃ e' ∈ entries', e.index = e'.index ∧
            e.onWire .standard ≠ e'.onWire .standard)
        | _, _ => false) = true) (start [1, 2, 3])
    (electedBy 1 2 1 0 0 ++ [⟨1, .appendCommand (.registerWorker 1)⟩] ++ electedBy 2 3 2 0 0 ++
      [⟨2, .appendCommand (.registerWorker 2)⟩, ⟨2, .replicateTick⟩,
        ⟨3, .deliver 0 2 (.appendEntries .replication
          (wholeLogRequest 2 2 [⟨2, 1, .registerWorker 2⟩]))⟩,
        ⟨2, .deliver 0 3 (.appendReply .replication
          (wholeLogRequest 2 2 [⟨2, 1, .registerWorker 2⟩]) ⟨2, true, 1⟩)⟩, ⟨2, .heartbeatTick⟩,
        ⟨1, .deliver 0 2 (.appendEntries .heartbeat ⟨2, 2, 0, 0, [], 1⟩)⟩,
        ⟨1, .getCommittedEntries⟩, ⟨2, .getCommittedEntries⟩])
    (by decide +kernel)
  cases n with
  | becameLeader | advancedCommit => cases hnotes
  | applied entries =>
    cases n' with
    | becameLeader | advancedCommit => cases hnotes
    | applied entries' =>
      obtain ⟨e, he, e', he', hindex, hne⟩ := of_decide_eq_true hnotes
      exact hne (hall .standard [1, 2, 3] cl (by decide) hreach hone x y entries entries' hn hn'
        e he e' he' hindex)

end Cluster
end NomadLite
