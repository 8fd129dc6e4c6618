import NomadLite.ClusterLog
import NomadLite.CommitKept

/-!
# How a node learns that an entry is committed

A leader counts an entry once half of its peers have reported it, or a later entry
of the leader's own term. Another node learns of it from a request of that term or
a later one: it covers the entry with its commit index, or with a snapshot. From
then on the node's commit index never falls below the entry again, because the log
keeps what is committed.
-/

namespace NomadLite

open ReplicatedLog

def RaftState.Has (lib : WireLib) (s : RaftState) (e : LogEntry) : Prop :=
  (s.getEntry e.index).map (LogEntry.onWire lib) = some (e.onWire lib)

instance (lib : WireLib) (s : RaftState) (e : LogEntry) : Decidable (s.Has lib e) :=
  inferInstanceAs (Decidable (_ = _))

namespace RaftNode

/-- A leader that has the entry handles a reply with which half of its peers, rounded down, have
reported an entry of its term, not committed yet, at or behind that entry. -/
def Counts (lib : WireLib) (nd : RaftNode) (e : LogEntry) : Event → Prop
  | .deliver _ src (.appendReply .replication _ resp) =>
    nd.state.role = .leader ∧ resp.success = true ∧ resp.term ≤ nd.state.currentTerm ∧
      nd.state.Has lib e ∧ ∃ f ∈ nd.state.log, f.term = nd.state.currentTerm ∧
        e.index ≤ f.index ∧ nd.state.commitIndex < f.index ∧
        nd.peers.length / 2 ≤
          (nd.state.recordMatch src resp.matchIndex).matchIndex.sortedValues.countP
            (fun m => f.index ≤ m)
  | _ => False

/-- The node handles a request, not older than term `T`, that covers the entry: with a commit index
over entries that are sent or that the node has, or with a snapshot. -/
def Learns (lib : WireLib) (nd : RaftNode) (e : LogEntry) (T : ℕ) : Event → Prop
  | .deliver _ _ (.appendEntries _ req) =>
    T ≤ req.term ∧ nd.state.currentTerm ≤ req.term ∧
      nd.state.checkPrevLog req.prevLogIndex req.prevLogTerm = .accept ∧
      e.index ≤ req.leaderCommit ∧
      ((req.entries = [] ∧ nd.state.Has lib e) ∨
        (req.entries ≠ [] ∧ e.index ≤ req.prevLogIndex + req.entries.length))
  | .deliver _ _ (.installSnapshot req) =>
    nd.state.Installs req ∧ e.index ≤ req.lastIncludedIndex
  | _ => False

instance (lib : WireLib) (nd : RaftNode) (e : LogEntry) : DecidablePred (nd.Counts lib e)
  | .deliver _ _ (.appendReply .replication ..) => inferInstanceAs (Decidable (_ ∧ _))
  | .deliver _ _ (.appendReply .heartbeat ..) | .deliver _ _ (.installSnapshot _)
  | .deliver _ _ (.snapshotReply ..) | .deliver _ _ (.voteRequest _)
  | .deliver _ _ (.voteReply ..) | .deliver _ _ (.appendEntries ..)
  | .deliver _ _ (.timeoutNow _) | .deliver _ _ (.timeoutNowReply ..)
  | .electionTimeout .. | .timeoutNowElection .. | .voteFailed .. | .finishElection ..
  | .heartbeatTick | .replicateTick | .appendCommand .. | .startTransfer .. | .transferPoll
  | .transferFailed | .getCommittedEntries | .beginCompaction | .finishCompaction .. =>
    inferInstanceAs (Decidable False)

instance (lib : WireLib) (nd : RaftNode) (e : LogEntry) (T : ℕ) : DecidablePred (nd.Learns lib e T)
  | .deliver _ _ (.appendEntries ..) | .deliver _ _ (.installSnapshot _) =>
    inferInstanceAs (Decidable (_ ∧ _))
  | .deliver _ _ (.appendReply ..) | .deliver _ _ (.snapshotReply ..)
  | .deliver _ _ (.voteRequest _) | .deliver _ _ (.voteReply ..)
  | .deliver _ _ (.timeoutNow _) | .deliver _ _ (.timeoutNowReply ..)
  | .electionTimeout .. | .timeoutNowElection .. | .voteFailed .. | .finishElection ..
  | .heartbeatTick | .replicateTick | .appendCommand .. | .startTransfer .. | .transferPoll
  | .transferFailed | .getCommittedEntries | .beginCompaction | .finishCompaction .. =>
    inferInstanceAs (Decidable False)

end RaftNode

variable {lib : WireLib} {ids : List ℕ} {g g' : LogView} {x : ℕ} {nd : RaftNode} {eff : Effect}
  {e : LogEntry} {T i : ℕ}

theorem RaftState.Holds.getElem?_of_has {s : RaftState} {h : List LogEntry} (hs : s.Holds lib h)
    (hhas : s.Has lib e) :
    s.logOffset < e.index ∧ e.index ≤ h.length ∧ h[e.index - 1]? = some (e.onWire lib) := by
  obtain ⟨e', he', -⟩ := Option.map_eq_some_iff.mp hhas
  obtain ⟨hoff, hle⟩ := hs.lt_length he'
  exact ⟨hoff, hle, (hs.getEntry hoff).symm.trans hhas⟩

/-! ### The commit index of a node -/

/-- Only a request can lower the commit index, and not below the end of the log it leaves. -/
theorem RaftNode.Transition.min_commitIndex_le {ev : Event} (h : Transition lib nd ev eff) :
    min nd.state.commitIndex eff.node.state.lastLogIndex ≤ eff.node.state.commitIndex := by
  cases h with
  | appendEntries =>
    rw [handleAppendEntries_state]
    rcases handleAppendEntries_commitIndex lib nd.state _ with hsame | ⟨-, -, hlt, -, hmin⟩
    · exact (min_le_left _ _).trans hsame.ge
    · rw [hmin]
      exact min_le_min_right _ hlt.le
  | installSnapshot =>
    rw [handleInstallSnapshot_state]
    refine (min_le_left _ _).trans ?_
    rw [NomadLite.handleInstallSnapshot]
    have hadopt : ∀ t, (nd.state.adoptTerm t).commitIndex = nd.state.commitIndex := fun _ =>
      RaftState.adoptTerm_commitIndex
    split_ifs
    · exact (hadopt _).ge
    · simp only [RaftState.installSnapshot]
      split_ifs <;> simp
  | @voteRequest _ src req =>
    refine (min_le_left _ _).trans ?_
    rcases handleRequestVote_cases nd.state req with hrefused | ⟨-, -, -, hgranted⟩
    · rw [handleVoteRequest, hrefused]
      exact RaftState.adoptTerm_commitIndex.ge
    · rw [handleVoteRequest, hgranted]
      exact RaftState.adoptTerm_commitIndex.ge
  | appendCommitted hterm hrole hsuccess hs hmay =>
    subst hs
    exact (min_le_left _ _).trans hmay.1.le
  | @appendRejected _ src =>
    obtain ⟨nextIndex, hdecrement⟩ := nd.state.decrementNext_eq src
    rw [hdecrement]
    exact min_le_left _ _
  | @finishCompaction jobs workers c =>
    obtain ⟨log, logOffset, snapshot, hcompact⟩ :=
      nd.state.compactLog_eq ⟨c.lastApplied, c.lastAppliedTerm, jobs, workers⟩
    rw [hcompact]
    exact min_le_left _ _
  | voteStepDown | voteCounted | heartbeatStepDown | heartbeatIgnored | appendStepDown
  | appendMatched | appendIgnored | timeoutNowRefused | timeoutNowTaken | transferDone
  | transferRefused | electionTimeout | timeoutNowElection | voteFailed | electionWon
  | electionLost | heartbeatTick | replicateTick | appendCommand | startTransfer | transferPoll
  | transferFailed | getCommittedEntries | snapshotStepDown | snapshotMatched
  | beginCompaction => exact min_le_left _ _

structure NodeKnows (ids : List ℕ) (g : LogView) (x : ℕ) (nd : RaftNode) (i : ℕ) : Prop where
  commit : i ≤ nd.state.commitIndex
  kept : i ≤ nd.state.logOffset ∨ ∃ P, g.Covered LogEntry.term ids.toFinset nd.state.currentTerm P ∧
    i ≤ P.length ∧ P <+: g.log x

def LogView.Settles (g : LogView) (lib : WireLib) (ids : List ℕ) (e : LogEntry) (T : ℕ) : Prop :=
  ∃ P, g.Covered LogEntry.term ids.toFinset T P ∧ P.length = e.index ∧
    P[e.index - 1]? = some (e.onWire lib)

namespace NodeKnows

theorem of_ne {y : ℕ} (h : NodeKnows ids g y nd i) (hext : g.Extends x g') (hne : y ≠ x) :
    NodeKnows ids g' y nd i := by
  obtain ⟨-, hlog, -⟩ := hext.other y hne
  refine ⟨h.commit, h.kept.imp_right ?_⟩
  rintro ⟨P, hc, hle, hpre⟩
  exact ⟨P, hc.grow hext.leaders hext.acks, hle, hlog ▸ hpre⟩

theorem step (h : NodeKnows ids g x nd i) (hnode : NodeLog lib True ids g x nd)
    (hsim : Simulates lib True ids g x eff g') {ev : Event}
    (htr : RaftNode.Transition lib nd ev eff) (hkeep : nd.KeepsTerm ev) :
    NodeKnows ids g' x eff.node i := by
  have hterm := htr.currentTerm_le_iff.mpr hkeep
  have hoff : nd.state.logOffset ≤ eff.node.state.logOffset := by
    rw [← hnode.base_eq, ← hsim.node.base_eq]
    exact hsim.step.base_le x
  have hlen := hsim.node.holds.length_eq
  have hlast := hsim.node.holds.lastLogIndex
  have hmin := htr.min_commitIndex_le
  have hcommit := h.commit
  rcases h.kept with hle | ⟨P, hc, hle, hpre⟩
  · exact ⟨by omega, .inl (by omega)⟩
  · have hpre' := hsim.kept hc hterm hpre
    have := hpre'.length_le
    exact ⟨by omega, .inr ⟨P, (hc.grow hsim.step.leaders hsim.step.acks).mono hterm, hle, hpre'⟩⟩

theorem of_has (hnode : NodeLog lib True ids g x nd) (hg : g.Sound True ids)
    (hset : g.Settles lib ids e T) (hT : T ≤ nd.state.currentTerm)
    (hcommit : e.index ≤ nd.state.commitIndex)
    (hhas : nd.state.logOffset < e.index → nd.state.Has lib e) :
    NodeKnows ids g x nd e.index := by
  rcases le_or_gt e.index nd.state.logOffset with hle | hoff
  · exact ⟨hcommit, .inl hle⟩
  · obtain ⟨P, hc, hlen, hlast⟩ := hset
    obtain ⟨-, -, hget⟩ := hnode.holds.getElem?_of_has (hhas hoff)
    have hanch : Anchored LogEntry.term g.leader P := by
      rcases hc with rfl | ⟨T', P', -, ⟨L, -, hL, hpre', -⟩, hpre⟩
      · exact .nil
      · exact (hg.matched.leader_anchored _ L hL).of_isPrefix (hpre.trans hpre')
    have htake := hanch.take_eq_take (hg.matched.log_anchored x) hlast hget rfl
    rw [Nat.sub_add_cancel (by omega), ← hlen, List.take_length] at htake
    exact ⟨hcommit, .inr ⟨P, hc.mono hT, hlen.ge, htake ▸ List.take_prefix _ _⟩⟩

end NodeKnows

/-! ### Learning of a commit -/

theorem LogView.Settles.extends (h : g.Settles lib ids e T) (hext : g.Extends x g') :
    g'.Settles lib ids e T := by
  obtain ⟨P, hc, hlast⟩ := h
  exact ⟨P, hc.grow hext.leaders hext.acks, hlast⟩

theorem LogView.settles_of_note {s : RaftState}
    (hnote : NoteLog lib True ids g x (.advancedCommit s)) (hle : e.index ≤ s.commitIndex)
    (hhas : s.Has lib e) : g.Settles lib ids e s.currentTerm := by
  obtain ⟨h, hholds, hlen, hc, -⟩ := hnote trivial
  obtain ⟨hoff, hle', hget⟩ := hholds.getElem?_of_has hhas
  refine ⟨h.take e.index, (Replicas.Covered.of_committed hc).of_isPrefix ?_, ?_, ?_⟩
  · exact List.take_prefix_take_left hle
  · rw [List.length_take, min_eq_left hle']
  · rw [List.getElem?_take_of_lt (by omega), hget]

/-- An entry of the leader's term that half of its peers have reported makes the majority index an
entry of that term as well. -/
theorem Leads.mayCommit {s : RaftState} (hl : Leads True ids g x s) (hholds : s.Holds lib (g.log x))
    (hg : g.Sound True ids) (hids : ids.Nodup) {f : LogEntry} (hf : f ∈ s.log)
    (hterm : f.term = s.currentTerm) (hcommit : s.commitIndex < f.index)
    (hcount : (peersOf ids x).length / 2 ≤ s.matchIndex.sortedValues.countP (fun m => f.index ≤ m)) :
    s.mayCommit s.majorityIndex ∧ f.index ≤ s.majorityIndex := by
  obtain ⟨j, hj⟩ := List.mem_iff_getElem?.mp hf
  have hindex : f.index = s.logOffset + 1 + j := hholds.aligned j f hj
  have hget : s.getEntry f.index = some f := by
    rw [RaftState.getEntry_of_lt (by omega), show f.index - s.logOffset - 1 = j by omega, hj]
  obtain ⟨hoff, hle⟩ := hholds.lt_length hget
  have hlen := hholds.length_eq
  have hlast := hholds.lastLogIndex
  have hmaj : f.index ≤ s.majorityIndex :=
    RaftState.le_majorityIndex (hids.filter _) (hl.match_peer trivial) (by omega) hcount
  have hmajle : s.majorityIndex ≤ s.lastLogIndex := by
    refine RaftState.majorityIndex_le fun p m hm => ?_
    rcases hl.match_ack trivial p m hm with hle' | hack
    · omega
    · obtain ⟨-, L, hL, hlenL, -⟩ := (hg.safe trivial).acked _ _ _ hack
      obtain rfl : g.log x = L := Option.some.inj (hl.log.symm.trans hL)
      omega
  have hfirst : ((g.log x)[f.index - 1]?).map LogEntry.term = some s.currentTerm := by
    rw [← hholds.getEntry_term hoff, hget, Option.map_some, hterm]
  refine ⟨⟨hcommit.trans_le hmaj, ?_⟩, hmaj⟩
  rw [hholds.getEntry_term (by omega)]
  exact hg.matched.leader_tm_eq hl.log hfirst (Nat.sub_le_sub_right hmaj 1) (by omega)

theorem NodeLog.commits_of_counts (h : NodeLog lib True ids g x nd) (hg : g.Sound True ids)
    (hids : ids.Nodup) {ev : Event} (hstep : nd.step lib ev = some eff)
    (hpacket : ∀ p ∈ ev.packet x, PacketLog lib True ids g p) (hrep : nd.KeepsReported lib ev)
    (hcounts : nd.Counts lib e ev) :
    .advancedCommit eff.node.state ∈ eff.notes ∧ eff.node.state.Has lib e ∧
      e.index ≤ eff.node.state.commitIndex ∧
      eff.node.state.currentTerm = nd.state.currentTerm := by
  unfold RaftNode.Counts at hcounts
  split at hcounts
  · next task src req resp =>
    obtain ⟨hrole, hsuccess, hterm, hhas, f, hf, hfterm, hef, hcommit, hcount⟩ := hcounts
    have hl := h.leads_of_reply hg (hpacket _ rfl) (fun _ => hrep) hterm hrole hsuccess
    obtain ⟨hmay, hmaj⟩ := hl.mayCommit (h.holds.congr rfl rfl rfl) hg hids hf hfterm hcommit
      (h.peers_eq ▸ hcount)
    have heff : nd.handleAppendReply src resp = eff := Option.some.inj hstep
    rw [RaftNode.handleAppendReply, if_neg hterm.not_gt, if_pos ⟨hrole, hsuccess⟩] at heff
    dsimp only at heff
    rw [if_pos hmay] at heff
    subst heff
    exact ⟨List.mem_singleton_self _, hhas, hef.trans hmaj, rfl⟩
  · exact hcounts.elim

namespace NodeKnows

/-- What a request of term `T` or later tells about an entry committed in term `T`. -/
theorem of_appendEntries (hnode : NodeLog lib True ids g x nd) (hg : g.Sound True ids)
    (hset : g.Settles lib ids e T) {task src : ℕ} {kind : AppendKind} {req : AppendEntriesRequest}
    (hsim : Simulates lib True ids g x (nd.handleAppendEntries lib src kind req) g')
    (hpacket : PacketLog lib True ids g ⟨src, x, .appendEntries kind req⟩)
    (hoff : nd.KeepsOffset (.deliver task src (.appendEntries kind req)))
    (hlearns : nd.Learns lib e T (.deliver task src (.appendEntries kind req))) :
    NodeKnows ids g' x (nd.handleAppendEntries lib src kind req).node e.index := by
  obtain ⟨hT, hge, hcheck, hcommit, hcases⟩ := hlearns
  obtain ⟨-, -, -, L, hL, hreq⟩ := hpacket
  have hstate : (nd.handleAppendEntries lib src kind req).node.state =
      (handleAppendEntries lib nd.state req).1 :=
    RaftNode.handleAppendEntries_state nd src kind req
  obtain ⟨hterm', -⟩ := handleAppendEntries_follower lib hge
  obtain ⟨h', success, hholds, hresp, hout⟩ := hnode.holds.handleAppendEntries
    ((hg.matched.log_anchored x).matching (hg.matched.leader_anchored _ L hL))
    (hg.indexed _ L hL) hge
    fun hne => ⟨hreq.resolve_right fun hempty => hempty.1 trivial, hoff hge hne⟩
  obtain rfl : success = true := by
    have hsucc : (handleAppendEntries lib nd.state req).2.success = true := by
      rw [handleAppendEntries_current hge, hcheck]
      rfl
    rw [hresp] at hsucc
    exact hsucc
  have hget : h'[e.index - 1]? = some (e.onWire lib) ∧ e.index ≤ h'.length := by
    cases hout with
    | kept hnil =>
      obtain ⟨-, hhas⟩ := hcases.resolve_right fun hne => hne.1 hnil
      obtain ⟨-, hle, hget⟩ := hnode.holds.getElem?_of_has hhas
      exact ⟨hget, hle⟩
    | copied hne =>
      obtain ⟨-, hle⟩ := hcases.resolve_left fun hnil => hne hnil.1
      obtain ⟨P, hc, hlen, hlast⟩ := hset
      have hpre := (hc.mono hT).isPrefix_leader hg.matched (hg.safe trivial) hL
      have hpos := List.length_pos_of_ne_nil hne
      have hleL := hpre.length_le
      rw [List.getElem?_take_of_lt (by omega), List.length_take]
      exact ⟨getElem?_of_isPrefix hpre hlast, by omega⟩
  have hlast := hholds.lastLogIndex
  have hmin := min_leaderCommit_le_commitIndex lib hge hcheck
  refine of_has hsim.node hsim.sound (hset.extends hsim.step) ?_ ?_ fun hlt => ?_
  · rw [hstate, hterm']
    exact hT
  · rw [hstate]
    omega
  · rw [hstate] at hlt ⊢
    exact (hholds.getEntry hlt).trans hget.1

theorem of_installSnapshot (hnode : NodeLog lib True ids g x nd) {req : InstallSnapshotRequest}
    (hinstalls : nd.state.Installs req) (hle : i ≤ req.lastIncludedIndex) (src : ℕ) :
    NodeKnows ids g' x (nd.handleInstallSnapshot lib src req).node i := by
  obtain ⟨-, hoff, hcommit, -⟩ := hinstalls.handleInstallSnapshot hnode.holds.aligned lib
  rw [← RaftNode.handleInstallSnapshot_state nd src req] at hoff hcommit
  exact ⟨by omega, .inl (by omega)⟩

theorem of_learns (hnode : NodeLog lib True ids g x nd) (hg : g.Sound True ids)
    (hset : g.Settles lib ids e T) {ev : Event} (hsim : Simulates lib True ids g x eff g')
    (hstep : nd.step lib ev = some eff) (hpacket : ∀ p ∈ ev.packet x, PacketLog lib True ids g p)
    (hoff : nd.KeepsOffset ev) (hlearns : nd.Learns lib e T ev) :
    NodeKnows ids g' x eff.node e.index := by
  unfold RaftNode.Learns at hlearns
  split at hlearns
  · next task src kind req =>
    have heff : nd.handleAppendEntries lib src kind req = eff := Option.some.inj hstep
    subst heff
    exact of_appendEntries hnode hg hset hsim (hpacket _ rfl) hoff hlearns
  · next task src req =>
    have heff : nd.handleInstallSnapshot lib src req = eff := Option.some.inj hstep
    subst heff
    exact of_installSnapshot hnode hlearns.1 hlearns.2 src
  · exact hlearns.elim

end NodeKnows
end NomadLite
