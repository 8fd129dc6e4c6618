import NomadLite.LogLeader
import NomadLite.TermMonotone

/-!
# Every step is a step of the replicated log

The cases of `RaftNode.Transition` put together. The conditions on a step are those
under which the code's shortcuts do what the protocol asks for.
-/

namespace NomadLite

open ReplicatedLog

variable {lib : WireLib} {strict : Prop} {ids : List ℕ} {g g' : LogView} {x : ℕ}
  {nd : RaftNode} {eff : Effect}

namespace NodeLog

/-- A reply that is counted reports a prefix of the leader's log. -/
theorem acked_of_reply (h : NodeLog lib strict ids g x nd) (hg : g.Sound strict ids)
    (hstrict : strict) {src : ℕ} {resp : AppendEntriesResponse} (hrole : nd.state.role = .leader)
    (hack : (src, resp.term, resp.matchIndex) ∈ g.acks)
    (hterm : resp.term = nd.state.currentTerm) :
    (src, nd.state.currentTerm, resp.matchIndex) ∈ g.acks ∧
      resp.matchIndex ≤ (g.log x).length := by
  rw [hterm] at hack
  obtain ⟨-, L, hL, hlen, -⟩ := (hg.safe hstrict).acked _ _ _ hack
  obtain rfl : g.log x = L := Option.some.inj ((h.leader hrole).log.symm.trans hL)
  exact ⟨hack, hlen⟩

theorem leads_of_reply (h : NodeLog lib strict ids g x nd) (hg : g.Sound strict ids)
    {task src : ℕ} {req : AppendEntriesRequest} {resp : AppendEntriesResponse}
    (hpacket : PacketLog lib strict ids g ⟨src, x, .appendReply .replication req resp⟩)
    (hrep : strict → nd.KeepsReported lib (.deliver task src (.appendReply .replication req resp)))
    (hterm : resp.term ≤ nd.state.currentTerm) (hrole : nd.state.role = .leader)
    (hsuccess : resp.success = true) :
    Leads strict ids g x (nd.state.recordMatch src resp.matchIndex) := by
  have hacked : strict → (src, nd.state.currentTerm, resp.matchIndex) ∈ g.acks ∧
      resp.matchIndex ≤ (g.log x).length := fun hstrict =>
    h.acked_of_reply hg hstrict hrole (hpacket.2 hstrict hsuccess)
      (le_antisymm hterm (hrep hstrict hrole hsuccess))
  exact leads_recordMatch (h.leader hrole) hpacket.1 (fun hstrict => (hacked hstrict).2)
    fun hstrict => .inr (hacked hstrict).1

theorem committed_of_mayCommit (hstrict : strict) (hids : ids.Nodup) (hx : x ∈ ids) {s : RaftState}
    (hl : Leads strict ids g x s) (hholds : s.Holds lib (g.log x))
    (hmay : s.mayCommit s.majorityIndex) :
    s.majorityIndex ≤ (g.log x).length ∧
      (g.withAck x s.currentTerm s.majorityIndex).toReplicas.Committed LogEntry.term ids.toFinset
        s.currentTerm ((g.log x).take s.majorityIndex) := by
  obtain ⟨e, he, hterm⟩ := Option.map_eq_some_iff.mp hmay.2
  obtain ⟨hoff, hle⟩ := hholds.lt_length he
  have hlen : ((g.log x).take s.majorityIndex).length = s.majorityIndex := by
    rw [List.length_take, min_eq_left hle]
  have hget : (g.log x)[s.majorityIndex - 1]? = some (e.onWire lib) := by
    rw [← hholds.getEntry hoff, he, Option.map_some]
  have hpeers : (peersOf ids x).Nodup := hids.filter _
  obtain ⟨C, hcard, hC⟩ := RaftState.exists_quorum hpeers
    (fun hmem => (mem_peersOf.mp hmem).2 rfl) (hl.match_peer hstrict)
  refine ⟨hle, g.log x, C, hl.log, List.take_prefix _ _, ?_, fun v hv => ?_, ?_, fun v hv => ?_⟩
  · rw [List.getLast?_eq_getElem?, hlen, List.getElem?_take_of_lt (by omega), hget,
      Option.map_some, LogEntry.onWire_term, hterm]
  · rcases hC v hv with rfl | ⟨m, hm, -⟩
    · exact List.mem_toFinset.mpr hx
    · have hv := (hl.match_peer hstrict v).mp (Finmap.mem_of_lookup_eq_some hm)
      exact List.mem_toFinset.mpr (mem_peersOf.mp hv).1
  · rw [List.toFinset_card_of_nodup hids, ← length_peersOf hids hx]
    exact hcard
  · rcases hC v hv with rfl | ⟨m, hm, hge⟩
    · exact ⟨s.majorityIndex, hlen.le, .inl rfl⟩
    · refine ⟨m, hlen.trans_le hge, .inr ?_⟩
      exact (hl.match_ack hstrict v m hm).resolve_left (by omega)

theorem simulates_committed (h : NodeLog lib strict ids g x nd) (hg : g.Sound strict ids)
    (hids : ids.Nodup) (hx : x ∈ ids) {s : RaftState} {src m : ℕ}
    (hs : s = nd.state.recordMatch src m) (hl : Leads strict ids g x s)
    (hmay : s.mayCommit s.majorityIndex) :
    ∃ g', Simulates lib strict ids g x
      ⟨(nd.withState { s with commitIndex := s.majorityIndex }).notifyCommit, [],
        [.advancedCommit { s with commitIndex := s.majorityIndex }]⟩ g' := by
  have hterm : s.currentTerm = nd.state.currentTerm := hs ▸ rfl
  have hholds : s.Holds lib (g.log x) := hs ▸ h.holds.congr rfl rfl rfl
  have hnode : NodeLog lib strict ids g x
      (nd.withState { s with commitIndex := s.majorityIndex }).notifyCommit := by
    subst hs
    exact h.of_maps rfl rfl rfl rfl rfl rfl rfl rfl fun _ =>
      ⟨hl.won, hl.log, hl.next_some, hl.next_le, hl.match_peer, hl.match_ack⟩
  by_cases hstrict : strict
  · obtain ⟨hle, hcommitted⟩ := committed_of_mayCommit hstrict hids hx hl hholds hmay
    have hext := LogView.extends_withAck (g := g) (x := x) (T := s.currentTerm)
      (m := s.majorityIndex)
    refine ⟨g.withAck x s.currentTerm s.majorityIndex, hext,
      hg.withAck (h.term_eq.trans hterm.symm) hl.log hle (List.take_prefix _ _),
      hnode.of_same hext rfl rfl rfl rfl rfl rfl rfl rfl rfl rfl rfl rfl rfl rfl fun _ he => he,
      fun _ _ hm => absurd hm List.not_mem_nil, fun n hn => ?_, fun _ P hP => .inl hP,
      fun _ hT => .inl hT⟩
    rw [List.mem_singleton.mp hn]
    exact fun _ => ⟨g.log x, hholds.congr rfl rfl rfl, hle, hcommitted, .inl rfl⟩
  · refine ⟨g, simulates_of_view hg hnode (fun _ _ hm => absurd hm List.not_mem_nil)
      fun n hn => ?_⟩
    rw [List.mem_singleton.mp hn]
    exact fun hs => absurd hs hstrict

theorem simulates_finishCompaction (h : NodeLog lib strict ids g x nd) (hg : g.Sound strict ids)
    {jobs : List SnapshotJob} {workers : List ℕ} {c : Compaction} (hc : nd.compaction = some c)
    (hoff : nd.KeepsOffset (.finishCompaction jobs workers)) :
    ∃ g', Simulates lib strict ids g x
      ⟨{ nd with
        state := nd.state.compactLog ⟨c.lastApplied, c.lastAppliedTerm, jobs, workers⟩
        compaction := none }, [], []⟩ g' := by
  have hholds : (nd.state.compactLog ⟨c.lastApplied, c.lastAppliedTerm, jobs, workers⟩).Holds lib
      (g.log x) := h.holds.compactLog fun hnew => by
    rw [← h.holds.getEntry_term hnew]
    exact hoff c hc hnew
  generalize hs : nd.state.compactLog ⟨c.lastApplied, c.lastAppliedTerm, jobs, workers⟩ = s
  rw [hs] at hholds
  have hsame : s.currentTerm = nd.state.currentTerm ∧ s.role = nd.state.role ∧
      s.nextIndex = nd.state.nextIndex ∧ s.matchIndex = nd.state.matchIndex ∧
      nd.state.logOffset ≤ s.logOffset := by
    rw [← hs, RaftState.compactLog]
    split_ifs with hle
    · exact ⟨rfl, rfl, rfl, rfl, le_rfl⟩
    · exact ⟨rfl, rfl, rfl, rfl, (not_le.mp hle).le⟩
  obtain ⟨hcur, hrole, hnext, hmatch, hmono⟩ := hsame
  have hext : g.Extends x (g.move x (g.term x) (g.log x) s.logOffset) :=
    LogView.extends_move (h.base_eq ▸ hmono)
  refine ⟨_, hext, hg.moveTerm le_rfl, h.of_kept hext LogView.move_log LogView.move_term rfl rfl rfl
    rfl hcur hrole hholds LogView.move_base hmono hnext hmatch fun _ he => he,
    fun _ _ hm => absurd hm List.not_mem_nil, fun _ hn => absurd hn List.not_mem_nil,
    fun _ P hP => .inl (LogView.move_log.symm ▸ hP), fun _ hT => .inl hT⟩

theorem simulates_quiet (h : NodeLog lib strict ids g x nd) (hg : g.Sound strict ids)
    (hid : eff.node.id = nd.id) (hpeers : eff.node.peers = nd.peers)
    (hcur : eff.node.state.currentTerm = nd.state.currentTerm)
    (hrole : eff.node.state.role = nd.state.role) (hlog : eff.node.state.log = nd.state.log)
    (hoff : eff.node.state.logOffset = nd.state.logOffset)
    (hsnap : eff.node.state.snapshot = nd.state.snapshot)
    (hnext : eff.node.state.nextIndex = nd.state.nextIndex)
    (hmatch : eff.node.state.matchIndex = nd.state.matchIndex)
    (helections : ∀ e ∈ eff.node.elections, e ∈ nd.elections)
    (hsent : ∀ dst msg, (dst, msg) ∈ eff.sent → PacketLog lib strict ids g ⟨x, dst, msg⟩)
    (hnotes : ∀ n ∈ eff.notes, NoteLog lib strict ids g x n) :
    ∃ g', Simulates lib strict ids g x eff g' :=
  ⟨g, simulates_of_view hg (h.of_same (.refl x g) rfl rfl rfl rfl rfl hid hpeers hcur hrole hlog hoff
    hsnap hnext hmatch helections) hsent hnotes⟩

/-- Every step of a node is a step of the view, given what the delivered packet says and the
conditions on the step. -/
theorem simulates (h : NodeLog lib strict ids g x nd) (hg : g.Sound strict ids) (hids : ids.Nodup)
    (hx : x ∈ ids) {ev : Event} (htr : RaftNode.Transition lib nd ev eff)
    (hpacket : ∀ p ∈ ev.packet x, PacketLog lib strict ids g p) (hkeep : nd.KeepsTerm ev)
    (hoff : nd.KeepsOffset ev) (hrep : strict → nd.KeepsReported lib ev)
    (hone : ∀ s, .becameLeader s ∈ eff.notes → ∀ y, (s.currentTerm, y) ∈ g.won → y = x) :
    ∃ g', Simulates lib strict ids g x eff g' := by
  have hnil : ∀ (dst : ℕ) (msg : Message), (dst, msg) ∈ ([] : List (ℕ × Message)) →
      PacketLog lib strict ids g ⟨x, dst, msg⟩ := fun _ _ hm => absurd hm List.not_mem_nil
  have hnone : ∀ n ∈ ([] : List Note), NoteLog lib strict ids g x n :=
    fun _ hn => absurd hn List.not_mem_nil
  cases htr with
  | @voteRequest _ src req => exact h.simulates_voteRequest hg src req
  | voteStepDown he hreq hsrc hterm =>
    refine ⟨_, h.simulates_stepDown hg (hkeep _ (if_pos hterm)) rfl rfl rfl
      (fun e' he' => List.mem_of_mem_eraseIdx he') (fun dst msg hm => ?_) rfl⟩
    obtain ⟨c, -, heq⟩ := List.mem_map.mp hm
    obtain ⟨-, rfl⟩ := Prod.mk.injEq .. ▸ heq
    exact ⟨_, _, rfl⟩
  | voteCounted he hreq hsrc hterm =>
    subst hreq
    exact ⟨g, h.simulates_counted hg he hsrc (hpacket _ rfl)⟩
  | appendEntries => exact h.simulates_appendEntries hg (hpacket _ rfl) hoff hrep
  | installSnapshot => exact h.simulates_installSnapshot hg (hpacket _ rfl) hoff
  | heartbeatStepDown hterm =>
    exact ⟨_, h.simulates_stepDown hg (hkeep _ (if_pos hterm)) rfl rfl rfl (fun _ he => he)
      (fun _ _ hm => absurd hm List.not_mem_nil) rfl⟩
  | transferDone htr hsent hsrc hreq hsuccess =>
    subst hreq
    exact ⟨_, h.simulates_stepDown hg (hkeep _ (if_pos hsuccess)) rfl rfl rfl (fun _ he => he)
      (fun _ _ hm => absurd hm List.not_mem_nil) rfl⟩
  | appendStepDown hterm | snapshotStepDown hterm =>
    exact ⟨_, h.simulates_stepDown hg hterm.le rfl rfl rfl (fun _ he => he)
      (fun _ _ hm => absurd hm List.not_mem_nil) rfl⟩
  | appendCommitted hterm hrole hsuccess hs hmay =>
    exact h.simulates_committed hg hids hx hs
      (hs ▸ h.leads_of_reply hg (hpacket _ rfl) hrep hterm hrole hsuccess) hmay
  | appendMatched hterm hrole hsuccess =>
    exact ⟨g, simulates_of_view hg (h.of_maps rfl rfl rfl rfl rfl rfl rfl rfl fun _ =>
      h.leads_of_reply hg (hpacket _ rfl) hrep hterm hrole hsuccess) hnil hnone⟩
  | @appendRejected _ src _ _ hterm hrole hsuccess =>
    have hleads := leads_decrementNext (h.leader hrole) src
    obtain ⟨nextIndex, hdecrement⟩ := nd.state.decrementNext_eq src
    rw [hdecrement] at hleads ⊢
    exact ⟨g, simulates_of_view hg (h.of_maps rfl rfl rfl rfl rfl rfl rfl rfl fun _ => hleads)
      hnil hnone⟩
  | @snapshotMatched _ src req _ hterm =>
    obtain ⟨hsrc, hbase⟩ := hpacket _ rfl
    have hle : req.lastIncludedIndex ≤ nd.state.logOffset := h.base_eq ▸ hbase
    exact ⟨g, simulates_of_view hg (h.of_maps rfl rfl rfl rfl rfl rfl rfl rfl fun hr =>
      leads_recordMatch (h.leader hr) hsrc (fun _ => hle.trans h.holds.offset_le)
        fun _ => .inl hle) hnil hnone⟩
  | electionTimeout hnodup hpeers => exact h.simulates_standing hg hnodup hpeers
  | @timeoutNowElection task order caller hcaller hnodup hpeers =>
    have h' : NodeLog lib strict ids g x { nd with timeoutNows := nd.timeoutNows.eraseIdx task } :=
      h.of_same (.refl x g) rfl rfl rfl rfl rfl rfl rfl rfl rfl rfl rfl rfl rfl rfl fun _ he => he
    exact h'.simulates_standing hg hnodup hpeers
  | voteFailed he hne =>
    obtain ⟨src, hsrc⟩ : ∃ src, _ = some src := Option.isSome_iff_exists.mp
      (List.isSome_head?.mpr hne)
    exact ⟨g, h.simulates_counted hg he hsrc fun _ hf => absurd hf Bool.false_ne_true⟩
  | electionWon he hdone hrole hterm hmaj =>
    exact ⟨_, h.simulates_won hg hids hx he hrole hterm hmaj
      (hone (nd.winning _) (List.mem_singleton_self _))⟩
  | electionLost he hdone votes =>
    exact h.simulates_quiet hg rfl rfl rfl rfl rfl rfl rfl rfl rfl
      (fun e' he' => List.mem_of_mem_eraseIdx he') packetLog_endElection hnone
  | heartbeatTick hrole =>
    refine ⟨g, simulates_of_view hg h (fun dst msg hm => ?_) hnone⟩
    obtain ⟨p, hp, heq⟩ := List.mem_map.mp hm
    obtain ⟨rfl, rfl⟩ := Prod.mk.injEq .. ▸ heq
    exact h.packetLog_heartbeat hx hrole hp
  | replicateTick hrole =>
    refine ⟨g, simulates_of_view hg h (fun dst msg hm => ?_) hnone⟩
    obtain ⟨p, hp, heq⟩ := List.mem_filterMap.mp hm
    obtain ⟨msg', hmsg, heq⟩ := Option.map_eq_some_iff.mp heq
    obtain ⟨rfl, rfl⟩ := Prod.mk.injEq .. ▸ heq
    exact h.packetLog_replication hx hrole hp hmsg
  | appendCommand hrole => exact ⟨_, h.simulates_appendCommand hg hrole⟩
  | finishCompaction hc => exact h.simulates_finishCompaction hg hc hoff
  | getCommittedEntries =>
    refine h.simulates_quiet hg rfl rfl rfl rfl rfl rfl rfl rfl rfl (fun _ he => he) hnil
      fun n hn => ?_
    rw [List.mem_singleton.mp hn]
    trivial
  | heartbeatIgnored | appendIgnored | timeoutNowTaken | transferRefused | startTransfer
  | transferFailed | beginCompaction =>
    exact h.simulates_quiet hg rfl rfl rfl rfl rfl rfl rfl rfl rfl (fun _ he => he) hnil hnone
  | timeoutNowRefused =>
    refine h.simulates_quiet hg rfl rfl rfl rfl rfl rfl rfl rfl rfl (fun _ he => he)
      (fun dst msg hm => ?_) hnone
    obtain ⟨-, rfl⟩ := Prod.mk.injEq .. ▸ List.mem_singleton.mp hm
    trivial
  | transferPoll =>
    refine h.simulates_quiet hg rfl rfl rfl rfl rfl rfl rfl rfl rfl (fun _ he => he)
      (fun dst msg hm => ?_) hnone
    obtain ⟨-, rfl⟩ := Prod.mk.injEq .. ▸ List.mem_singleton.mp hm
    trivial

end NodeLog

/-- A step never takes away what is covered in the term it leads to. -/
theorem Simulates.kept (hsim : Simulates lib True ids g x eff g') {T : ℕ} {h : List LogEntry}
    (hc : g.Covered LogEntry.term ids.toFinset T h) (hT : T ≤ eff.node.state.currentTerm)
    (hpre : h <+: g.log x) : h <+: g'.log x := by
  rcases hsim.keeps trivial h hpre with hpre' | ⟨L, hL, hnot⟩
  · exact hpre'
  · have hc' := (hc.grow hsim.step.leaders hsim.step.acks).mono hT
    rw [hsim.node.term_eq] at hL
    exact absurd (hc'.isPrefix_leader hsim.sound.matched (hsim.sound.safe trivial) hL) hnot

end NomadLite
