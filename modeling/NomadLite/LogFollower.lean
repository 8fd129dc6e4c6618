import NomadLite.LogLink

/-!
# Followers and the replicated log

Steps in which a node answers somebody else: it adopts terms, votes, and takes over
entries and snapshots. `Simulates` says that a step of node `x` is accounted for by a
step of the view.
-/

namespace NomadLite

open ReplicatedLog

structure Simulates (lib : WireLib) (strict : Prop) (ids : List ℕ) (g : LogView) (x : ℕ)
    (eff : Effect) (g' : LogView) : Prop where
  step : g.Extends x g'
  sound : g'.Sound strict ids
  node : NodeLog lib strict ids g' x eff.node
  sent : ∀ dst msg, (dst, msg) ∈ eff.sent → PacketLog lib strict ids g' ⟨x, dst, msg⟩
  notes : ∀ n ∈ eff.notes, NoteLog lib strict ids g' x n
  keeps : strict → ∀ P, P <+: g.log x → P <+: g'.log x ∨ Lacks g'.leader (g'.term x) P
  won_noted : ∀ T, (T, x) ∈ g'.won →
    (T, x) ∈ g.won ∨ ∃ s, .becameLeader s ∈ eff.notes ∧ s.currentTerm = T

namespace RaftState

def CutsOnlyConflicts (lib : WireLib) (s : RaftState) (req : AppendEntriesRequest) : Prop :=
  s.lastLogIndex ≤ req.prevLogIndex + req.entries.length ∨
    ∃ e ∈ decodeEntries lib req.entries, ∃ e' ∈ s.getEntry e.index, e'.term ≠ e.term

/-- The log ends where the request checked it, or with an entry of the sender's term. -/
def EndsChecked (s : RaftState) (req : AppendEntriesRequest) : Prop :=
  s.lastLogIndex = req.prevLogIndex ∨ s.lastLogTerm = req.term

instance (lib : WireLib) (s : RaftState) (req : AppendEntriesRequest) :
    Decidable (s.CutsOnlyConflicts lib req) :=
  haveI : ∀ e : LogEntry, Decidable (∃ e' ∈ s.getEntry e.index, e'.term ≠ e.term) := fun e =>
    decidable_of_iff (∃ e' ∈ (s.getEntry e.index).toList, e'.term ≠ e.term)
      (by simp only [Option.mem_toList]; rfl)
  inferInstanceAs (Decidable (_ ∨ _))

instance (s : RaftState) (req : AppendEntriesRequest) : Decidable (s.EndsChecked req) :=
  inferInstanceAs (Decidable (_ ∨ _))

end RaftState

namespace RaftNode

/-- What reaches into the compacted part of the log agrees with it. -/
def KeepsOffset (nd : RaftNode) : Event → Prop
  | .deliver _ _ (.appendEntries _ req) =>
    nd.state.currentTerm ≤ req.term → req.entries ≠ [] → nd.state.logOffset ≤ req.prevLogIndex
  | .deliver _ _ (.installSnapshot req) =>
    nd.state.currentTerm ≤ req.term → nd.state.logOffset < req.lastIncludedIndex →
      (nd.state.getEntry req.lastIncludedIndex).map LogEntry.term = some req.lastIncludedTerm ∨
        nd.state.lastLogIndex ≤ req.lastIncludedIndex
  | .finishCompaction _ _ => ∀ c ∈ nd.compaction, nd.state.logOffset < c.lastApplied →
      (nd.state.getEntry c.lastApplied).map LogEntry.term = some c.lastAppliedTerm
  | _ => True

/-- What a follower has reported to hold stays, and it reports no more than was checked; a leader
only counts reports of its own term. -/
def KeepsReported (lib : WireLib) (nd : RaftNode) : Event → Prop
  | .deliver _ _ (.appendEntries kind req) => nd.state.currentTerm ≤ req.term →
    nd.state.checkPrevLog req.prevLogIndex req.prevLogTerm = .accept →
      (req.entries ≠ [] → nd.state.CutsOnlyConflicts lib req) ∧
        (req.entries = [] → kind = .replication → nd.state.EndsChecked req)
  | .deliver _ _ (.appendReply .replication _ resp) =>
    nd.state.role = .leader → resp.success = true → nd.state.currentTerm ≤ resp.term
  | _ => True

instance (nd : RaftNode) (ev : Event) : Decidable (nd.KeepsOffset ev) := by
  unfold KeepsOffset
  split
  · infer_instance
  · infer_instance
  · exact decidable_of_iff (∀ c ∈ nd.compaction.toList, nd.state.logOffset < c.lastApplied →
      (nd.state.getEntry c.lastApplied).map LogEntry.term = some c.lastAppliedTerm)
      (by simp only [Option.mem_toList]; rfl)
  · infer_instance

instance (lib : WireLib) (nd : RaftNode) (ev : Event) : Decidable (nd.KeepsReported lib ev) := by
  unfold KeepsReported
  split <;> infer_instance

end RaftNode

variable {lib : WireLib} {strict : Prop} {ids : List ℕ} {g g' : LogView} {x : ℕ}
  {nd : RaftNode} {eff : Effect}

theorem Leads.congr {s s' : RaftState} (h : Leads strict ids g x s)
    (hext : g.Extends x g') (hlog : g'.log x = g.log x) (hleader : g'.leader = g.leader)
    (hterm : s'.currentTerm = s.currentTerm) (hoff : s.logOffset ≤ s'.logOffset)
    (hnext : s'.nextIndex = s.nextIndex) (hmatch : s'.matchIndex = s.matchIndex) :
    Leads strict ids g' x s' where
  won := hterm ▸ hext.won h.won
  log := by rw [hleader, hlog, hterm, h.log]
  next_some := hnext ▸ h.next_some
  next_le := by
    rw [hnext, hlog]
    exact h.next_le
  match_peer := hmatch ▸ h.match_peer
  match_ack hstrict p m hm := by
    rw [hterm]
    exact (h.match_ack hstrict p m (hmatch ▸ hm)).imp (·.trans hoff) (hext.acks ·)

theorem Campaign.congr {nd' : RaftNode} (h : Campaign ids g x nd)
    (hterm : nd'.state.currentTerm = nd.state.currentTerm)
    (hrole : nd'.state.role = nd.state.role) (helections : ∀ e ∈ nd'.elections, e ∈ nd.elections) :
    Campaign ids g x nd' where
  count e he := h.count e (helections e he)
  term_le e he := hterm ▸ h.term_le e (helections e he)
  own hr hnone e he := by
    rw [hterm] at hnone ⊢
    exact h.own (hrole ▸ hr) hnone e (helections e he)

namespace NodeLog

theorem of_kept {nd' : RaftNode} (h : NodeLog lib strict ids g x nd) (hext : g.Extends x g')
    (hlog : g'.log x = g.log x) (hterm : g'.term x = g.term x) (hleader : g'.leader = g.leader)
    (hwon : g'.won = g.won) (hid : nd'.id = nd.id) (hpeers : nd'.peers = nd.peers)
    (hcur : nd'.state.currentTerm = nd.state.currentTerm)
    (hrole : nd'.state.role = nd.state.role) (hholds : nd'.state.Holds lib (g.log x))
    (hbase : g'.base x = nd'.state.logOffset) (hoff : nd.state.logOffset ≤ nd'.state.logOffset)
    (hnext : nd'.state.nextIndex = nd.state.nextIndex)
    (hmatch : nd'.state.matchIndex = nd.state.matchIndex)
    (helections : ∀ e ∈ nd'.elections, e ∈ nd.elections) : NodeLog lib strict ids g' x nd' where
  id_eq := hid.trans h.id_eq
  peers_eq := hpeers.trans h.peers_eq
  term_eq := hterm.trans (h.term_eq.trans hcur.symm)
  base_eq := hbase
  holds := hlog ▸ hholds
  won_le T hT := by
    rw [hcur, hrole]
    exact h.won_le T (hwon ▸ hT)
  leader hr := (h.leader (hrole ▸ hr)).congr hext hlog hleader hcur hoff hnext hmatch
  campaign hstrict := ((h.campaign hstrict).extends hext hlog).congr hcur hrole helections

theorem of_same {nd' : RaftNode} (h : NodeLog lib strict ids g x nd) (hext : g.Extends x g')
    (hlog : g'.log x = g.log x) (hterm : g'.term x = g.term x) (hbase : g'.base x = g.base x)
    (hleader : g'.leader = g.leader) (hwon : g'.won = g.won) (hid : nd'.id = nd.id)
    (hpeers : nd'.peers = nd.peers) (hcur : nd'.state.currentTerm = nd.state.currentTerm)
    (hrole : nd'.state.role = nd.state.role) (hlog' : nd'.state.log = nd.state.log)
    (hoff : nd'.state.logOffset = nd.state.logOffset)
    (hsnap : nd'.state.snapshot = nd.state.snapshot)
    (hnext : nd'.state.nextIndex = nd.state.nextIndex)
    (hmatch : nd'.state.matchIndex = nd.state.matchIndex)
    (helections : ∀ e ∈ nd'.elections, e ∈ nd.elections) : NodeLog lib strict ids g' x nd' :=
  h.of_kept hext hlog hterm hleader hwon hid hpeers hcur hrole (h.holds.congr hlog' hoff hsnap)
    (hbase.trans (h.base_eq.trans hoff.symm)) hoff.ge hnext hmatch helections

/-- The node becomes a follower, perhaps of a later term and with another log. -/
theorem of_follower {nd' : RaftNode} (h : NodeLog lib strict ids g x nd) {t b : ℕ}
    {h' : List LogEntry} (ht : nd.state.currentTerm ≤ t) (hid : nd'.id = nd.id)
    (hpeers : nd'.peers = nd.peers) (hcur : nd'.state.currentTerm = t)
    (hoff : nd'.state.logOffset = b) (hholds : nd'.state.Holds lib h')
    (hrole : nd'.state.role = .follower) (helections : ∀ e ∈ nd'.elections, e ∈ nd.elections) :
    NodeLog lib strict ids (g.move x t h' b) x nd' where
  id_eq := hid.trans h.id_eq
  peers_eq := hpeers.trans h.peers_eq
  term_eq := LogView.move_term.trans hcur.symm
  base_eq := LogView.move_base.trans hoff.symm
  holds := LogView.move_log.symm ▸ hholds
  won_le T hT := by
    refine ⟨(h.won_le T hT).1.trans (hcur ▸ ht), fun _ => ?_⟩
    rw [hrole]
    exact RaftRole.noConfusion
  leader hr := by
    rw [hrole] at hr
    cases hr
  campaign hstrict := by
    refine ⟨fun e he => (h.campaign hstrict).count e (helections e he),
      fun e he => ((h.campaign hstrict).term_le e (helections e he)).trans (hcur ▸ ht),
      fun hr => ?_⟩
    rw [hrole] at hr
    cases hr

theorem simulates_of_view (hg : g.Sound strict ids)
    (hnode : NodeLog lib strict ids g x eff.node)
    (hsent : ∀ dst msg, (dst, msg) ∈ eff.sent → PacketLog lib strict ids g ⟨x, dst, msg⟩)
    (hnotes : ∀ n ∈ eff.notes, NoteLog lib strict ids g x n) :
    Simulates lib strict ids g x eff g :=
  ⟨.refl x g, hg, hnode, hsent, hnotes, fun _ _ hP => .inl hP, fun _ hT => .inl hT⟩

theorem simulates_stepDown (h : NodeLog lib strict ids g x nd) (hg : g.Sound strict ids) {t : ℕ}
    (ht : nd.state.currentTerm ≤ t) (hid : eff.node.id = nd.id)
    (hpeers : eff.node.peers = nd.peers) (hstate : eff.node.state = nd.state.becomeFollower t)
    (helections : ∀ e ∈ eff.node.elections, e ∈ nd.elections)
    (hsent : ∀ dst msg, (dst, msg) ∈ eff.sent → ∃ req resp, msg = .timeoutNowReply req resp)
    (hnotes : eff.notes = []) :
    Simulates lib strict ids g x eff (g.move x t (g.log x) (g.base x)) where
  step := LogView.extends_move le_rfl
  sound := hg.moveTerm (h.term_eq ▸ ht)
  node := h.of_follower ht hid hpeers (hstate ▸ rfl) (by rw [hstate, h.base_eq]; rfl)
    (hstate ▸ h.holds.congr rfl rfl rfl) (hstate ▸ rfl) helections
  sent dst msg hm := by
    obtain ⟨req, resp, rfl⟩ := hsent dst msg hm
    trivial
  notes n hn := by
    rw [hnotes] at hn
    cases hn
  keeps _ P hP := .inl (LogView.move_log.symm ▸ hP)
  won_noted _ hT := .inl hT

theorem exists_adoptTerm (h : NodeLog lib strict ids g x nd) (hg : g.Sound strict ids) (t : ℕ) :
    ∃ g₁, Simulates lib strict ids g x ⟨nd.withState (nd.state.adoptTerm t), [], []⟩ g₁ ∧
      g₁.log x = g.log x := by
  rcases lt_or_ge nd.state.currentTerm t with hlt | hge
  · rw [RaftState.adoptTerm_eq_follower hlt]
    exact ⟨_, h.simulates_stepDown hg hlt.le rfl rfl rfl (fun _ he => he)
      (fun _ _ hm => absurd hm List.not_mem_nil) rfl, LogView.move_log⟩
  · rw [RaftState.adoptTerm_eq_self hge]
    exact ⟨g, simulates_of_view hg h (fun _ _ hm => absurd hm List.not_mem_nil)
      (fun _ hn => absurd hn List.not_mem_nil), rfl⟩

theorem upToDate (h : NodeLog lib strict ids g x nd) {li lt : ℕ}
    (hup : nd.state.isLogUpToDate li lt = true) :
    lastTerm LogEntry.term (g.log x) < lt ∨
      (lt = lastTerm LogEntry.term (g.log x) ∧ (g.log x).length ≤ li) := by
  have hup := of_decide_eq_true hup
  rwa [h.holds.lastLogTerm, h.holds.lastLogIndex] at hup

theorem simulates_voteRequest (h : NodeLog lib strict ids g x nd) (hg : g.Sound strict ids)
    (src : ℕ) (req : VoteRequest) :
    ∃ g', Simulates lib strict ids g x (nd.handleVoteRequest src req) g' := by
  obtain ⟨g₁, hsim, hlog⟩ := h.exists_adoptTerm hg req.term
  rcases handleRequestVote_cases nd.state req with hrefused | ⟨hcur, -, hup, hgranted⟩
  · rw [RaftNode.handleVoteRequest, hrefused]
    refine ⟨g₁, hsim.step, hsim.sound, hsim.node, fun dst msg hm => ?_, hsim.notes, hsim.keeps,
      hsim.won_noted⟩
    obtain ⟨rfl, rfl⟩ := Prod.mk.injEq .. ▸ List.mem_singleton.mp hm
    exact fun _ hv => absurd hv Bool.false_ne_true
  · rw [RaftNode.handleVoteRequest, hgranted]
    have hext : g₁.Extends x (g₁.withVote x req.term req.lastLogIndex req.lastLogTerm) :=
      LogView.extends_withVote
    refine ⟨g₁.withVote x req.term req.lastLogIndex req.lastLogTerm, hsim.step.trans hext,
      hsim.sound.withVote (hsim.node.term_eq.trans hcur) (hlog ▸ h.upToDate hup),
      hsim.node.of_same hext rfl rfl rfl rfl rfl rfl rfl rfl rfl rfl rfl rfl rfl rfl
        (fun _ he => he), fun dst msg hm => ?_, fun _ hn => absurd hn List.not_mem_nil, hsim.keeps,
      hsim.won_noted⟩
    obtain ⟨rfl, rfl⟩ := Prod.mk.injEq .. ▸ List.mem_singleton.mp hm
    exact fun _ _ => Set.mem_insert _ _

/-- Somebody else's request of the current term does not meet a leader. -/
theorem not_leader (h : NodeLog lib strict ids g x nd) (hg : g.Sound strict ids) {src t : ℕ}
    (hsrc : src ∈ peersOf ids x) (hwon : (t, src) ∈ g.won) (ht : nd.state.currentTerm = t) :
    nd.state.role ≠ .leader := by
  intro hr
  have heq := hg.unique t src x hwon (ht ▸ (h.leader hr).won)
  exact (mem_peersOf.mp hsrc).2 heq

theorem conflict_of_entry {s : RaftState} {h L : List LogEntry} {req : AppendEntriesRequest}
    (hs : s.Holds lib h) (hreq : req.Slice lib L) (hL : IndexedFrom 0 L) {e e' : LogEntry}
    (he : e ∈ decodeEntries lib req.entries) (he' : s.getEntry e.index = some e')
    (hne : e'.term ≠ e.term) :
    ∃ i d d', i ≤ req.prevLogIndex + req.entries.length ∧ h[i]? = some d ∧ L[i]? = some d' ∧
      d.term ≠ d'.term := by
  obtain ⟨k, hk⟩ := List.mem_iff_getElem?.mp he
  have hlt := (List.getElem?_eq_some_iff.mp hk).1
  have hL' : L[req.prevLogIndex + k]? = some (e.onWire lib) := by
    rw [← List.getElem?_drop]
    refine getElem?_of_isPrefix hreq.entries ?_
    rw [List.getElem?_map, hk, Option.map_some]
  have hindex : e.index = req.prevLogIndex + k + 1 := by
    have := hL _ _ hL'
    rw [LogEntry.onWire_index] at this
    omega
  have hh : h[req.prevLogIndex + k]? = some (e'.onWire lib) := by
    have hget := hs.getEntry (hs.lt_length he').1
    rw [he', hindex, Option.map_some, Nat.add_sub_cancel] at hget
    exact hget.symm
  have := hreq.decodable
  exact ⟨_, _, _, by omega, hh, hL', hne⟩

/-- Every change of the log by a request keeps what the sender has. -/
theorem keeps_of_outcome {s : RaftState} {h h' L : List LogEntry} {req : AppendEntriesRequest}
    {success : Bool} (hs : s.Holds lib h) (hL : g.leader req.term = some L)
    (hindexed : IndexedFrom 0 L) (hreq : req.Slice lib L)
    (hcond : s.checkPrevLog req.prevLogIndex req.prevLogTerm = .accept → req.entries ≠ [] →
      s.CutsOnlyConflicts lib req)
    (hout : AppendOutcome s req h L h' success) :
    ∀ P, P <+: h → P <+: h' ∨ Lacks g.leader req.term P := by
  cases hout with
  | rejected => exact fun _ hP => .inl hP
  | kept => exact fun _ hP => .inl hP
  | cut he hpos hne =>
    obtain ⟨e', he', hterm⟩ := Option.map_eq_some_iff.mp (hreq.prev_term hpos)
    exact Replicas.keeps_of_cut LogEntry.term hL he he' (hterm ▸ hne)
  | copied hne hcheck =>
    refine Replicas.keeps_of_copied LogEntry.term hL ?_
    rcases hcond hcheck hne with hle | ⟨e, he, e', he', hconf⟩
    · exact .inl (hs.lastLogIndex ▸ hle)
    · exact .inr (conflict_of_entry hs hreq hindexed he he' hconf)

/-- What a successful reply reports is in the sender's log. -/
theorem reported_of_outcome {s : RaftState} {h h' L : List LogEntry} {req : AppendEntriesRequest}
    (hs : s.Holds lib h) (hh : Anchored LogEntry.term g.leader h) (hL : g.leader req.term = some L)
    (hL' : Anchored LogEntry.term g.leader L) (hreq : req.Slice lib L)
    (hcond : s.checkPrevLog req.prevLogIndex req.prevLogTerm = .accept → req.entries = [] →
      s.EndsChecked req)
    (hout : AppendOutcome s req h L h' true) :
    h'.length ≤ L.length ∧ L.take h'.length <+: h' := by
  have hcopy : ∀ n, (L.take n).length ≤ L.length ∧ L.take (L.take n).length <+: L.take n := by
    intro n
    refine ⟨List.length_take_le' n L, ?_⟩
    rw [List.length_take]
    exact List.take_prefix_take_left (min_le_left _ _)
  cases hout with
  | copied => exact hcopy _
  | kept hnil hcheck =>
    rcases hcond hcheck hnil with hend | hend
    · have hlen : h.length = req.prevLogIndex := hs.lastLogIndex.symm.trans hend
      have htake := (hs.take_of_accept hreq (hh.matching hL') hcheck (hlen ▸ hs.offset_le)).2
      rw [← hlen, List.take_length] at htake
      rw [htake]
      exact hcopy _
    · rw [hs.lastLogTerm] at hend
      by_cases hne : h = []
      · rw [hne]
        exact ⟨Nat.zero_le _, List.prefix_rfl⟩
      · obtain ⟨L', hL'', hpre⟩ := hh.isPrefix_leader hne
        obtain rfl : L = L' := Option.some.inj (hL.symm.trans (hend ▸ hL''))
        rw [List.prefix_iff_eq_take.mp hpre]
        exact hcopy _

theorem isPrefix_of_outcome {s : RaftState} {h h' L : List LogEntry} {req : AppendEntriesRequest}
    {success : Bool} (hout : AppendOutcome s req h L h' success) : h' <+: h ∨ h' <+: L := by
  cases hout with
  | rejected | kept => exact .inl List.prefix_rfl
  | cut => exact .inl (List.take_prefix _ _)
  | copied => exact .inr (List.take_prefix _ _)

/-- A log made of the node's own entries and the sender's is sound in the sender's term. -/
theorem sound_move (h : NodeLog lib strict ids g x nd) (hg : g.Sound strict ids) {t b : ℕ}
    {h' L : List LogEntry} (ht : nd.state.currentTerm ≤ t) (hL : g.leader t = some L)
    (hfrom : h' <+: g.log x ∨ h' <+: L)
    (hkeep : strict → ∀ P, P <+: g.log x → P <+: h' ∨ Lacks g.leader t P) :
    (g.move x t h' b).Sound strict ids := by
  have hterm : g.term x ≤ t := h.term_eq ▸ ht
  rcases hfrom with hpre | hpre
  · exact hg.move hterm ((hg.matched.log_anchored x).of_isPrefix hpre)
      (fun e he => (hg.matched.log_bound x e (hpre.subset he)).trans hterm) hkeep
  · exact hg.move hterm ((hg.matched.leader_anchored t L hL).of_isPrefix hpre)
      (fun e he => hg.matched.leader_bound t L hL e (hpre.subset he)) hkeep

theorem simulates_appendEntries (h : NodeLog lib strict ids g x nd) (hg : g.Sound strict ids)
    {task src : ℕ} {kind : AppendKind} {req : AppendEntriesRequest}
    (hpacket : PacketLog lib strict ids g ⟨src, x, .appendEntries kind req⟩)
    (hoff : nd.KeepsOffset (.deliver task src (.appendEntries kind req)))
    (hrep : strict → nd.KeepsReported lib (.deliver task src (.appendEntries kind req))) :
    ∃ g', Simulates lib strict ids g x (nd.handleAppendEntries lib src kind req) g' := by
  obtain ⟨-, hdst, -, L, hL, hreq⟩ := hpacket
  have key : ∀ n, ∃ g', Simulates lib strict ids g x
      ⟨{ nd.withState (handleAppendEntries lib nd.state req).1 with commitNotify := n },
        [(src, .appendReply kind req (handleAppendEntries lib nd.state req).2)], []⟩ g' := by
    intro n
    rcases lt_or_ge req.term nd.state.currentTerm with hlt | hge
    · rw [handleAppendEntries_stale hlt]
      refine ⟨g, simulates_of_view hg (h.of_same (.refl x g) rfl rfl rfl rfl rfl rfl rfl rfl rfl rfl
        rfl rfl rfl rfl fun _ he => he) (fun dst msg hm => ?_)
        fun _ hn => absurd hn List.not_mem_nil⟩
      obtain ⟨rfl, rfl⟩ := Prod.mk.injEq .. ▸ List.mem_singleton.mp hm
      cases kind with
      | heartbeat => trivial
      | replication => exact ⟨hdst, fun _ hsucc => absurd hsucc Bool.false_ne_true⟩
    · have hanch := hg.matched.log_anchored x
      have hanchL := hg.matched.leader_anchored _ L hL
      have hslice : strict → req.Slice lib L := fun hstrict =>
        hreq.resolve_right fun hempty => hempty.1 hstrict
      obtain ⟨h', success, hholds, hresp, hout⟩ :=
        h.holds.handleAppendEntries (hanch.matching hanchL) (hg.indexed _ L hL) hge fun hne =>
          ⟨hreq.resolve_right fun hempty => hne hempty.2, hoff hge hne⟩
      have hkeep : strict → ∀ P, P <+: g.log x → P <+: h' ∨ Lacks g.leader req.term P :=
        fun hstrict => keeps_of_outcome h.holds hL (hg.indexed _ L hL) (hslice hstrict)
          (fun hcheck => (hrep hstrict hge hcheck).1) hout
      have hmove := h.sound_move hg (b := g.base x) hge hL (isPrefix_of_outcome hout) hkeep
      obtain ⟨hcur, hrole, hoff', -⟩ := handleAppendEntries_follower lib hge
      have hnode : NodeLog lib strict ids (g.move x req.term h' (g.base x)) x
          { nd.withState (handleAppendEntries lib nd.state req).1 with commitNotify := n } :=
        h.of_follower hge rfl rfl hcur (hoff'.trans h.base_eq.symm) hholds hrole fun _ he => he
      have hext : g.Extends x (g.move x req.term h' (g.base x)) := LogView.extends_move le_rfl
      have hkeep' : strict → ∀ P, P <+: g.log x → P <+: (g.move x req.term h' (g.base x)).log x ∨
          Lacks (g.move x req.term h' (g.base x)).leader
            ((g.move x req.term h' (g.base x)).term x) P := by
        rw [LogView.move_log, LogView.move_term]
        exact hkeep
      rw [hresp]
      by_cases hack : strict ∧ success = true ∧ kind = .replication
      · obtain ⟨hstrict, rfl, rfl⟩ := hack
        obtain ⟨hlen, hpre⟩ := reported_of_outcome h.holds hanch hL hanchL (hslice hstrict)
          (fun hcheck hnil => (hrep hstrict hge hcheck).2 hnil rfl) hout
        have hext' := LogView.extends_withAck (g := g.move x req.term h' (g.base x)) (x := x)
          (T := req.term) (m := h'.length)
        refine ⟨_, hext.trans hext', hmove.withAck LogView.move_term hL hlen
          (LogView.move_log.symm ▸ hpre), hnode.of_same hext' rfl rfl rfl rfl rfl rfl rfl rfl rfl
          rfl rfl rfl rfl rfl fun _ he => he, fun dst msg hm => ?_,
          fun _ hn => absurd hn List.not_mem_nil, hkeep', fun _ hT => .inl hT⟩
        obtain ⟨rfl, rfl⟩ := Prod.mk.injEq .. ▸ List.mem_singleton.mp hm
        exact ⟨hdst, fun _ _ => Set.mem_insert _ _⟩
      · refine ⟨_, hext, hmove, hnode, fun dst msg hm => ?_,
          fun _ hn => absurd hn List.not_mem_nil, hkeep', fun _ hT => .inl hT⟩
        obtain ⟨rfl, rfl⟩ := Prod.mk.injEq .. ▸ List.mem_singleton.mp hm
        cases kind with
        | heartbeat => trivial
        | replication => exact ⟨hdst, fun hstrict hsucc => absurd ⟨hstrict, hsucc, rfl⟩ hack⟩
  simp only [RaftNode.handleAppendEntries]
  split_ifs
  · exact key _
  · exact key _

/-- A node takes over a log of the leader of its term without changing its role. -/
theorem of_installed {nd' : RaftNode} (h : NodeLog lib strict ids g x nd) {b : ℕ}
    {h' L : List LogEntry} (hL : g.leader nd.state.currentTerm = some L)
    (hrole : nd.state.role ≠ .leader) (hid : nd'.id = nd.id) (hpeers : nd'.peers = nd.peers)
    (hcur : nd'.state.currentTerm = nd.state.currentTerm) (hrole' : nd'.state.role = nd.state.role)
    (hoff : nd'.state.logOffset = b) (hholds : nd'.state.Holds lib h')
    (helections : nd'.elections = nd.elections) :
    NodeLog lib strict ids (g.move x nd.state.currentTerm h' b) x nd' where
  id_eq := hid.trans h.id_eq
  peers_eq := hpeers.trans h.peers_eq
  term_eq := LogView.move_term.trans hcur.symm
  base_eq := LogView.move_base.trans hoff.symm
  holds := LogView.move_log.symm ▸ hholds
  won_le T hT := by
    rw [hcur, hrole']
    exact h.won_le T hT
  leader hr := absurd (hrole' ▸ hr) hrole
  campaign hstrict := by
    refine ⟨helections ▸ (h.campaign hstrict).count, by
      rw [helections, hcur]
      exact (h.campaign hstrict).term_le, fun _ hnone => ?_⟩
    change g.leader nd'.state.currentTerm = none at hnone
    rw [hcur, hL] at hnone
    cases hnone

theorem simulates_installSnapshot (h : NodeLog lib strict ids g x nd) (hg : g.Sound strict ids)
    {task src : ℕ} {req : InstallSnapshotRequest}
    (hpacket : PacketLog lib strict ids g ⟨src, x, .installSnapshot req⟩)
    (hoff : nd.KeepsOffset (.deliver task src (.installSnapshot req))) :
    ∃ g', Simulates lib strict ids g x (nd.handleInstallSnapshot lib src req) g' := by
  obtain ⟨hsrc, hdst, hwon, hbase, L, hL, hterm⟩ := hpacket
  obtain ⟨hcur, -, hrole⟩ := handleInstallSnapshot_ballot lib nd.state req
  obtain ⟨h', hholds, hmono, hcases⟩ :=
    h.holds.handleInstallSnapshot (hg.indexed _ L hL) hterm hoff
  have hkeep : ∀ P, P <+: g.log x → P <+: h' ∨
      (nd.state.currentTerm ≤ req.term ∧ Lacks g.leader req.term P) := by
    intro P hP
    rcases hcases with rfl | ⟨hge, hpast, rfl⟩
    · exact .inl hP
    · exact (Replicas.keeps_of_copied LogEntry.term hL (.inl hpast) P hP).imp_right
        fun hlacks => ⟨hge, hlacks⟩
  have hfrom : h' <+: g.log x ∨ h' <+: L := by
    rcases hcases with rfl | ⟨-, -, rfl⟩
    · exact .inl List.prefix_rfl
    · exact .inr (List.take_prefix _ _)
  have hb : g.base x ≤ (handleInstallSnapshot lib nd.state req).1.logOffset := h.base_eq ▸ hmono
  have key : ∀ n pending, ∃ g', Simulates lib strict ids g x
      ⟨{ nd.withState (handleInstallSnapshot lib nd.state req).1 with
        commitNotify := n, pendingSnapshot := pending },
        [(src, .snapshotReply req (handleInstallSnapshot lib nd.state req).2)], []⟩ g' := by
    intro n pending
    have hsent : ∀ g', g.Extends x g' → ∀ dst msg, (dst, msg) ∈ [(src, Message.snapshotReply req
        (handleInstallSnapshot lib nd.state req).2)] → PacketLog lib strict ids g' ⟨x, dst, msg⟩ := by
      intro g' hext dst msg hm
      obtain ⟨rfl, rfl⟩ := Prod.mk.injEq .. ▸ List.mem_singleton.mp hm
      exact ⟨hdst, hbase.trans (hext.base_le _)⟩
    rcases lt_trichotomy req.term nd.state.currentTerm with hlt | heq | hgt
    · have hstate : (handleInstallSnapshot lib nd.state req).1 = nd.state := by
        rw [handleInstallSnapshot, RaftState.adoptTerm_eq_self hlt.le]
        exact congrArg Prod.fst (if_pos hlt)
      refine ⟨g, simulates_of_view hg (h.of_same (.refl x g) rfl rfl rfl rfl rfl rfl rfl ?_ ?_ ?_ ?_
        ?_ ?_ ?_ fun _ he => he) (hsent g (.refl x g)) fun _ hn => absurd hn List.not_mem_nil⟩
      all_goals exact congrArg _ hstate
    · have hadopt : nd.state.adoptTerm req.term = nd.state := RaftState.adoptTerm_eq_self heq.le
      rw [hadopt] at hcur hrole
      have hkeep' : strict → ∀ P, P <+: g.log x → P <+: h' ∨ Lacks g.leader nd.state.currentTerm P :=
        fun _ P hP => (hkeep P hP).imp_right fun hlacks => heq ▸ hlacks.2
      refine ⟨g.move x nd.state.currentTerm h' _, LogView.extends_move hb,
        h.sound_move hg le_rfl (heq ▸ hL) hfrom hkeep', h.of_installed (heq ▸ hL)
          (h.not_leader hg hsrc hwon heq.symm) rfl rfl hcur hrole rfl hholds rfl,
        hsent _ (LogView.extends_move hb), fun _ hn => absurd hn List.not_mem_nil, ?_,
        fun _ hT => .inl hT⟩
      rw [LogView.move_log, LogView.move_term]
      exact hkeep'
    · have hadopt := RaftState.adoptTerm_eq_follower hgt
      rw [hadopt] at hcur hrole
      have hkeep' : strict → ∀ P, P <+: g.log x → P <+: h' ∨ Lacks g.leader req.term P :=
        fun _ P hP => (hkeep P hP).imp_right And.right
      refine ⟨g.move x req.term h' _, LogView.extends_move hb,
        h.sound_move hg hgt.le hL hfrom hkeep', h.of_follower hgt.le rfl rfl hcur rfl hholds hrole
          fun _ he => he, hsent _ (LogView.extends_move hb),
        fun _ hn => absurd hn List.not_mem_nil, ?_, fun _ hT => .inl hT⟩
      rw [LogView.move_log, LogView.move_term]
      exact hkeep'
  simp only [RaftNode.handleInstallSnapshot]
  split_ifs
  · exact key _ _
  · exact key _ _

end NodeLog
end NomadLite
