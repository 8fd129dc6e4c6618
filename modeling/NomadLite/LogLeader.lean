import NomadLite.CommitCount
import NomadLite.LogFollower

/-!
# Candidates and leaders and the replicated log

Steps in which a node stands for election, wins it, appends, sends its log and
counts the replies.
-/

namespace NomadLite

open ReplicatedLog

variable {lib : WireLib} {strict : Prop} {ids : List ℕ} {g g' : LogView} {x : ℕ}
  {nd : RaftNode} {eff : Effect}

namespace NodeLog

theorem simulates_standing (h : NodeLog lib strict ids g x nd) (hg : g.Sound strict ids)
    {order : List ℕ} {caller : Option (ℕ × TimeoutNowRequest)} (hnodup : order.Nodup)
    (hpeers : ∀ p ∈ order, p ∈ nd.peers) :
    ∃ g', Simulates lib strict ids g x ⟨nd.standing order caller, nd.voteRequests order, []⟩ g' := by
  have hle : g.term x ≤ nd.state.currentTerm + 1 := h.term_eq.trans_le (Nat.le_succ _)
  have hmove := LogView.extends_move (g := g) (x := x) (t := nd.state.currentTerm + 1)
    (h := g.log x) le_rfl
  have hvote : (g.move x (nd.state.currentTerm + 1) (g.log x) (g.base x)).Extends x
      ((g.move x (nd.state.currentTerm + 1) (g.log x) (g.base x)).withVote x
        (nd.state.currentTerm + 1) (g.log x).length (lastTerm LogEntry.term (g.log x))) :=
    LogView.extends_withVote
  have hown : ((g.move x (nd.state.currentTerm + 1) (g.log x) (g.base x)).withVote x
      (nd.state.currentTerm + 1) (g.log x).length (lastTerm LogEntry.term (g.log x))).log x =
        g.log x := Function.update_self ..
  refine ⟨_, hmove.trans hvote, (hg.moveTerm hle).withVote LogView.move_term ?_, ?_,
    fun dst msg hm => ?_, fun _ hn => absurd hn List.not_mem_nil,
    fun _ P hP => .inl (by rwa [hown]), fun _ hT => .inl hT⟩
  · exact .inr (by rw [LogView.move_log]; exact ⟨rfl, le_rfl⟩)
  · have hlog : nd.state.lastLogIndex = (g.log x).length ∧
        nd.state.lastLogTerm = lastTerm LogEntry.term (g.log x) :=
      ⟨h.holds.lastLogIndex, h.holds.lastLogTerm⟩
    refine ⟨h.id_eq, h.peers_eq, Function.update_self .., (Function.update_self ..).trans h.base_eq, ?_,
      fun T hT => ?_, fun hr => ?_, fun hstrict => ⟨fun e he => ?_, fun e he => ?_,
        fun _ _ e he hterm => ?_⟩⟩
    · rw [hown]
      exact h.holds.congr rfl rfl rfl
    · have hT := (h.won_le T hT).1
      exact ⟨hT.trans (Nat.le_succ _), fun heq => absurd hT (by
        change nd.state.currentTerm + 1 = T at heq
        omega)⟩
    · cases hr
    · rcases List.mem_append.mp he with hold | hnew
      · exact ((h.campaign hstrict).count e hold).mono fun _ hv => (hmove.trans hvote).votes hv
      · rw [List.mem_singleton.mp hnew]
        exact .start hnodup fun p hp => h.peers_eq ▸ hpeers p hp
    · rcases List.mem_append.mp he with hold | hnew
      · exact ((h.campaign hstrict).term_le e hold).trans (Nat.le_succ _)
      · rw [List.mem_singleton.mp hnew]
        exact le_rfl
    · rcases List.mem_append.mp he with hold | hnew
      · have := (h.campaign hstrict).term_le e hold
        change e.request.term = nd.state.currentTerm + 1 at hterm
        omega
      · rw [List.mem_singleton.mp hnew, hown]
        refine ⟨hlog.1, hlog.2, .inl ?_⟩
        change (x, nd.state.currentTerm + 1, nd.state.lastLogIndex, nd.state.lastLogTerm) = _
        rw [hlog.1, hlog.2]
  · obtain ⟨p, -, heq⟩ := List.mem_map.mp hm
    obtain ⟨rfl, rfl⟩ := Prod.mk.injEq .. ▸ heq
    trivial

theorem simulates_elections (h : NodeLog lib strict ids g x nd) (hg : g.Sound strict ids)
    {elections : List Election}
    (helections : strict → ∀ e ∈ elections, VoteCount ids x (fun v req =>
      (v, req.term, req.lastLogIndex, req.lastLogTerm) ∈ g.votes) e ∧
      ∃ e' ∈ nd.elections, e'.request = e.request) :
    Simulates lib strict ids g x ⟨{ nd with elections := elections }, [], []⟩ g := by
  refine simulates_of_view hg ⟨h.id_eq, h.peers_eq, h.term_eq, h.base_eq, h.holds, h.won_le,
    h.leader, fun hstrict => ⟨fun e he => (helections hstrict e he).1, fun e he => ?_,
      fun hr hnone e he => ?_⟩⟩ (fun _ _ hm => absurd hm List.not_mem_nil)
    fun _ hn => absurd hn List.not_mem_nil
  · obtain ⟨e', he', hreq⟩ := (helections hstrict e he).2
    exact hreq ▸ (h.campaign hstrict).term_le e' he'
  · obtain ⟨e', he', hreq⟩ := (helections hstrict e he).2
    exact hreq ▸ (h.campaign hstrict).own hr hnone e' he'

theorem simulates_counted (h : NodeLog lib strict ids g x nd) (hg : g.Sound strict ids)
    {task src : ℕ} {e : Election} {b : Bool} (he : nd.elections[task]? = some e)
    (hsrc : e.pending.head? = some src)
    (hgrant : strict → b = true → (src, e.request.term, e.request.lastLogIndex,
      e.request.lastLogTerm) ∈ g.votes) :
    Simulates lib strict ids g x ⟨nd.setElection task (e.count b), [], []⟩ g := by
  refine h.simulates_elections hg fun hstrict e' he' => ?_
  rcases List.mem_or_eq_of_mem_set he' with hold | rfl
  · exact ⟨(h.campaign hstrict).count e' hold, e', hold, rfl⟩
  · exact ⟨((h.campaign hstrict).count e (List.mem_of_getElem? he)).count hsrc (hgrant hstrict),
      e, List.mem_of_getElem? he, rfl⟩

theorem packetLog_endElection {task : ℕ} {e : Election} {s : RaftState} {notes : List Note} :
    ∀ dst msg, (dst, msg) ∈ (nd.endElection task e s notes).sent →
      PacketLog lib strict ids g ⟨x, dst, msg⟩ := by
  intro dst msg hm
  obtain ⟨c, -, heq⟩ := List.mem_map.mp hm
  obtain ⟨-, rfl⟩ := Prod.mk.injEq .. ▸ heq
  trivial

theorem leads_won (h : NodeLog lib strict ids g x nd) {e : Election} :
    Leads strict ids (g.win x nd.state.currentTerm) x (nd.winning e) := by
  have hnext : ∀ p, (nd.winning e).nextIndex.lookup p =
      if p ∈ peersOf ids x then some (nd.state.lastLogIndex + 1) else none := fun p => by
    rw [← h.peers_eq]
    exact IndexMap.lookup_foldl_insert nd.peers _ ∅ p
  have hmatch : ∀ p, (nd.winning e).matchIndex.lookup p =
      if p ∈ peersOf ids x then some 0 else none := fun p => by
    rw [← h.peers_eq]
    exact IndexMap.lookup_foldl_insert nd.peers _ ∅ p
  refine ⟨.inl rfl, LogView.win_leader, fun p hp => ⟨_, (hnext p).trans (if_pos hp)⟩,
    fun _ p n hn => ?_, fun _ p => ?_, fun _ p m hm => ?_⟩
  · rw [hnext] at hn
    split_ifs at hn
    exact Option.some.inj hn ▸ (congrArg (· + 1) h.holds.lastLogIndex).le
  · rw [← Finmap.lookup_isSome, hmatch]
    split_ifs with hp
    · exact iff_of_true rfl hp
    · exact iff_of_false Bool.false_ne_true hp
  · rw [hmatch] at hm
    split_ifs at hm
    exact .inl (Option.some.inj hm ▸ Nat.zero_le _)

theorem simulates_won (h : NodeLog lib strict ids g x nd) (hg : g.Sound strict ids)
    (hids : ids.Nodup) (hx : x ∈ ids) {task : ℕ} {e : Election}
    (he : nd.elections[task]? = some e) (hrole : nd.state.role = .candidate)
    (hterm : nd.state.currentTerm = e.request.term) (hmaj : nd.majority ≤ e.voteCount)
    (hone : ∀ y, (nd.state.currentTerm, y) ∈ g.won → y = x) :
    Simulates lib strict ids g x
      (nd.endElection task e (nd.winning e) [.becameLeader (nd.winning e)])
      (g.win x nd.state.currentTerm) := by
  have hfresh : ∀ y, (nd.state.currentTerm, y) ∉ g.won := by
    intro y hy
    obtain rfl := hone y hy
    exact (h.won_le _ hy).2 rfl hrole
  have hnone := hg.leader_eq_none hfresh
  have hext := LogView.extends_win (x := x) hnone
  refine ⟨hext, hg.win hfresh h.term_eq h.holds.indexed fun hstrict => ?_, ⟨h.id_eq, h.peers_eq,
    h.term_eq, h.base_eq, h.holds.congr rfl rfl rfl, fun T hT => ?_, fun _ => h.leads_won,
    fun hstrict => ⟨fun e' he' => ?_, fun e' he' => ?_, nofun⟩⟩, packetLog_endElection,
    fun n hn => ?_, fun _ P hP => .inl hP, fun T hT => ?_⟩
  · obtain ⟨hli, hlt, hown⟩ := (h.campaign hstrict).own hrole hnone e (List.mem_of_getElem? he)
      hterm.symm
    obtain ⟨Q, hsub, hcard, hQ⟩ := ((h.campaign hstrict).count e
      (List.mem_of_getElem? he)).exists_majority hids hx rfl (h.peers_eq ▸ hmaj)
    refine ⟨Q, hsub, hcard, fun w hw => ?_⟩
    rw [hterm, ← hli, ← hlt]
    rcases hQ w hw with rfl | hv
    · exact hown
    · exact hv
  · rcases hT with heq | hT
    · exact ⟨(Prod.mk.inj heq).1.le, fun _ => RaftRole.noConfusion⟩
    · exact ⟨(h.won_le T hT).1, fun _ => RaftRole.noConfusion⟩
  · exact ((h.campaign hstrict).count e' (List.mem_of_mem_eraseIdx he')).mono
      fun _ hv => hext.votes hv
  · exact (h.campaign hstrict).term_le e' (List.mem_of_mem_eraseIdx he')
  · rw [List.mem_singleton.mp hn]
    refine ⟨g.log x, [], h.holds.congr rfl rfl rfl, ?_, fun _ he => absurd he List.not_mem_nil,
      .inl rfl⟩
    rw [List.append_nil]
    exact LogView.win_leader
  · rcases hT with heq | hT
    · exact .inr ⟨nd.winning e, List.mem_singleton_self _, (Prod.mk.inj heq).1.symm⟩
    · exact .inl hT

theorem simulates_appendCommand (h : NodeLog lib strict ids g x nd) (hg : g.Sound strict ids)
    {command : Command} (hrole : nd.state.role = .leader) :
    Simulates lib strict ids g x ⟨nd.withState (nd.state.appendEntry command), [], []⟩
      (g.lead x nd.state.currentTerm ((nd.state.newEntry command).onWire lib)) := by
  have hl := h.leader hrole
  have hholds := h.holds.appendEntry command
  have hlog := LogView.lead_log (g := g) (x := x) (T := nd.state.currentTerm)
    (e := (nd.state.newEntry command).onWire lib)
  have hext := LogView.extends_lead (e := (nd.state.newEntry command).onWire lib) hl.log rfl hl.won
  refine ⟨hext, hg.lead hl.log h.term_eq rfl hl.won hholds.indexed, ⟨h.id_eq, h.peers_eq, h.term_eq,
    h.base_eq, hlog.symm ▸ hholds, h.won_le, fun _ => ⟨hl.won, hlog.symm ▸ LogView.lead_leader,
      hl.next_some, fun hstrict p n hn => ?_, hl.match_peer, hl.match_ack⟩,
    fun hstrict => ⟨(h.campaign hstrict).count, (h.campaign hstrict).term_le, fun hr => ?_⟩⟩,
    fun _ _ hm => absurd hm List.not_mem_nil, fun _ hn => absurd hn List.not_mem_nil,
    fun _ P hP => .inl ?_, fun _ hT => .inl hT⟩
  · rw [hlog, List.length_append]
    exact (hl.next_le hstrict p n hn).trans (by omega)
  · exact absurd (hrole.symm.trans hr) RaftRole.noConfusion
  · rw [hlog]
    exact hP.trans (List.prefix_append _ _)

theorem mem_peers (h : NodeLog lib strict ids g x nd) (hx : x ∈ ids) {p : ℕ} (hp : p ∈ nd.peers) :
    p ∈ peersOf ids x ∧ x ∈ peersOf ids p := by
  rw [h.peers_eq] at hp
  exact ⟨hp, mem_peersOf.mpr ⟨hx, (mem_peersOf.mp hp).2.symm⟩⟩

theorem packetLog_heartbeat (h : NodeLog lib strict ids g x nd) (hx : x ∈ ids)
    (hrole : nd.state.role = .leader) {p : ℕ} (hp : p ∈ nd.peers) :
    PacketLog lib strict ids g
      ⟨x, p, .appendEntries .heartbeat (nd.state.heartbeatRequest nd.id)⟩ := by
  obtain ⟨hdst, hsrc⟩ := h.mem_peers hx hp
  have hl := h.leader hrole
  exact ⟨hsrc, hdst, hl.won, g.log x, hl.log,
    .inl (RaftState.Holds.slice_heartbeatRequest lib nd.state nd.id _)⟩

theorem packetLog_replication (h : NodeLog lib strict ids g x nd) (hx : x ∈ ids)
    (hrole : nd.state.role = .leader) {p : ℕ} (hp : p ∈ nd.peers) {msg : Message}
    (hmsg : nd.state.replicationMessage lib nd.id p = some msg) :
    PacketLog lib strict ids g ⟨x, p, msg⟩ := by
  obtain ⟨hdst, hsrc⟩ := h.mem_peers hx hp
  have hl := h.leader hrole
  obtain ⟨n, hn⟩ := hl.next_some p hdst
  have hcases := RaftState.replicationMessage_cases hmsg
  rw [hn, Option.getD_some] at hcases
  rcases hcases with ⟨snapshot, hsnap, -, rfl⟩ | ⟨hoff, rfl⟩
  · have hpos : 0 < nd.state.logOffset := by
      by_contra hzero
      rw [h.holds.snapshot_none (by omega)] at hsnap
      cases hsnap
    obtain ⟨snapshot', hsnap', hindex, hterm⟩ := h.holds.snapshot_some hpos
    obtain rfl : snapshot = snapshot' := Option.some.inj (hsnap.symm.trans hsnap')
    refine ⟨hsrc, hdst, hl.won, ?_, g.log x, hl.log, ?_⟩
    · change snapshot.lastIncludedIndex ≤ g.base x
      rw [hindex, h.base_eq]
    · change ((g.log x)[snapshot.lastIncludedIndex - 1]?).map _ = some snapshot.lastIncludedTerm
      rw [hindex, hterm]
  · refine ⟨hsrc, hdst, hl.won, g.log x, hl.log, ?_⟩
    by_cases hempty : ¬ strict ∧ (nd.state.appendRequest lib nd.id n).entries = []
    · exact .inr hempty
    · refine .inl (h.holds.slice_appendRequest hn hoff ?_)
      by_cases hstrict : strict
      · exact .inr (hl.next_le hstrict p n hn)
      · exact .inl fun hnil => hempty ⟨hstrict, hnil⟩

/-! ### Replies to the leader -/

theorem leads_recordMatch (hl : Leads strict ids g x nd.state)
    {p m : ℕ} (hp : p ∈ peersOf ids x) (hle : strict → m ≤ (g.log x).length)
    (hack : strict → m ≤ nd.state.logOffset ∨ (p, nd.state.currentTerm, m) ∈ g.acks) :
    Leads strict ids g x (nd.state.recordMatch p m) where
  won := hl.won
  log := hl.log
  next_some q hq := by
    by_cases hqp : q = p
    · exact ⟨m + 1, hqp ▸ Finmap.lookup_insert _⟩
    · obtain ⟨n, hn⟩ := hl.next_some q hq
      exact ⟨n, (Finmap.lookup_insert_of_ne _ hqp).trans hn⟩
  next_le hstrict q n hn := by
    by_cases hqp : q = p
    · subst hqp
      have hn := (Finmap.lookup_insert nd.state.nextIndex).symm.trans hn
      have := hle hstrict
      have := Option.some.inj hn
      omega
    · exact hl.next_le hstrict q n ((Finmap.lookup_insert_of_ne _ hqp).symm.trans hn)
  match_peer hstrict q := by
    change q ∈ nd.state.matchIndex.insert p m ↔ _
    rw [Finmap.mem_insert, hl.match_peer hstrict q]
    exact ⟨fun hq => hq.elim (fun heq => heq ▸ hp) id, .inr⟩
  match_ack hstrict q n hn := by
    by_cases hqp : q = p
    · subst hqp
      have hn := (Finmap.lookup_insert nd.state.matchIndex).symm.trans hn
      exact Option.some.inj hn ▸ hack hstrict
    · exact hl.match_ack hstrict q n ((Finmap.lookup_insert_of_ne _ hqp).symm.trans hn)

theorem leads_decrementNext (hl : Leads strict ids g x nd.state) (p : ℕ) :
    Leads strict ids g x (nd.state.decrementNext p) := by
  simp only [RaftState.decrementNext]
  split_ifs with hlt
  · refine ⟨hl.won, hl.log, fun q hq => ?_, fun hstrict q n hn => ?_, hl.match_peer, hl.match_ack⟩
    · by_cases hqp : q = p
      · subst hqp
        exact ⟨_, Finmap.lookup_insert _⟩
      · obtain ⟨n, hn⟩ := hl.next_some q hq
        exact ⟨n, (Finmap.lookup_insert_of_ne _ hqp).trans hn⟩
    · by_cases hqp : q = p
      · subst hqp
        have hnew := Option.some.inj ((Finmap.lookup_insert nd.state.nextIndex).symm.trans hn)
        cases hold : nd.state.nextIndex.lookup q with
        | none =>
          rw [hold, Option.getD_none] at hlt
          omega
        | some k =>
          have := hl.next_le hstrict q k hold
          rw [hold, Option.getD_some] at hnew
          omega
      · exact hl.next_le hstrict q n ((Finmap.lookup_insert_of_ne _ hqp).symm.trans hn)
  · exact hl

theorem of_maps {nd' : RaftNode} (h : NodeLog lib strict ids g x nd) (hid : nd'.id = nd.id)
    (hpeers : nd'.peers = nd.peers) (hcur : nd'.state.currentTerm = nd.state.currentTerm)
    (hrole : nd'.state.role = nd.state.role) (hlog : nd'.state.log = nd.state.log)
    (hoff : nd'.state.logOffset = nd.state.logOffset)
    (hsnap : nd'.state.snapshot = nd.state.snapshot) (helections : nd'.elections = nd.elections)
    (hleads : nd.state.role = .leader → Leads strict ids g x nd'.state) :
    NodeLog lib strict ids g x nd' where
  id_eq := hid.trans h.id_eq
  peers_eq := hpeers.trans h.peers_eq
  term_eq := h.term_eq.trans hcur.symm
  base_eq := h.base_eq.trans hoff.symm
  holds := h.holds.congr hlog hoff hsnap
  won_le := by
    rw [hcur, hrole]
    exact h.won_le
  leader hr := hleads (hrole ▸ hr)
  campaign hstrict := (h.campaign hstrict).congr hcur hrole (helections ▸ fun _ he => he)

end NodeLog
end NomadLite
