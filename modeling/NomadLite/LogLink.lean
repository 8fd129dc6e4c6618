import NomadLite.LogView

/-!
# How nodes, messages and notes show in the replicated log

A node's whole log and term are those of the view. A leader's log is the log of its
term, its `next_index` values stay inside it, and a `match_index` above the offset
has been acknowledged. A request in flight is a slice of the log of its term.
-/

namespace NomadLite

open ReplicatedLog

structure Leads (strict : Prop) (ids : List ℕ) (g : LogView) (x : ℕ) (s : RaftState) : Prop where
  won : (s.currentTerm, x) ∈ g.won
  log : g.leader s.currentTerm = some (g.log x)
  next_some : ∀ p ∈ peersOf ids x, ∃ n, s.nextIndex.lookup p = some n
  next_le : strict → ∀ p n, s.nextIndex.lookup p = some n → n ≤ (g.log x).length + 1
  match_peer : strict → ∀ p, p ∈ s.matchIndex ↔ p ∈ peersOf ids x
  match_ack : strict → ∀ p m, s.matchIndex.lookup p = some m →
    m ≤ s.logOffset ∨ (p, s.currentTerm, m) ∈ g.acks

/-- The running elections: the votes counted so far, and that a candidate's log is still the one
its requests describe while its term has no leader. -/
structure Campaign (ids : List ℕ) (g : LogView) (x : ℕ) (nd : RaftNode) : Prop where
  count : ∀ e ∈ nd.elections, VoteCount ids x (fun v req =>
    (v, req.term, req.lastLogIndex, req.lastLogTerm) ∈ g.votes) e
  term_le : ∀ e ∈ nd.elections, e.request.term ≤ nd.state.currentTerm
  own : nd.state.role = .candidate → g.leader nd.state.currentTerm = none → ∀ e ∈ nd.elections,
    e.request.term = nd.state.currentTerm → e.request.lastLogIndex = (g.log x).length ∧
      e.request.lastLogTerm = lastTerm LogEntry.term (g.log x) ∧
      (x, e.request.term, e.request.lastLogIndex, e.request.lastLogTerm) ∈ g.votes

structure NodeLog (lib : WireLib) (strict : Prop) (ids : List ℕ) (g : LogView) (x : ℕ)
    (nd : RaftNode) : Prop where
  id_eq : nd.id = x
  peers_eq : nd.peers = peersOf ids x
  term_eq : g.term x = nd.state.currentTerm
  base_eq : g.base x = nd.state.logOffset
  holds : nd.state.Holds lib (g.log x)
  won_le : ∀ T, (T, x) ∈ g.won →
    T ≤ nd.state.currentTerm ∧ (nd.state.currentTerm = T → nd.state.role ≠ .candidate)
  leader : nd.state.role = .leader → Leads strict ids g x nd.state
  campaign : strict → Campaign ids g x nd

def PacketLog (lib : WireLib) (strict : Prop) (ids : List ℕ) (g : LogView) (p : Packet) : Prop :=
  match p.msg with
  | .voteReply req resp => strict → resp.voteGranted = true →
      (p.src, req.term, req.lastLogIndex, req.lastLogTerm) ∈ g.votes
  | .appendEntries _ req => p.src ∈ peersOf ids p.dst ∧ p.dst ∈ peersOf ids p.src ∧
      (req.term, p.src) ∈ g.won ∧
      ∃ L, g.leader req.term = some L ∧ (req.Slice lib L ∨ (¬ strict ∧ req.entries = []))
  | .appendReply .replication _ resp => p.src ∈ peersOf ids p.dst ∧
      (strict → resp.success = true → (p.src, resp.term, resp.matchIndex) ∈ g.acks)
  | .installSnapshot req => p.src ∈ peersOf ids p.dst ∧ p.dst ∈ peersOf ids p.src ∧
      (req.term, p.src) ∈ g.won ∧ req.lastIncludedIndex ≤ g.base p.src ∧
      ∃ L, g.leader req.term = some L ∧
        (L[req.lastIncludedIndex - 1]?).map LogEntry.term = some req.lastIncludedTerm
  | .snapshotReply req _ => p.src ∈ peersOf ids p.dst ∧ req.lastIncludedIndex ≤ g.base p.dst
  | _ => True

def NoteLog (lib : WireLib) (strict : Prop) (ids : List ℕ) (g : LogView) (x : ℕ) : Note → Prop
  | .becameLeader s => ∃ h ext, s.Holds lib h ∧ g.leader s.currentTerm = some (h ++ ext) ∧
      (∀ e ∈ ext, e.term = s.currentTerm) ∧ (s.currentTerm, x) ∈ g.won
  | .advancedCommit s => strict → ∃ h, s.Holds lib h ∧ s.commitIndex ≤ h.length ∧
      g.toReplicas.Committed LogEntry.term ids.toFinset s.currentTerm (h.take s.commitIndex) ∧
      (x, s.currentTerm, s.commitIndex) ∈ g.acks
  | .applied _ => True

variable {lib : WireLib} {strict : Prop} {ids : List ℕ} {g g' : LogView} {x y : ℕ}
  {nd nd' : RaftNode}

theorem PacketLog.extends {p : Packet} (h : PacketLog lib strict ids g p)
    (hext : g.Extends x g') : PacketLog lib strict ids g' p := by
  obtain ⟨src, dst, msg⟩ := p
  cases msg with
  | voteReply req resp => exact fun hstrict hg => hext.votes (h hstrict hg)
  | appendEntries kind req =>
    obtain ⟨hsrc, hdst, hwon, L, hL, hreq⟩ := h
    obtain ⟨ext, hL', -⟩ := hext.leaders _ L hL
    refine ⟨hsrc, hdst, hext.won hwon, L ++ ext, hL', ?_⟩
    rcases hreq with hslice | hempty
    · exact .inl hslice.grow
    · exact .inr hempty
  | appendReply kind req resp =>
    cases kind with
    | heartbeat => trivial
    | replication => exact ⟨h.1, fun hstrict hsucc => hext.acks (h.2 hstrict hsucc)⟩
  | installSnapshot req =>
    obtain ⟨hsrc, hdst, hwon, hbase, L, hL, hterm⟩ := h
    obtain ⟨ext, hL', -⟩ := hext.leaders _ L hL
    refine ⟨hsrc, hdst, hext.won hwon, hbase.trans (hext.base_le _), L ++ ext, hL', ?_⟩
    obtain ⟨e, he, hterm⟩ := Option.map_eq_some_iff.mp hterm
    rw [getElem?_of_isPrefix (List.prefix_append L ext) he, Option.map_some, hterm]
  | snapshotReply req resp => exact ⟨h.1, h.2.trans (hext.base_le _)⟩
  | voteRequest | timeoutNow | timeoutNowReply => trivial

theorem NoteLog.extends {n : Note} (h : NoteLog lib strict ids g y n) (hext : g.Extends x g') :
    NoteLog lib strict ids g' y n := by
  cases n with
  | becameLeader s =>
    obtain ⟨h₀, ext, hholds, hL, hterm, hwon⟩ := h
    obtain ⟨ext', hL', hterm'⟩ := hext.leaders _ _ hL
    refine ⟨h₀, ext ++ ext', hholds, by rwa [← List.append_assoc], fun e he => ?_, hext.won hwon⟩
    rcases List.mem_append.mp he with he | he
    · exact hterm e he
    · exact hterm' e he
  | advancedCommit s =>
    intro hstrict
    obtain ⟨h₀, hholds, hle, hc, hack⟩ := h hstrict
    exact ⟨h₀, hholds, hle, hc.grow hext.leaders hext.acks, hext.acks hack⟩
  | applied => trivial

theorem Campaign.extends (h : Campaign ids g x nd) (hext : g.Extends y g')
    (hlog : g'.log x = g.log x) : Campaign ids g' x nd where
  count e he := (h.count e he).mono fun _ hv => hext.votes hv
  term_le := h.term_le
  own hrole hnone e he hterm := by
    have hold : g.leader nd.state.currentTerm = none := by
      cases hL : g.leader nd.state.currentTerm with
      | none => rfl
      | some L =>
        obtain ⟨ext, hL', -⟩ := hext.leaders _ L hL
        rw [hL'] at hnone
        cases hnone
    obtain ⟨hli, hlt, hvote⟩ := h.own hrole hold e he hterm
    exact ⟨hlog ▸ hli, hlog ▸ hlt, hext.votes hvote⟩

theorem NodeLog.of_ne (h : NodeLog lib strict ids g y nd) (hext : g.Extends x g')
    (hg' : g'.Sound strict ids) (hne : y ≠ x) : NodeLog lib strict ids g' y nd := by
  obtain ⟨hterm, hlog, hbase⟩ := hext.other y hne
  refine ⟨h.id_eq, h.peers_eq, hterm.trans h.term_eq, hbase.trans h.base_eq, hlog ▸ h.holds,
    fun T hT => h.won_le T (hext.won_own T y hT hne), fun hrole => ?_,
    fun hstrict => (h.campaign hstrict).extends hext hlog⟩
  have hl := h.leader hrole
  have hsame : g'.leader nd.state.currentTerm = g.leader nd.state.currentTerm := by
    by_contra hchanged
    exact hne (hg'.unique _ y x (hext.won hl.won) (hext.own _ hchanged))
  exact ⟨hext.won hl.won, by rw [hsame, hlog, hl.log], hl.next_some, hlog ▸ hl.next_le,
    hl.match_peer, fun hstrict p m hm => (hl.match_ack hstrict p m hm).imp_right (hext.acks ·)⟩

end NomadLite
