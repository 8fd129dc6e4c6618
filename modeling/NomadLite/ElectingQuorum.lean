import NomadLite.ElectionSafety

/-!
# The electing quorum stays bound

In the part of the protocol that elects leaders, a vote is cleared within its term
only when a candidate hears from the leader of that term. Whoever granted the leader
its vote is a follower, and the leader hears from no other leader of its term, so
the vote of everyone in the quorum lasts as long as the term. Leaders may send any
request of their own term here, whatever their log.
-/

namespace NomadLite

def Event.Electoral : Event → Prop
  | .electionTimeout _ | .voteFailed _ | .finishElection _ => True
  | .deliver _ _ (.voteRequest _) | .deliver _ _ (.appendEntries ..)
  | .deliver _ _ (.installSnapshot _) => True
  | .deliver _ _ (.voteReply req resp) => resp.term ≤ req.term
  | _ => False

def Message.LedBy (x term : ℕ) : Message → Prop
  | .appendEntries _ req => req.term = term ∧ req.leaderId = x
  | .installSnapshot req => req.term = term ∧ req.leaderId = x
  | _ => False

instance : DecidablePred Event.Electoral
  | .electionTimeout _ | .voteFailed _ | .finishElection _ => isTrue trivial
  | .deliver _ _ (.voteRequest _) | .deliver _ _ (.appendEntries ..)
  | .deliver _ _ (.installSnapshot _) => isTrue trivial
  | .deliver _ _ (.voteReply req resp) => inferInstanceAs (Decidable (resp.term ≤ req.term))
  | .deliver _ _ (.appendReply ..) | .deliver _ _ (.snapshotReply ..)
  | .deliver _ _ (.timeoutNow _) | .deliver _ _ (.timeoutNowReply ..) => isFalse id
  | .timeoutNowElection .. | .heartbeatTick | .replicateTick | .appendCommand _
  | .startTransfer .. | .transferPoll | .transferFailed | .getCommittedEntries
  | .beginCompaction | .finishCompaction .. => isFalse id

instance (x term : ℕ) : DecidablePred (Message.LedBy x term)
  | .appendEntries _ req => inferInstanceAs (Decidable (req.term = term ∧ req.leaderId = x))
  | .installSnapshot req => inferInstanceAs (Decidable (req.term = term ∧ req.leaderId = x))
  | .voteRequest _ | .voteReply .. | .appendReply .. | .snapshotReply .. | .timeoutNow _
  | .timeoutNowReply .. => isFalse id

inductive ElectionAction where
  | node (a : Action)
  | lead (x dst : ℕ) (msg : Message)
deriving DecidableEq

namespace RaftState

/-- What a step of node `x` may do to its ballot: a follower keeps its vote and a leader its
office for the rest of the term. -/
structure Binds (x : ℕ) (s s' : RaftState) : Prop where
  term_le : s.currentTerm ≤ s'.currentTerm
  self : s'.role ≠ .follower → s'.votedFor = some x
  follower : s'.currentTerm = s.currentTerm → s.role = .follower →
    s'.role = .follower ∧ ∀ c, s.votedFor = some c → s'.votedFor = some c
  leader : s'.currentTerm = s.currentTerm → s.role = .leader → s'.role = .leader

variable {s s' : RaftState} {x : ℕ}

theorem Binds.of_same (hself : s.role ≠ .follower → s.votedFor = some x)
    (hterm : s'.currentTerm = s.currentTerm) (hvote : s'.votedFor = s.votedFor)
    (hrole : s'.role = s.role) : s.Binds x s' :=
  ⟨hterm.ge, fun h => hvote.trans (hself (hrole ▸ h)),
    fun _ h => ⟨hrole.trans h, fun _ hc => hvote.trans hc⟩, fun _ h => hrole.trans h⟩

theorem Binds.of_lt (hlt : s.currentTerm < s'.currentTerm)
    (hself : s'.role ≠ .follower → s'.votedFor = some x) : s.Binds x s' :=
  ⟨hlt.le, hself, fun h => absurd h hlt.ne', fun h => absurd h hlt.ne'⟩

theorem binds_adoptTerm (hself : s.role ≠ .follower → s.votedFor = some x) (t : ℕ) :
    s.Binds x (s.adoptTerm t) := by
  rcases lt_or_ge s.currentTerm t with hlt | hge
  · rw [adoptTerm_eq_follower hlt]
    exact .of_lt hlt fun h => absurd rfl h
  · rw [adoptTerm_eq_self hge]
    exact .of_same hself rfl rfl rfl

theorem binds_castVote (hself : s.role ≠ .follower → s.votedFor = some x) {t c : ℕ} (hne : c ≠ x)
    (hfree : (s.adoptTerm t).votedFor = none ∨ (s.adoptTerm t).votedFor = some c) :
    (s.adoptTerm t).role = .follower ∧ s.Binds x ((s.adoptTerm t).castVote c) := by
  have hadopt := binds_adoptTerm hself t
  have hrole : (s.adoptTerm t).role = .follower := by
    by_contra hnot
    rw [hadopt.self hnot] at hfree
    rcases hfree with hfree | hfree
    · cases hfree
    · exact hne (Option.some.inj hfree).symm
  refine ⟨hrole, hadopt.term_le, fun h => absurd hrole h, fun hterm hf => ⟨hrole, ?_⟩,
    fun hterm hl => ?_⟩
  · intro d hd
    rw [(hadopt.follower hterm hf).2 d hd] at hfree
    rcases hfree with hfree | hfree
    · cases hfree
    · exact congrArg some (Option.some.inj hfree).symm
  · exact absurd ((hadopt.leader hterm hl).symm.trans hrole) RaftRole.noConfusion

end RaftState

section Handlers

variable (lib : WireLib) {s : RaftState} {x : ℕ}

theorem binds_handleAppendEntries {req : AppendEntriesRequest}
    (hself : s.role ≠ .follower → s.votedFor = some x)
    (hlead : s.role = .leader → s.currentTerm ≠ req.term) :
    s.Binds x (handleAppendEntries lib s req).1 := by
  rcases lt_or_ge req.term s.currentTerm with hlt | hge
  · rw [handleAppendEntries_stale hlt]
    exact .of_same hself rfl rfl rfl
  · obtain ⟨log, commitIndex, heq⟩ := handleAppendEntries_eq_setLog lib hge
    have hterm := s.follow_currentTerm req.leaderId hge
    have hvote := s.follow_votedFor req.leaderId hge
    have hrole : (s.follow req.term req.leaderId).role = .follower := RaftState.follow_role
    rw [heq]
    refine ⟨hge.trans_eq hterm.symm, fun h => absurd hrole h, fun hsame hf => ⟨hrole, ?_⟩, ?_⟩
    · intro c hc
      rw [if_pos ⟨hsame.symm.trans hterm, hf⟩] at hvote
      exact hvote.trans hc
    · intro hsame hl
      exact absurd (hsame.symm.trans hterm) (hlead hl)

theorem binds_handleInstallSnapshot (hself : s.role ≠ .follower → s.votedFor = some x)
    (req : InstallSnapshotRequest) : s.Binds x (handleInstallSnapshot lib s req).1 := by
  obtain ⟨hterm, hvote, hrole⟩ := handleInstallSnapshot_ballot lib s req
  have hadopt := RaftState.binds_adoptTerm hself req.term
  refine ⟨?_, ?_, ?_, ?_⟩
  · exact hterm ▸ hadopt.term_le
  · rw [hrole, hvote]
    exact hadopt.self
  · rw [hterm, hrole, hvote]
    exact hadopt.follower
  · rw [hterm, hrole]
    exact hadopt.leader

end Handlers

structure Effect.Binds (x : ℕ) (s : RaftState) (eff : Effect) : Prop where
  state : s.Binds x eff.node.state
  grant : ∀ dst req resp, (dst, .voteReply req resp) ∈ eff.sent → resp.voteGranted = true →
    eff.node.state.currentTerm = req.term ∧ eff.node.state.votedFor = some dst ∧
      eff.node.state.role = .follower
  leader : ∀ s', .becameLeader s' ∈ eff.notes →
    eff.node.state.currentTerm = s'.currentTerm ∧ eff.node.state.role = .leader

namespace RaftNode

variable {lib : WireLib} {nd : RaftNode} {x : ℕ} {eff : Effect}

theorem binds_handleVoteRequest (hself : nd.state.role ≠ .follower → nd.state.votedFor = some x)
    {src : ℕ} {req : VoteRequest} (hcand : req.candidateId = src) (hne : src ≠ x) :
    (nd.handleVoteRequest src req).Binds x nd.state := by
  rcases handleRequestVote_cases nd.state req with hrefused | ⟨hcur, hfree, -, hgranted⟩
  · rw [RaftNode.handleVoteRequest, hrefused]
    refine ⟨RaftState.binds_adoptTerm hself _, fun dst req' resp hm hg => ?_,
      fun _ hn => absurd hn List.not_mem_nil⟩
    obtain ⟨-, heq⟩ := Prod.mk.injEq .. ▸ List.mem_singleton.mp hm
    obtain ⟨-, rfl⟩ := Message.voteReply.inj heq
    exact absurd hg Bool.false_ne_true
  · rw [RaftNode.handleVoteRequest, hgranted]
    obtain ⟨hrole, hbinds⟩ := RaftState.binds_castVote hself (hcand ▸ hne) hfree
    refine ⟨hbinds, fun dst req' resp hm _ => ?_, fun _ hn => absurd hn List.not_mem_nil⟩
    obtain ⟨rfl, heq⟩ := Prod.mk.injEq .. ▸ List.mem_singleton.mp hm
    obtain ⟨rfl, -⟩ := Message.voteReply.inj heq
    exact ⟨hcur, congrArg some hcand, hrole⟩

theorem Transition.binds {ev : Event} (h : Transition lib nd ev eff) (hev : ev.Electoral)
    (hid : nd.id = x) (hself : nd.state.role ≠ .follower → nd.state.votedFor = some x)
    (hvote : ∀ src req, ev.packet x = some ⟨src, x, .voteRequest req⟩ →
      req.candidateId = src ∧ src ≠ x)
    (hlead : ∀ src kind req, ev.packet x = some ⟨src, x, .appendEntries kind req⟩ →
      nd.state.role = .leader → nd.state.currentTerm ≠ req.term) :
    eff.Binds x nd.state := by
  have hquiet : ∀ {nd' : RaftNode}, nd.state.Binds x nd'.state →
      (⟨nd', [], []⟩ : Effect).Binds x nd.state := fun hb =>
    ⟨hb, fun _ _ _ hm => absurd hm List.not_mem_nil, fun _ hn => absurd hn List.not_mem_nil⟩
  have hsame : ∀ {s : RaftState}, s.currentTerm = nd.state.currentTerm →
      s.votedFor = nd.state.votedFor → s.role = nd.state.role → nd.state.Binds x s :=
    fun hterm hvote hrole => .of_same hself hterm hvote hrole
  have hcalls : ∀ {task e s notes dst req resp},
      (dst, Message.voteReply req resp) ∉ (nd.endElection task e s notes).sent := by
    intro task e s notes dst req resp hm
    obtain ⟨c, -, heq⟩ := List.mem_map.mp hm
    cases heq
  cases h with
  | voteRequest =>
    obtain ⟨hcand, hne⟩ := hvote _ _ rfl
    exact binds_handleVoteRequest hself hcand hne
  | voteStepDown he hreq hsrc hterm =>
    have hle : _ ≤ _ := hev
    omega
  | voteCounted => exact hquiet (hsame rfl rfl rfl)
  | voteFailed => exact hquiet (hsame rfl rfl rfl)
  | @appendEntries task src kind req =>
    have hbinds := binds_handleAppendEntries lib hself (hlead _ _ _ rfl)
    rw [← handleAppendEntries_state nd src kind req] at hbinds
    refine ⟨hbinds, fun dst req' resp hm => ?_, fun _ hn => absurd hn List.not_mem_nil⟩
    cases List.mem_singleton.mp hm
  | @installSnapshot task src req =>
    have hbinds := binds_handleInstallSnapshot lib hself req
    rw [← handleInstallSnapshot_state nd src req] at hbinds
    refine ⟨hbinds, fun dst req' resp hm => ?_, fun _ hn => absurd hn List.not_mem_nil⟩
    cases List.mem_singleton.mp hm
  | electionTimeout =>
    refine ⟨.of_lt (Nat.lt_succ_self _) fun _ => congrArg some hid, fun dst req resp hm => ?_,
      fun _ hn => absurd hn List.not_mem_nil⟩
    obtain ⟨p, -, heq⟩ := List.mem_map.mp hm
    cases heq
  | @electionWon task e he hdone hrole hterm hmaj =>
    have hvoted : nd.state.votedFor = some x := hself (by rw [hrole]; exact RaftRole.noConfusion)
    refine ⟨⟨le_rfl, fun _ => hvoted, fun _ hf => ?_, fun _ _ => rfl⟩,
      fun _ _ _ hm => absurd hm hcalls, fun s' hn => ?_⟩
    · exact absurd (hrole.symm.trans hf) RaftRole.noConfusion
    · obtain rfl := Note.becameLeader.inj (List.mem_singleton.mp hn)
      exact ⟨rfl, rfl⟩
  | electionLost =>
    exact ⟨hsame rfl rfl rfl, fun _ _ _ hm => absurd hm hcalls,
      fun _ hn => absurd hn List.not_mem_nil⟩
  | _ => exact False.elim hev

end RaftNode

namespace Cluster

variable {lib : WireLib} {ids : List ℕ} {cl cl' : Cluster}

/-- Elections, and leaders that send what they like in their own term. -/
def electionStep (lib : WireLib) (ids : List ℕ) (cl : Cluster) : ElectionAction → Option Cluster
  | .node a => if a.event.Electoral then cl.step lib ids a else none
  | .lead x dst msg =>
    if x ∈ ids ∧ dst ∈ peersOf ids x ∧ (cl.nodes x).state.role = .leader ∧
        msg.LedBy x (cl.nodes x).state.currentTerm then
      some { cl with network := cl.network ++ [⟨x, dst, msg⟩] }
    else none

def Granted (cl : Cluster) (v c t : ℕ) : Prop :=
  ∃ req resp, ⟨v, c, .voteReply req resp⟩ ∈ cl.network ∧ resp.voteGranted = true ∧ req.term = t

structure Bound (ids : List ℕ) (cl : Cluster) : Prop where
  self : ∀ x ∈ ids, (cl.nodes x).state.role ≠ .follower → (cl.nodes x).state.votedFor = some x
  grant : ∀ v c t, cl.Granted v c t → t ≤ (cl.nodes v).state.currentTerm ∧
    ((cl.nodes v).state.currentTerm = t →
      (cl.nodes v).state.role = .follower ∧ (cl.nodes v).state.votedFor = some c)
  leader : ∀ x s, (x, .becameLeader s) ∈ cl.history →
    x ∈ ids ∧ s.currentTerm ≤ (cl.nodes x).state.currentTerm ∧
      ((cl.nodes x).state.currentTerm = s.currentTerm → (cl.nodes x).state.role = .leader)

theorem bound_start (ids : List ℕ) : (start ids).Bound ids where
  self _ _ h := absurd rfl h
  grant _ _ _ := fun ⟨_, _, hm, _⟩ => absurd hm List.not_mem_nil
  leader _ _ h := absurd h List.not_mem_nil

theorem Bound.apply {x : ℕ} {eff : Effect} (h : cl.Bound ids) (hx : x ∈ ids)
    (hb : eff.Binds x (cl.nodes x).state) : (cl.apply x eff).Bound ids where
  self y hy := by
    by_cases hyx : y = x
    · subst hyx
      simpa only [Cluster.apply, Function.update_self] using hb.state.self
    · simpa only [Cluster.apply, Function.update_of_ne hyx] using h.self y hy
  grant v c t := by
    rintro ⟨req, resp, hm, hg, rfl⟩
    by_cases hvx : v = x
    · subst hvx
      simp only [Cluster.apply, Function.update_self]
      rcases List.mem_append.mp hm with hold | hnew
      · obtain ⟨hle, hbound⟩ := h.grant v c _ ⟨req, resp, hold, hg, rfl⟩
        have hmono := hb.state.term_le
        refine ⟨hle.trans hmono, fun heq => ?_⟩
        obtain ⟨hrole, hvote⟩ := hbound (by omega)
        obtain ⟨hrole', hkeep⟩ := hb.state.follower (by omega) hrole
        exact ⟨hrole', hkeep c hvote⟩
      · obtain ⟨⟨dst, msg⟩, hmem, heq⟩ := List.mem_map.mp hnew
        cases heq
        obtain ⟨hterm, hvote, hrole⟩ := hb.grant c req resp hmem hg
        exact ⟨hterm.ge, fun _ => ⟨hrole, hvote⟩⟩
    · simp only [Cluster.apply, Function.update_of_ne hvx]
      rcases List.mem_append.mp hm with hold | hnew
      · exact h.grant v c _ ⟨req, resp, hold, hg, rfl⟩
      · obtain ⟨⟨dst, msg⟩, -, heq⟩ := List.mem_map.mp hnew
        cases heq
        exact absurd rfl hvx
  leader y s hn := by
    by_cases hyx : y = x
    · subst hyx
      simp only [Cluster.apply, Function.update_self]
      rcases List.mem_append.mp hn with hold | hnew
      · obtain ⟨-, hle, hbound⟩ := h.leader y s hold
        have hmono := hb.state.term_le
        exact ⟨hx, hle.trans hmono, fun heq =>
          hb.state.leader (by omega) (hbound (by omega))⟩
      · obtain ⟨n, hmem, heq⟩ := List.mem_map.mp hnew
        cases heq
        obtain ⟨hterm, hrole⟩ := hb.leader s hmem
        exact ⟨hx, hterm.ge, fun _ => hrole⟩
    · simp only [Cluster.apply, Function.update_of_ne hyx]
      rcases List.mem_append.mp hn with hold | hnew
      · exact h.leader y s hold
      · obtain ⟨n, -, heq⟩ := List.mem_map.mp hnew
        cases heq
        exact absurd rfl hyx

/-- No step of an election steps down against a captured term. -/
theorem keepsBallots_of_electoral {a : Action} (h : a.event.Electoral) :
    cl.KeepsBallots ids a := by
  intro t ht
  obtain ⟨x, ev⟩ := a
  cases ev with
  | deliver task src msg =>
    cases msg with
    | voteReply req resp => exact absurd (Option.ite_none_right_eq_some.mp ht).1 (not_lt.mpr h)
    | appendReply | timeoutNowReply => exact False.elim h
    | _ => cases ht
  | _ => cases ht

theorem electionStep_cases {act : ElectionAction} (h : cl.electionStep lib ids act = some cl') :
    (∃ a, a.event.Electoral ∧ cl.step lib ids a = some cl') ∨
      ∃ x dst msg, x ∈ ids ∧ dst ≠ x ∧ (cl.nodes x).state.role = .leader ∧
        msg.LedBy x (cl.nodes x).state.currentTerm ∧
        cl' = { cl with network := cl.network ++ [⟨x, dst, msg⟩] } := by
  cases act with
  | node a =>
    obtain ⟨hev, hs⟩ := Option.ite_none_right_eq_some.mp h
    exact .inl ⟨a, hev, hs⟩
  | lead x dst msg =>
    obtain ⟨⟨hx, hdst, hrole, hled⟩, hs⟩ := Option.ite_none_right_eq_some.mp h
    exact .inr ⟨x, dst, msg, hx, (mem_peersOf.mp hdst).2, hrole, hled, (Option.some.inj hs).symm⟩

theorem HasBallots.electionStep (hids : ids.Nodup) (h : HasBallots ids cl) {act : ElectionAction}
    (hs : cl.electionStep lib ids act = some cl') : HasBallots ids cl' := by
  rcases electionStep_cases hs with ⟨a, hev, hstep⟩ | ⟨x, dst, msg, hx, hne, hrole, hled, rfl⟩
  · exact h.step hids (keepsBallots_of_electoral hev) hstep
  · obtain ⟨b, hinv, hlinked⟩ := h
    refine ⟨b, hinv, hlinked.node, fun p hp => ?_, hlinked.note⟩
    rcases List.mem_append.mp hp with hold | hnew
    · exact hlinked.packet p hold
    · rw [List.mem_singleton.mp hnew]
      cases msg with
      | appendEntries kind req =>
        have helected := (hlinked.node x hx).leader hrole
        exact ⟨hne.symm, hled.1 ▸ helected⟩
      | installSnapshot req => trivial
      | _ => exact False.elim hled

/-- A leader gets no `AppendEntries` request of its own term. -/
theorem HasBallots.foreign_append (h : HasBallots ids cl) {x src : ℕ} {kind : AppendKind}
    {req : AppendEntriesRequest} (hx : x ∈ ids)
    (hp : ⟨src, x, .appendEntries kind req⟩ ∈ cl.network)
    (hrole : (cl.nodes x).state.role = .leader) : (cl.nodes x).state.currentTerm ≠ req.term := by
  obtain ⟨b, hinv, hlinked⟩ := h
  intro heq
  obtain ⟨hne, helected⟩ := hlinked.packet _ hp
  have hown := (hlinked.node x hx).leader hrole
  exact hne (hinv.elected_unique _ src x helected (heq ▸ hown))

theorem Bound.electionStep (hb : HasBallots ids cl) (h : cl.Bound ids) {act : ElectionAction}
    (hs : cl.electionStep lib ids act = some cl') : cl'.Bound ids := by
  rcases electionStep_cases hs with ⟨a, hev, hstep⟩ | ⟨x, dst, msg, hx, hne, hrole, hled, rfl⟩
  · obtain ⟨eff, hx, hpacket, heff, rfl⟩ := step_eq_some hstep
    have hvote : ∀ src req, a.event.packet a.node = some ⟨src, a.node, .voteRequest req⟩ →
        req.candidateId = src ∧ src ≠ a.node := by
      intro src req hp
      obtain ⟨b, -, hlinked⟩ := hb
      exact hlinked.packet _ (hpacket _ hp)
    have hid : (cl.nodes a.node).id = a.node := by
      obtain ⟨b, -, hlinked⟩ := hb
      exact (hlinked.node _ hx).id_eq
    exact h.apply hx ((RaftNode.transition_of_step heff).binds hev hid (h.self _ hx) hvote
      fun src kind req hp => hb.foreign_append hx (hpacket _ hp))
  · refine ⟨h.self, fun v c t => ?_, h.leader⟩
    rintro ⟨req, resp, hm, hg, rfl⟩
    rcases List.mem_append.mp hm with hold | hnew
    · exact h.grant v c _ ⟨req, resp, hold, hg, rfl⟩
    · cases List.mem_singleton.mp hnew
      exact False.elim hled

/-- Whoever granted the elected leader its vote, and the leader itself, keeps that vote for the
rest of the term. So the reset of a vote within its term by an `AppendEntries` request only hits
nodes outside the electing quorum. -/
theorem electing_quorum_stays_bound (lib : WireLib) (hids : ids.Nodup)
    (h : Runs.Reach (electionStep lib ids) (fun _ _ => True) (start ids) cl) {leader : ℕ}
    {s : RaftState} (hleader : (leader, .becameLeader s) ∈ cl.history) {v : ℕ}
    (hterm : (cl.nodes v).state.currentTerm = s.currentTerm) :
    (v = leader ∨ cl.Granted v leader s.currentTerm →
      (cl.nodes v).state.votedFor = some leader) ∧
    ∀ src kind req, ⟨src, v, .appendEntries kind req⟩ ∈ cl.network → req.term = s.currentTerm →
      (cl.nodes v).state.role ≠ .follower → v ≠ leader ∧ ¬ cl.Granted v leader s.currentTerm := by
  have hballots : ∀ {cl}, Runs.Reach (electionStep lib ids) (fun _ _ => True) (start ids) cl →
      HasBallots ids cl := fun hr =>
    hr.invariant (hasBallots_start ids) fun hb _ hs => hb.electionStep hids hs
  have hbound := Runs.Reach.invariant_of hballots h (bound_start ids)
    fun hb _ hinv _ hs => hinv.electionStep hb hs
  obtain ⟨hmem, -, hrole⟩ := hbound.leader leader s hleader
  refine ⟨?_, fun src kind req hp hreq hne => ⟨?_, fun hg => ?_⟩⟩
  · rintro (rfl | hg)
    · exact hbound.self v hmem (by rw [hrole hterm]; exact RaftRole.noConfusion)
    · exact ((hbound.grant v leader _ hg).2 hterm).2
  · rintro rfl
    exact (hballots h).foreign_append hmem hp (hrole hterm) (hterm.trans hreq.symm)
  · exact hne ((hbound.grant v leader _ hg).2 hterm).1

/-- Node 3 stands in term 1 as well; the request of the leader resets its vote and leaves the
vote of node 2, which elected the leader. -/
theorem electing_quorum_outlives_reset :
    ∃ cl, Runs.Reach (electionStep .standard [1, 2, 3]) (fun _ _ => True) (start [1, 2, 3]) cl ∧
      (1, 1) ∈ cl.leaders ∧ (cl.nodes 3).state.currentTerm = 1 ∧
      (cl.nodes 3).state.votedFor = none ∧ (cl.nodes 2).state.votedFor = some 1 := by
  obtain ⟨cl, hreach, hwon, hgrant, htwo, hthree, hreset⟩ := Runs.exists_reach_of_guardedRun
    (electionStep .standard [1, 2, 3]) (fun _ _ => True)
    (fun cl => (1, 1) ∈ cl.leaders ∧ ⟨2, 1, .voteReply ⟨1, 1, 0, 0⟩ ⟨1, true⟩⟩ ∈ cl.network ∧
      (cl.nodes 2).state.currentTerm = 1 ∧ (cl.nodes 3).state.currentTerm = 1 ∧
      (cl.nodes 3).state.votedFor = none) (start [1, 2, 3])
    (.node ⟨3, .electionTimeout []⟩ :: (electedBy 1 2 1 0 0).map .node ++
      [.lead 1 3 (.appendEntries .heartbeat ⟨1, 1, 0, 0, [], 0⟩),
        .node ⟨3, .deliver 0 1 (.appendEntries .heartbeat ⟨1, 1, 0, 0, [], 0⟩)⟩])
    (by decide +kernel)
  obtain ⟨s, hs, hone⟩ := mem_leaders.mp hwon
  refine ⟨cl, hreach, hwon, hthree, hreset, ?_⟩
  exact (electing_quorum_stays_bound .standard (by decide) hreach hs (htwo.trans hone.symm)).1
    (.inr ⟨_, _, hgrant, rfl, hone.symm⟩)

end Cluster
end NomadLite
