import NomadLite.Calls
import NomadLite.MajorityElection
import NomadLite.VoteCount

/-!
# Election Safety

The cluster refines elections by majority: every step of a node is a sequence of
steps of `MajorityElection.Ballots` as long as the step-downs against a captured
term neither lower the term nor forget a vote that still counts. Where they do, two
nodes can lead one term.
-/

namespace NomadLite

open MajorityElection

namespace Cluster

def TermClosed (ids : List ℕ) (cl : Cluster) (t : ℕ) : Prop :=
  ∀ y ∈ ids, t ≤ (cl.nodes y).state.currentTerm ∧
    ¬ ((cl.nodes y).state.currentTerm = t ∧ (cl.nodes y).state.role = .candidate)

/-- Node `x` can become a follower in term `t` without losing a vote that still counts. -/
def MayStepDown (ids : List ℕ) (cl : Cluster) (x t : ℕ) : Prop :=
  (cl.nodes x).state.currentTerm < t ∨
    ((cl.nodes x).state.currentTerm = t ∧
      ((cl.nodes x).state.role = .candidate ∨ (cl.nodes x).state.votedFor = none ∨
        cl.TermClosed ids t))

/-- No step-down against a captured term loses a vote that still counts. -/
def KeepsBallots (ids : List ℕ) (cl : Cluster) (a : Action) : Prop :=
  ∀ t ∈ a.event.capturedStepDown, cl.MayStepDown ids a.node t

instance (ids : List ℕ) (cl : Cluster) (t : ℕ) : Decidable (cl.TermClosed ids t) :=
  inferInstanceAs (Decidable (∀ y ∈ ids, _ ∧ _))

instance (ids : List ℕ) (cl : Cluster) (x t : ℕ) : Decidable (cl.MayStepDown ids x t) :=
  inferInstanceAs (Decidable (_ ∨ _))

instance (ids : List ℕ) (cl : Cluster) (a : Action) : Decidable (cl.KeepsBallots ids a) :=
  decidable_of_iff (∀ t ∈ a.event.capturedStepDown.toList, cl.MayStepDown ids a.node t)
    (by simp only [Option.mem_toList]; rfl)

end Cluster

section Refinement

variable {ids : List ℕ} {b b' : Ballots ℕ} {x : ℕ} {nd nd' : RaftNode}

structure NodeBallot (ids : List ℕ) (b : Ballots ℕ) (x : ℕ) (nd : RaftNode) : Prop where
  id_eq : nd.id = x
  peers_eq : nd.peers = peersOf ids x
  term_eq : b.term x = nd.state.currentTerm
  vote_eq : b.vote x = nd.state.votedFor
  candidate_iff : b.candidate x ↔ nd.state.role = .candidate
  leader : nd.state.role = .leader → (nd.state.currentTerm, x) ∈ b.elected
  election : ∀ e ∈ nd.elections,
    VoteCount ids x (fun v req => (v, x, req.term) ∈ b.grants) e

def PacketBallot (b : Ballots ℕ) (p : Packet) : Prop :=
  match p.msg with
  | .voteRequest req => req.candidateId = p.src ∧ p.src ≠ p.dst
  | .voteReply req resp => resp.voteGranted = true → (p.src, p.dst, req.term) ∈ b.grants
  | .appendEntries _ req => p.src ≠ p.dst ∧ (req.term, p.src) ∈ b.elected
  | _ => True

def NoteBallot (b : Ballots ℕ) (x : ℕ) : Note → Prop
  | .becameLeader s => (s.currentTerm, x) ∈ b.elected
  | _ => True

theorem PacketBallot.extends {p : Packet} (h : PacketBallot b p) (hext : b.Extends x b') :
    PacketBallot b' p := by
  obtain ⟨src, dst, msg⟩ := p
  cases msg with
  | voteRequest req => exact h
  | voteReply req resp => exact fun hg => hext.grants (h hg)
  | appendEntries kind req => exact ⟨h.1, hext.elected h.2⟩
  | appendReply | installSnapshot | snapshotReply | timeoutNow | timeoutNowReply => trivial

theorem NoteBallot.extends {y : ℕ} {n : Note} (h : NoteBallot b y n) (hext : b.Extends x b') :
    NoteBallot b' y n := by
  cases n with
  | becameLeader s => exact hext.elected h
  | advancedCommit | applied => trivial

namespace NodeBallot

theorem election_extends (h : NodeBallot ids b x nd) {y : ℕ} (hext : b.Extends y b') :
    ∀ e ∈ nd.elections, VoteCount ids x (fun v req => (v, x, req.term) ∈ b'.grants) e :=
  fun e he => (h.election e he).mono fun _ hg => hext.grants hg

theorem of_ne {y : ℕ} (h : NodeBallot ids b y nd) (hext : b.Extends x b') (hne : y ≠ x) :
    NodeBallot ids b' y nd := by
  obtain ⟨hterm, hvote, hcand⟩ := hext.moves.other y hne
  exact ⟨h.id_eq, h.peers_eq, hterm.trans h.term_eq, hvote.trans h.vote_eq,
    hcand.trans h.candidate_iff, fun hr => hext.elected (h.leader hr), h.election_extends hext⟩

theorem of_same (h : NodeBallot ids b x nd) (hid : nd'.id = nd.id) (hpeers : nd'.peers = nd.peers)
    (hterm : nd'.state.currentTerm = nd.state.currentTerm)
    (hvote : nd'.state.votedFor = nd.state.votedFor) (hrole : nd'.state.role = nd.state.role)
    (helection : ∀ e ∈ nd'.elections, VoteCount ids x (fun v req => (v, x, req.term) ∈ b.grants) e) :
    NodeBallot ids b x nd' :=
  ⟨hid.trans h.id_eq, hpeers.trans h.peers_eq, h.term_eq.trans hterm.symm,
    h.vote_eq.trans hvote.symm, hrole ▸ h.candidate_iff, fun hr => hterm ▸ h.leader (hrole ▸ hr),
    helection⟩

theorem of_stepDown {t : ℕ} (h : NodeBallot ids b x nd) (hext : b.Extends x b')
    (hb : b'.term x = t ∧ b'.vote x = none ∧ ¬ b'.candidate x) (hid : nd'.id = nd.id)
    (hpeers : nd'.peers = nd.peers) (hterm : nd'.state.currentTerm = t)
    (hvote : nd'.state.votedFor = none) (hrole : nd'.state.role = .follower)
    (helection : ∀ e ∈ nd'.elections, e ∈ nd.elections) : NodeBallot ids b' x nd' where
  id_eq := hid.trans h.id_eq
  peers_eq := hpeers.trans h.peers_eq
  term_eq := hb.1.trans hterm.symm
  vote_eq := hb.2.1.trans hvote.symm
  candidate_iff := iff_of_false hb.2.2 (by rw [hrole]; exact RaftRole.noConfusion)
  leader hr := by
    rw [hrole] at hr
    cases hr
  election e he := h.election_extends hext e (helection e he)

end NodeBallot
def Simulated (ids : List ℕ) (b : Ballots ℕ) (x : ℕ) (eff : Effect) : Prop :=
  ∃ b', b.Extends x b' ∧ b'.Inv ids.toFinset ∧ NodeBallot ids b' x eff.node ∧
    (∀ dst msg, (dst, msg) ∈ eff.sent → PacketBallot b' ⟨x, dst, msg⟩) ∧
    ∀ n ∈ eff.notes, NoteBallot b' x n

def SilentMessage : Message → Prop
  | .voteRequest _ | .voteReply .. | .appendEntries .. => False
  | .appendReply .. | .installSnapshot _ | .snapshotReply .. | .timeoutNow _
  | .timeoutNowReply .. => True

theorem SilentMessage.packetBallot {src dst : ℕ} {msg : Message} (h : SilentMessage msg) :
    PacketBallot b ⟨src, dst, msg⟩ := by
  cases msg with
  | voteRequest | voteReply | appendEntries => exact h.elim
  | appendReply | installSnapshot | snapshotReply | timeoutNow | timeoutNowReply => trivial

namespace NodeBallot

variable {lib : WireLib} {eff : Effect}

theorem simulated_of_same (h : NodeBallot ids b x nd) (hinv : b.Inv ids.toFinset)
    (hid : eff.node.id = nd.id) (hpeers : eff.node.peers = nd.peers)
    (hterm : eff.node.state.currentTerm = nd.state.currentTerm)
    (hvote : eff.node.state.votedFor = nd.state.votedFor)
    (hrole : eff.node.state.role = nd.state.role)
    (helection : ∀ e ∈ eff.node.elections,
      VoteCount ids x (fun v req => (v, x, req.term) ∈ b.grants) e)
    (hsent : ∀ dst msg, (dst, msg) ∈ eff.sent → PacketBallot b ⟨x, dst, msg⟩)
    (hnotes : ∀ n ∈ eff.notes, NoteBallot b x n) : Simulated ids b x eff :=
  ⟨b, .refl x b, hinv, h.of_same hid hpeers hterm hvote hrole helection, hsent, hnotes⟩

/-- The ballot and the elections stay, and only silent messages are sent. -/
theorem simulated_of_quiet (h : NodeBallot ids b x nd) (hinv : b.Inv ids.toFinset)
    (hid : eff.node.id = nd.id) (hpeers : eff.node.peers = nd.peers)
    (hterm : eff.node.state.currentTerm = nd.state.currentTerm)
    (hvote : eff.node.state.votedFor = nd.state.votedFor)
    (hrole : eff.node.state.role = nd.state.role) (helection : eff.node.elections = nd.elections)
    (hsent : ∀ dst msg, (dst, msg) ∈ eff.sent → SilentMessage msg)
    (hnotes : ∀ s, .becameLeader s ∉ eff.notes) : Simulated ids b x eff := by
  refine h.simulated_of_same hinv hid hpeers hterm hvote hrole (helection ▸ h.election)
    (fun dst msg hm => (hsent dst msg hm).packetBallot) (fun n hn => ?_)
  cases n with
  | becameLeader s => exact absurd hn (hnotes s)
  | advancedCommit | applied => trivial

theorem simulated_of_stepDown {t : ℕ} (h : NodeBallot ids b x nd) (hinv : b.Inv ids.toFinset)
    (hmay : b.term x < t ∨
      (b.term x = t ∧ (b.candidate x ∨ b.vote x = none ∨ b.Closed ids.toFinset t)))
    (hid : eff.node.id = nd.id) (hpeers : eff.node.peers = nd.peers)
    (hterm : eff.node.state.currentTerm = t) (hvote : eff.node.state.votedFor = none)
    (hrole : eff.node.state.role = .follower)
    (helection : ∀ e ∈ eff.node.elections, e ∈ nd.elections)
    (hsent : ∀ dst msg, (dst, msg) ∈ eff.sent → SilentMessage msg) (hnotes : eff.notes = []) :
    Simulated ids b x eff := by
  obtain ⟨b', hext, hinv', hb'⟩ := hinv.exists_stepDown hmay
  refine ⟨b', hext, hinv', h.of_stepDown hext hb' hid hpeers hterm hvote hrole helection,
    fun dst msg hm => (hsent dst msg hm).packetBallot, fun n hn => ?_⟩
  rw [hnotes] at hn
  cases hn

theorem exists_adoptTerm (h : NodeBallot ids b x nd) (hinv : b.Inv ids.toFinset) (t : ℕ) :
    ∃ b', b.Extends x b' ∧ b'.Inv ids.toFinset ∧
      NodeBallot ids b' x (nd.withState (nd.state.adoptTerm t)) := by
  rcases lt_or_ge nd.state.currentTerm t with hlt | hge
  · rw [RaftState.adoptTerm_eq_follower hlt]
    obtain ⟨b', hext, hinv', hb'⟩ := hinv.exists_stepDown (.inl (h.term_eq ▸ hlt))
    exact ⟨b', hext, hinv', h.of_stepDown hext hb' rfl rfl rfl rfl rfl fun e he => he⟩
  · rw [RaftState.adoptTerm_eq_self hge]
    exact ⟨b, .refl x b, hinv, h⟩

theorem simulated_voteRequest (h : NodeBallot ids b x nd) (hinv : b.Inv ids.toFinset) {src : ℕ}
    {req : VoteRequest} (hcand : req.candidateId = src) (hne : src ≠ x) :
    Simulated ids b x (nd.handleVoteRequest src req) := by
  obtain ⟨b₁, hext, hinv₁, h₁⟩ := h.exists_adoptTerm hinv req.term
  rcases handleRequestVote_cases nd.state req with hrefused | ⟨hcur, hfree, -, hgranted⟩
  · rw [RaftNode.handleVoteRequest, hrefused]
    refine ⟨b₁, hext, hinv₁, h₁, fun dst msg hm => ?_, fun n hn => absurd hn List.not_mem_nil⟩
    obtain ⟨rfl, rfl⟩ := Prod.mk.injEq .. ▸ List.mem_singleton.mp hm
    exact fun hg => absurd hg Bool.false_ne_true
  · rw [RaftNode.handleVoteRequest, hgranted]
    have hterm : b₁.term x = req.term := h₁.term_eq.trans hcur
    have hgrant : b₁.Extends x (b₁.grant x req.candidateId) :=
      ⟨Ballots.moves_grant, Set.subset_insert _ _, subset_rfl⟩
    refine ⟨b₁.grant x req.candidateId, hext.trans hgrant,
      hinv₁.grant (hcand ▸ hne) (h₁.vote_eq ▸ hfree), ?_, fun dst msg hm => ?_,
      fun n hn => absurd hn List.not_mem_nil⟩
    · exact ⟨h₁.id_eq, h₁.peers_eq, h₁.term_eq, Function.update_self ..,
        h₁.candidate_iff, h₁.leader, h₁.election_extends hgrant⟩
    · obtain ⟨rfl, rfl⟩ := Prod.mk.injEq .. ▸ List.mem_singleton.mp hm
      intro _
      rw [← hcand, ← hterm]
      exact Set.mem_insert _ _

/-- A leader never hears from another leader of its term, so only candidates step down. -/
theorem simulated_appendEntries (h : NodeBallot ids b x nd) (hinv : b.Inv ids.toFinset) {src : ℕ}
    {kind : AppendKind} {req : AppendEntriesRequest} (hne : src ≠ x)
    (helected : (req.term, src) ∈ b.elected) :
    Simulated ids b x (nd.handleAppendEntries lib src kind req) := by
  have key : ∀ n resp, Simulated ids b x
      ⟨{ nd.withState (handleAppendEntries lib nd.state req).1 with commitNotify := n },
        [(src, .appendReply kind req resp)], []⟩ := by
    intro n resp
    have hsent : ∀ dst msg, (dst, msg) ∈ [(src, Message.appendReply kind req resp)] →
        SilentMessage msg := fun dst msg hm => by
      obtain ⟨-, rfl⟩ := Prod.mk.injEq .. ▸ List.mem_singleton.mp hm
      trivial
    rcases lt_or_ge req.term nd.state.currentTerm with hlt | hge
    · rw [handleAppendEntries_stale hlt]
      exact h.simulated_of_quiet hinv rfl rfl rfl rfl rfl rfl hsent fun _ => List.not_mem_nil
    · obtain ⟨log, commitIndex, heq⟩ := handleAppendEntries_eq_setLog lib hge
      have hterm := nd.state.follow_currentTerm req.leaderId hge
      have hvote := nd.state.follow_votedFor req.leaderId hge
      have hrole : (nd.state.follow req.term req.leaderId).role = .follower := RaftState.follow_role
      rw [heq]
      by_cases hsame : nd.state.currentTerm = req.term ∧ nd.state.role = .follower
      · rw [if_pos hsame] at hvote
        exact h.simulated_of_quiet hinv rfl rfl (hterm.trans hsame.1.symm) hvote
          (hrole.trans hsame.2.symm) rfl hsent fun _ => List.not_mem_nil
      · rw [if_neg hsame] at hvote
        refine h.simulated_of_stepDown hinv ?_ rfl rfl hterm hvote hrole (fun e he => he) hsent rfl
        rw [h.term_eq]
        rcases hge.lt_or_eq with hlt | hcur
        · exact .inl hlt
        · refine .inr ⟨hcur, .inl (h.candidate_iff.mpr ?_)⟩
          cases hr : nd.state.role with
          | follower => exact absurd ⟨hcur, hr⟩ hsame
          | candidate => rfl
          | leader =>
            exact absurd (hinv.elected_unique _ src x helected (hcur ▸ h.leader hr)) hne
  simp only [RaftNode.handleAppendEntries]
  split_ifs
  · exact key _ _
  · exact key _ _

theorem simulated_installSnapshot (h : NodeBallot ids b x nd) (hinv : b.Inv ids.toFinset)
    {src : ℕ} {req : InstallSnapshotRequest} :
    Simulated ids b x (nd.handleInstallSnapshot lib src req) := by
  obtain ⟨b₁, hext, hinv₁, h₁⟩ := h.exists_adoptTerm hinv req.term
  obtain ⟨hterm, hvote, hrole⟩ := handleInstallSnapshot_ballot lib nd.state req
  have key : ∀ n pending resp, Simulated ids b x
      ⟨{ nd.withState (handleInstallSnapshot lib nd.state req).1 with
        commitNotify := n, pendingSnapshot := pending },
        [(src, .snapshotReply req resp)], []⟩ := fun n pending resp =>
    ⟨b₁, hext, hinv₁, h₁.of_same rfl rfl hterm hvote hrole h₁.election,
      fun dst msg hm => by
        obtain ⟨-, rfl⟩ := Prod.mk.injEq .. ▸ List.mem_singleton.mp hm
        trivial,
      fun n hn => absurd hn List.not_mem_nil⟩
  simp only [RaftNode.handleInstallSnapshot]
  split_ifs
  · exact key _ _ _
  · exact key _ _ _

theorem simulated_standing (h : NodeBallot ids b x nd) (hinv : b.Inv ids.toFinset)
    {order : List ℕ} {caller : Option (ℕ × TimeoutNowRequest)} (hnodup : order.Nodup)
    (hpeers : ∀ p ∈ order, p ∈ nd.peers) :
    Simulated ids b x ⟨nd.standing order caller, nd.voteRequests order, []⟩ := by
  have hext : b.Extends x (b.stand x) := ⟨Ballots.moves_stand, subset_rfl, subset_rfl⟩
  have hpeers' : ∀ p ∈ order, p ∈ peersOf ids x := fun p hp => h.peers_eq ▸ hpeers p hp
  refine ⟨b.stand x, hext, hinv.stand, ⟨h.id_eq, h.peers_eq, ?_, ?_, ?_, ?_, ?_⟩, ?_,
    fun n hn => absurd hn List.not_mem_nil⟩
  · exact (Function.update_self ..).trans (congrArg (· + 1) h.term_eq)
  · exact (Function.update_self ..).trans (congrArg some h.id_eq.symm)
  · exact iff_of_true (by simp [Ballots.stand]) rfl
  · intro hr
    cases hr
  · intro e he
    rcases List.mem_append.mp he with hold | hnew
    · exact h.election_extends hext e hold
    · rw [List.mem_singleton.mp hnew]
      exact .start hnodup hpeers'
  · intro dst msg hm
    obtain ⟨p, hp, heq⟩ := List.mem_map.mp hm
    obtain ⟨rfl, rfl⟩ := Prod.mk.injEq .. ▸ heq
    exact ⟨h.id_eq, (mem_peersOf.mp (hpeers' p hp)).2.symm⟩

theorem simulated_won (h : NodeBallot ids b x nd) (hinv : b.Inv ids.toFinset) (hids : ids.Nodup)
    (hx : x ∈ ids) {task : ℕ} {e : Election} (he : nd.elections[task]? = some e)
    (hrole : nd.state.role = .candidate) (hterm : nd.state.currentTerm = e.request.term)
    (hmaj : nd.majority ≤ e.voteCount) :
    Simulated ids b x (nd.endElection task e (nd.winning e) [.becameLeader (nd.winning e)]) := by
  have hext : b.Extends x (b.win x) := ⟨Ballots.moves_win, subset_rfl, Set.subset_insert _ _⟩
  have hbterm : b.term x = e.request.term := h.term_eq.trans hterm
  have hcount := h.election e (List.mem_of_getElem? he)
  obtain ⟨Q, hsub, hcard, hvotes⟩ := hcount.exists_majority hids hx rfl (h.peers_eq ▸ hmaj)
  have hinv' : (b.win x).Inv ids.toFinset :=
    hinv.win (List.mem_toFinset.mpr hx) (h.candidate_iff.mpr hrole) ⟨hsub, hcard⟩
      (hbterm ▸ hvotes)
  have hnew : (nd.state.currentTerm, x) ∈ (b.win x).elected :=
    .inl (Prod.ext h.term_eq.symm rfl)
  refine ⟨b.win x, hext, hinv', ⟨h.id_eq, h.peers_eq, h.term_eq, h.vote_eq, ?_, fun _ => hnew,
    fun e' he' => h.election_extends hext e' (List.mem_of_mem_eraseIdx he')⟩, ?_, ?_⟩
  · exact iff_of_false (by simp [Ballots.win]) RaftRole.noConfusion
  · intro dst msg hm
    obtain ⟨c, -, heq⟩ := List.mem_map.mp hm
    obtain ⟨rfl, rfl⟩ := Prod.mk.injEq .. ▸ heq
    trivial
  · intro n hn
    rw [List.mem_singleton.mp hn]
    exact hnew

theorem election_setElection (h : NodeBallot ids b x nd) {task : ℕ} {e : Election}
    (he : VoteCount ids x (fun v req => (v, x, req.term) ∈ b.grants) e) :
    ∀ e' ∈ (nd.setElection task e).elections,
      VoteCount ids x (fun v req => (v, x, req.term) ∈ b.grants) e' := by
  intro e' he'
  rcases List.mem_or_eq_of_mem_set he' with hold | rfl
  · exact h.election e' hold
  · exact he

theorem silent_endElection {task : ℕ} {e : Election} {s : RaftState} {notes : List Note} :
    ∀ dst msg, (dst, msg) ∈ (nd.endElection task e s notes).sent → SilentMessage msg := by
  intro dst msg hm
  obtain ⟨c, -, heq⟩ := List.mem_map.mp hm
  obtain ⟨-, rfl⟩ := Prod.mk.injEq .. ▸ heq
  trivial

/-- Every step of a node is simulated by its ballots, given what the delivered packet says and
that a captured step-down loses no vote that counts. -/
theorem simulated (h : NodeBallot ids b x nd) (hinv : b.Inv ids.toFinset) (hids : ids.Nodup)
    (hx : x ∈ ids) {ev : Event} (htr : RaftNode.Transition lib nd ev eff)
    (hpacket : ∀ p ∈ ev.packet x, PacketBallot b p)
    (hcond : ∀ t ∈ ev.capturedStepDown, b.term x < t ∨
      (b.term x = t ∧ (b.candidate x ∨ b.vote x = none ∨ b.Closed ids.toFinset t))) :
    Simulated ids b x eff := by
  have hnil : ∀ (dst : ℕ) (msg : Message), (dst, msg) ∈ ([] : List (ℕ × Message)) →
      SilentMessage msg := fun _ _ hm => absurd hm List.not_mem_nil
  have hnote : ∀ s, Note.becameLeader s ∉ ([] : List Note) := fun _ => List.not_mem_nil
  cases htr with
  | voteRequest =>
    obtain ⟨hcand, hne⟩ := hpacket _ rfl
    exact h.simulated_voteRequest hinv hcand hne
  | voteStepDown he hreq hsrc hterm =>
    exact h.simulated_of_stepDown hinv (hcond _ (if_pos hterm)) rfl rfl rfl rfl rfl
      (fun e' he' => List.mem_of_mem_eraseIdx he') silent_endElection rfl
  | voteCounted he hreq hsrc hterm =>
    subst hreq
    have hcount := (h.election _ (List.mem_of_getElem? he)).count hsrc (hpacket _ rfl)
    exact h.simulated_of_same hinv rfl rfl rfl rfl rfl (h.election_setElection hcount)
      (fun _ _ hm => absurd hm List.not_mem_nil) (fun _ hn => absurd hn List.not_mem_nil)
  | appendEntries =>
    obtain ⟨hne, helected⟩ := hpacket _ rfl
    exact h.simulated_appendEntries hinv hne helected
  | installSnapshot => exact h.simulated_installSnapshot hinv
  | heartbeatStepDown hterm =>
    exact h.simulated_of_stepDown hinv (hcond _ (if_pos hterm)) rfl rfl rfl rfl rfl
      (fun _ he => he) hnil rfl
  | transferDone htr hsent hsrc hreq hsuccess =>
    subst hreq
    exact h.simulated_of_stepDown hinv (hcond _ (if_pos hsuccess)) rfl rfl rfl rfl rfl
      (fun _ he => he) hnil rfl
  | appendStepDown hterm | snapshotStepDown hterm =>
    exact h.simulated_of_stepDown hinv (.inl (h.term_eq ▸ hterm)) rfl rfl rfl rfl rfl
      (fun _ he => he) hnil rfl
  | appendCommitted hterm hrole hsuccess hs hmay =>
    subst hs
    exact h.simulated_of_quiet hinv rfl rfl rfl rfl rfl rfl hnil (fun _ => by simp)
  | @appendRejected _ src _ _ hterm hrole hsuccess =>
    obtain ⟨nextIndex, hdecrement⟩ := nd.state.decrementNext_eq src
    rw [hdecrement]
    exact h.simulated_of_quiet hinv rfl rfl rfl rfl rfl rfl hnil hnote
  | electionTimeout hnodup hpeers => exact h.simulated_standing hinv hnodup hpeers
  | @timeoutNowElection task order caller hcaller hnodup hpeers =>
    have h' : NodeBallot ids b x { nd with timeoutNows := nd.timeoutNows.eraseIdx task } :=
      h.of_same rfl rfl rfl rfl rfl h.election
    exact h'.simulated_standing hinv hnodup hpeers
  | voteFailed he hne =>
    obtain ⟨src, hsrc⟩ : ∃ src, _ = some src := Option.isSome_iff_exists.mp
      (List.isSome_head?.mpr hne)
    have hcount := (h.election _ (List.mem_of_getElem? he)).count hsrc
      (fun hf => absurd hf Bool.false_ne_true)
    exact h.simulated_of_same hinv rfl rfl rfl rfl rfl (h.election_setElection hcount)
      (fun _ _ hm => absurd hm List.not_mem_nil) (fun _ hn => absurd hn List.not_mem_nil)
  | electionWon he hdone hrole hterm hmaj =>
    exact h.simulated_won hinv hids hx he hrole hterm hmaj
  | electionLost he hdone votes =>
    exact h.simulated_of_same hinv rfl rfl rfl rfl rfl
      (fun e' he' => h.election e' (List.mem_of_mem_eraseIdx he'))
      (fun dst msg hm => (silent_endElection dst msg hm).packetBallot)
      (fun _ hn => absurd hn List.not_mem_nil)
  | heartbeatTick hrole =>
    refine h.simulated_of_same hinv rfl rfl rfl rfl rfl h.election (fun dst msg hm => ?_)
      (fun _ hn => absurd hn List.not_mem_nil)
    obtain ⟨p, hp, heq⟩ := List.mem_map.mp hm
    obtain ⟨rfl, rfl⟩ := Prod.mk.injEq .. ▸ heq
    exact ⟨(mem_peersOf.mp (h.peers_eq ▸ hp)).2.symm, h.leader hrole⟩
  | replicateTick hrole =>
    refine h.simulated_of_same hinv rfl rfl rfl rfl rfl h.election (fun dst msg hm => ?_)
      (fun _ hn => absurd hn List.not_mem_nil)
    obtain ⟨p, hp, heq⟩ := List.mem_filterMap.mp hm
    obtain ⟨msg', hmsg, heq⟩ := Option.map_eq_some_iff.mp heq
    obtain ⟨rfl, rfl⟩ := Prod.mk.injEq .. ▸ heq
    rcases RaftState.replicationMessage_cases hmsg with ⟨snapshot, -, -, rfl⟩ | ⟨-, rfl⟩
    · trivial
    · exact ⟨(mem_peersOf.mp (h.peers_eq ▸ hp)).2.symm, h.leader hrole⟩
  | @finishCompaction jobs workers c hc =>
    obtain ⟨log, logOffset, snapshot, hcompact⟩ :=
      nd.state.compactLog_eq ⟨c.lastApplied, c.lastAppliedTerm, jobs, workers⟩
    rw [hcompact]
    exact h.simulated_of_quiet hinv rfl rfl rfl rfl rfl rfl hnil hnote
  | getCommittedEntries =>
    exact h.simulated_of_quiet hinv rfl rfl rfl rfl rfl rfl hnil
      (fun _ => by simp [RaftNode.getCommittedEntries])
  | heartbeatIgnored | appendMatched | appendIgnored | snapshotMatched | timeoutNowTaken
  | transferRefused | appendCommand | startTransfer | transferFailed | beginCompaction =>
    exact h.simulated_of_quiet hinv rfl rfl rfl rfl rfl rfl hnil hnote
  | timeoutNowRefused hterm =>
    refine h.simulated_of_quiet hinv rfl rfl rfl rfl rfl rfl (fun dst msg hm => ?_) hnote
    obtain ⟨-, rfl⟩ := Prod.mk.injEq .. ▸ List.mem_singleton.mp hm
    trivial
  | transferPoll htr =>
    refine h.simulated_of_quiet hinv rfl rfl rfl rfl rfl rfl (fun dst msg hm => ?_) hnote
    obtain ⟨-, rfl⟩ := Prod.mk.injEq .. ▸ List.mem_singleton.mp hm
    trivial

end NodeBallot
end Refinement

namespace Cluster

variable {lib : WireLib} {ids : List ℕ} {cl cl' : Cluster} {a : Action}

def HasBallots (ids : List ℕ) (cl : Cluster) : Prop :=
  ∃ b : Ballots ℕ, b.Inv ids.toFinset ∧
    Linked ids (NodeBallot ids b) (PacketBallot b) (NoteBallot b) cl

theorem hasBallots_start (ids : List ℕ) : HasBallots ids (start ids) := by
  refine ⟨.initial, Ballots.inv_initial, linked_start fun x _ => ⟨rfl, rfl, rfl, rfl, ?_, ?_, ?_⟩⟩
  · exact iff_of_false id RaftRole.noConfusion
  · intro hr
    cases hr
  · exact fun e he => absurd he List.not_mem_nil

theorem MayStepDown.ballots {b : Ballots ℕ} {x t : ℕ} (hx : x ∈ ids)
    (h : Linked ids (NodeBallot ids b) (PacketBallot b) (NoteBallot b) cl)
    (hmay : cl.MayStepDown ids x t) :
    b.term x < t ∨
      (b.term x = t ∧ (b.candidate x ∨ b.vote x = none ∨ b.Closed ids.toFinset t)) := by
  have hnode := h.node x hx
  rw [hnode.term_eq, hnode.candidate_iff, hnode.vote_eq]
  rcases hmay with hlt | ⟨heq, hcand | hnone | hclosed⟩
  · exact .inl hlt
  · exact .inr ⟨heq, .inl hcand⟩
  · exact .inr ⟨heq, .inr (.inl hnone)⟩
  · refine .inr ⟨heq, .inr (.inr fun y hy => ?_)⟩
    have hy := List.mem_toFinset.mp hy
    rw [(h.node y hy).term_eq, (h.node y hy).candidate_iff]
    exact hclosed y hy

theorem HasBallots.step (hids : ids.Nodup) (h : HasBallots ids cl) (hcond : cl.KeepsBallots ids a)
    (hs : cl.step lib ids a = some cl') : HasBallots ids cl' := by
  obtain ⟨b, hinv, hlinked⟩ := h
  obtain ⟨eff, hx, hpacket, hstep, rfl⟩ := step_eq_some hs
  obtain ⟨b', hext, hinv', hself, hsent, hnotes⟩ :=
    (hlinked.node _ hx).simulated hinv hids hx (RaftNode.transition_of_step hstep)
      (fun p hp => hlinked.packet p (hpacket p hp))
      (fun t ht => (hcond t ht).ballots hx hlinked)
  exact ⟨b', hinv', hlinked.apply (fun y _ hne hy => hy.of_ne hext hne)
    (fun p _ hp => hp.extends hext) (fun y n _ hn => hn.extends hext) hself hsent hnotes⟩

/-- In a run without a step-down against a captured term that lowers the term or forgets a vote
that still counts, at most one node ever becomes leader in a term. -/
theorem election_safety (lib : WireLib) (hids : ids.Nodup)
    (h : Runs.Reach (step lib ids) (KeepsBallots ids) (start ids) cl) {x y : ℕ} {s s' : RaftState}
    (hx : (x, .becameLeader s) ∈ cl.history) (hy : (y, .becameLeader s') ∈ cl.history)
    (hterm : s.currentTerm = s'.currentTerm) : x = y := by
  obtain ⟨b, hinv, hlinked⟩ :=
    h.invariant (hasBallots_start ids) fun hb hcond hs => hb.step hids hcond hs
  have hwx : (s.currentTerm, x) ∈ b.elected := hlinked.note x _ hx
  have hwy : (s'.currentTerm, y) ∈ b.elected := hlinked.note y _ hy
  exact hinv.elected_unique _ x y hwx (hterm ▸ hwy)

/-- The leader of term 1 learns of term 2 from the reply to its heartbeat, and nobody else has
won term 1. -/
theorem election_safety_step_down :
    ∃ cl, Runs.Reach (step .standard [1, 2, 3]) (KeepsBallots [1, 2, 3]) (start [1, 2, 3]) cl ∧
      (1, 1) ∈ cl.leaders ∧ (cl.nodes 1).state.currentTerm = 2 ∧ (1, 2) ∉ cl.leaders := by
  obtain ⟨cl, hreach, hwon, hterm⟩ := Runs.exists_reach_of_guardedRun (step .standard [1, 2, 3])
    (KeepsBallots [1, 2, 3])
    (fun cl => (1, 1) ∈ cl.leaders ∧ (cl.nodes 1).state.currentTerm = 2) (start [1, 2, 3])
    (electedBy 1 2 1 0 0 ++ [⟨1, .heartbeatTick⟩, ⟨2, .electionTimeout []⟩,
      ⟨2, .deliver 0 1 (.appendEntries .heartbeat ⟨1, 1, 0, 0, [], 0⟩)⟩,
      ⟨1, .deliver 0 2 (.appendReply .heartbeat ⟨1, 1, 0, 0, [], 0⟩ ⟨2, false, 0⟩)⟩])
    (by decide +kernel)
  refine ⟨cl, hreach, hwon, hterm, fun htwo => ?_⟩
  obtain ⟨s, hs, hone⟩ := mem_leaders.mp hwon
  obtain ⟨s', hs', hone'⟩ := mem_leaders.mp htwo
  have heq := election_safety .standard (by decide) hreach hs hs' (hone.trans hone'.symm)
  omega

/-- The leader of term 1 votes for candidate 2 in term 2. Then the reply to its old heartbeat, of
term 2, makes it forget that vote, and it votes for candidate 3: both win term 2. -/
theorem two_leaders_in_one_term :
    ¬ ∀ (lib : WireLib) (ids : List ℕ) (cl : Cluster), ids.Nodup →
      Runs.Reach (step lib ids) (fun _ _ => True) (start ids) cl →
      ∀ (x y : ℕ) (s s' : RaftState), (x, .becameLeader s) ∈ cl.history →
        (y, .becameLeader s') ∈ cl.history → s.currentTerm = s'.currentTerm → x = y := by
  intro hall
  obtain ⟨cl, hreach, htwo, hthree⟩ := Runs.exists_reach_of_guardedRun
    (step .standard [1, 2, 3]) (fun _ _ => True)
    (fun cl => (2, 2) ∈ cl.leaders ∧ (2, 3) ∈ cl.leaders) (start [1, 2, 3])
    (electedBy 1 2 1 0 0 ++ [⟨1, .heartbeatTick⟩, ⟨2, .electionTimeout [1]⟩,
      ⟨1, .deliver 0 2 (.voteRequest ⟨2, 2, 0, 0⟩)⟩,
      ⟨2, .deliver 0 1 (.voteReply ⟨2, 2, 0, 0⟩ ⟨2, true⟩)⟩,
      ⟨2, .deliver 0 1 (.appendEntries .heartbeat ⟨1, 1, 0, 0, [], 0⟩)⟩, ⟨2, .finishElection 0⟩,
      ⟨1, .deliver 0 2 (.appendReply .heartbeat ⟨1, 1, 0, 0, [], 0⟩ ⟨2, false, 0⟩)⟩,
      ⟨3, .electionTimeout []⟩, ⟨3, .finishElection 0⟩] ++ electedBy 3 1 2 0 0)
    (by decide +kernel)
  obtain ⟨s, hs, hterm⟩ := mem_leaders.mp htwo
  obtain ⟨s', hs', hterm'⟩ := mem_leaders.mp hthree
  have heq := hall .standard [1, 2, 3] cl (by decide) hreach 2 3 s s' hs hs'
    (hterm.trans hterm'.symm)
  omega

end Cluster
end NomadLite
