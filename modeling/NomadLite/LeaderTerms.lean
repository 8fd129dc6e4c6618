import NomadLite.CallCommits
import NomadLite.LeaderNaming

/-!
# The term of the leader that a node names

A node learns of a leader from a request of that leader or by winning an election
itself, and it forgets it only when it stands. The name may be long out of date. But
the term in which the named node won is never below a term the naming node has won
itself, and above all of them when it names another node: names point to greater terms.
-/

namespace NomadLite

def Event.heard : Event → Option (ℕ × ℕ)
  | .deliver _ _ (.appendEntries _ req) => some (req.term, req.leaderId)
  | .deliver _ _ (.installSnapshot req) => some (req.term, req.leaderId)
  | _ => none

namespace RaftNode

/-- What a step does to the name of the leader. Only a won election makes a node a leader. -/
inductive NameStep (nd : RaftNode) (ev : Event) (eff : Effect) : Prop where
  | kept (hleader : eff.node.state.leaderId = nd.state.leaderId)
      (hrole : eff.node.state.role = .leader →
        nd.state.role = .leader ∧ eff.node.state.currentTerm = nd.state.currentTerm)
      (hnotes : ∀ s, .becameLeader s ∉ eff.notes)
  | cleared (hleader : eff.node.state.leaderId = none) (hrole : eff.node.state.role ≠ .leader)
      (hnotes : ∀ s, .becameLeader s ∉ eff.notes)
  | heard {term leaderId : ℕ} (hfrom : ev.heard = some (term, leaderId))
      (hleader : eff.node.state.leaderId = some leaderId)
      (hterm : eff.node.state.currentTerm = term) (hle : nd.state.currentTerm ≤ term)
      (hrole : eff.node.state.role = .leader →
        nd.state.role = .leader ∧ eff.node.state.currentTerm = nd.state.currentTerm)
      (hnotes : ∀ s, .becameLeader s ∉ eff.notes)
  | won (hleader : eff.node.state.leaderId = some nd.id)
      (hterm : eff.node.state.currentTerm = nd.state.currentTerm)
      (hnotes : eff.notes = [.becameLeader eff.node.state])

variable {lib : WireLib} {nd : RaftNode} {ev : Event} {eff : Effect}

/-- A step that leaves the name and makes the node a follower, or leaves term and role too. -/
theorem NameStep.of_stays (hnotes : ∀ s, .becameLeader s ∉ eff.notes)
    (hleader : eff.node.state.leaderId = nd.state.leaderId)
    (h : eff.node.state.role = .follower ∨
      (eff.node.state.role = nd.state.role ∧
        eff.node.state.currentTerm = nd.state.currentTerm)) : nd.NameStep ev eff := by
  refine .kept hleader (fun hlead => ?_) hnotes
  rcases h with hrole | ⟨hrole, hterm⟩
  · rw [hrole] at hlead
    cases hlead
  · exact ⟨hrole ▸ hlead, hterm⟩

theorem NameStep.not_won_or_won (h : nd.NameStep ev eff) :
    (∀ s, .becameLeader s ∉ eff.notes) ∨
      (eff.node.state.leaderId = some nd.id ∧
        eff.node.state.currentTerm = nd.state.currentTerm ∧
        eff.notes = [.becameLeader eff.node.state]) := by
  cases h with
  | kept hleader hrole hnotes => exact .inl hnotes
  | cleared hleader hrole hnotes => exact .inl hnotes
  | heard hfrom hleader hterm hle hrole hnotes => exact .inl hnotes
  | won hleader hterm hnotes => exact .inr ⟨hleader, hterm, hnotes⟩

theorem leaderId_adoptTerm (s : RaftState) (term : ℕ) :
    (s.adoptTerm term).leaderId = s.leaderId := by
  rw [RaftState.adoptTerm]
  split_ifs <;> rfl

theorem adoptTerm_stays (s : RaftState) (term : ℕ) :
    (s.adoptTerm term).role = .follower ∨
      ((s.adoptTerm term).role = s.role ∧ (s.adoptTerm term).currentTerm = s.currentTerm) := by
  rw [RaftState.adoptTerm]
  split_ifs
  · exact .inl rfl
  · exact .inr ⟨rfl, rfl⟩

theorem nameStep_handleVoteRequest (nd : RaftNode) (src : ℕ) (req : VoteRequest) :
    nd.NameStep ev (nd.handleVoteRequest src req) := by
  have hadopt := adoptTerm_stays nd.state req.term
  have hname := leaderId_adoptTerm nd.state req.term
  rw [handleVoteRequest]
  rcases handleRequestVote_cases nd.state req with heq | ⟨-, -, -, heq⟩
  · rw [heq]
    exact .of_stays (fun s => List.not_mem_nil) hname hadopt
  · rw [heq]
    exact .of_stays (fun s => List.not_mem_nil) hname hadopt

theorem nameStep_handleAppendEntries (nd : RaftNode) (task src : ℕ) (kind : AppendKind)
    (req : AppendEntriesRequest) :
    nd.NameStep (.deliver task src (.appendEntries kind req))
      (nd.handleAppendEntries lib src kind req) := by
  have hstate : (nd.handleAppendEntries lib src kind req).node.state =
      (NomadLite.handleAppendEntries lib nd.state req).1 :=
    handleAppendEntries_state nd src kind req
  rcases lt_or_ge req.term nd.state.currentTerm with hlt | hge
  · rw [handleAppendEntries_stale hlt] at hstate
    exact .of_stays (fun s => List.not_mem_nil) (by rw [hstate])
      (.inr ⟨by rw [hstate], by rw [hstate]⟩)
  · obtain ⟨log, commitIndex, heq⟩ := handleAppendEntries_eq_setLog lib hge
    obtain ⟨hterm, hrole, -, -⟩ := handleAppendEntries_follower lib hge
    rw [heq] at hstate
    refine .heard rfl ?_ ?_ hge (fun hlead => ?_) fun s => List.not_mem_nil
    · rw [hstate]
      rfl
    · rw [handleAppendEntries_state, hterm]
    · rw [handleAppendEntries_state, hrole] at hlead
      cases hlead

theorem nameStep_handleInstallSnapshot (nd : RaftNode) (task src : ℕ)
    (req : InstallSnapshotRequest) :
    nd.NameStep (.deliver task src (.installSnapshot req))
      (nd.handleInstallSnapshot lib src req) := by
  have hstate : (nd.handleInstallSnapshot lib src req).node.state =
      (NomadLite.handleInstallSnapshot lib nd.state req).1 := handleInstallSnapshot_state nd src req
  obtain ⟨hterm, -, hrole⟩ := handleInstallSnapshot_ballot lib nd.state req
  rcases lt_or_ge req.term nd.state.currentTerm with hlt | hge
  · have hsame : (NomadLite.handleInstallSnapshot lib nd.state req).1 = nd.state := by
      rw [NomadLite.handleInstallSnapshot, RaftState.adoptTerm_eq_self hlt.le, if_pos hlt]
    rw [hsame] at hstate
    exact .of_stays (fun s => List.not_mem_nil) (by rw [hstate])
      (.inr ⟨by rw [hstate], by rw [hstate]⟩)
  · have hmax : (nd.state.adoptTerm req.term).currentTerm = req.term := by
      rw [RaftState.adoptTerm_currentTerm, max_eq_right hge]
    refine .heard rfl ?_ ?_ hge (fun hlead => ?_) fun s => List.not_mem_nil
    · rw [hstate, NomadLite.handleInstallSnapshot, hmax, if_neg (lt_irrefl _)]
      exact RaftState.installSnapshot_leaderId _ _
    · rw [hstate, hterm, hmax]
    · rw [hstate, hrole] at hlead
      rw [hstate, hterm]
      rcases adoptTerm_stays nd.state req.term with hfollower | ⟨hsame, hsame'⟩
      · rw [hfollower] at hlead
        cases hlead
      · exact ⟨hsame ▸ hlead, hsame'⟩

theorem Transition.nameStep (h : Transition lib nd ev eff) : nd.NameStep ev eff := by
  have hnil : ∀ s, Note.becameLeader s ∉ ([] : List Note) := fun s => List.not_mem_nil
  cases h with
  | voteRequest => exact nameStep_handleVoteRequest nd _ _
  | appendEntries => exact nameStep_handleAppendEntries nd _ _ _ _
  | installSnapshot => exact nameStep_handleInstallSnapshot nd _ _ _
  | voteStepDown | heartbeatStepDown | appendStepDown | snapshotStepDown | transferDone =>
    exact .of_stays hnil rfl (.inl rfl)
  | appendCommitted hterm hrole hsuccess hs hmay =>
    subst hs
    refine .of_stays (fun s hs => ?_) rfl (.inr ⟨rfl, rfl⟩)
    cases List.mem_singleton.mp hs
  | @appendRejected _ src _ _ hterm hrole hsuccess =>
    obtain ⟨nextIndex, hdecrement⟩ := nd.state.decrementNext_eq src
    rw [hdecrement]
    exact .of_stays hnil rfl (.inr ⟨rfl, rfl⟩)
  | electionTimeout => exact .cleared rfl RaftRole.noConfusion hnil
  | timeoutNowElection => exact .cleared rfl RaftRole.noConfusion hnil
  | electionWon => exact .won rfl rfl rfl
  | @finishCompaction jobs workers c hc =>
    obtain ⟨log, logOffset, snapshot, hcompact⟩ :=
      nd.state.compactLog_eq ⟨c.lastApplied, c.lastAppliedTerm, jobs, workers⟩
    rw [hcompact]
    exact .of_stays hnil rfl (.inr ⟨rfl, rfl⟩)
  | getCommittedEntries =>
    refine .of_stays (fun s hs => ?_) rfl (.inr ⟨rfl, rfl⟩)
    cases List.mem_singleton.mp hs
  | voteCounted | heartbeatIgnored | appendMatched | appendIgnored | snapshotMatched
  | transferRefused | timeoutNowRefused | timeoutNowTaken | voteFailed | electionLost
  | heartbeatTick | replicateTick | appendCommand | startTransfer | transferPoll | transferFailed
  | beginCompaction => exact .of_stays hnil rfl (.inr ⟨rfl, rfl⟩)

end RaftNode

/-! ### The cluster -/

/-- What node `x` knows of the elections won: its own are in terms it has reached, and the one
behind the name it keeps is not before them. -/
structure NodeNames (ids : List ℕ) (won : List (ℕ × ℕ)) (x : ℕ) (nd : RaftNode) : Prop where
  id_eq : nd.id = x
  peers_eq : nd.peers = peersOf ids x
  own : ∀ T, (T, x) ∈ won → T ≤ nd.state.currentTerm
  leader : nd.state.role = .leader → (nd.state.currentTerm, x) ∈ won
  named : ∀ z, nd.state.leaderId = some z → ∃ T ≤ nd.state.currentTerm, (T, z) ∈ won ∧
    ∀ S, (S, x) ∈ won → S ≤ T ∧ (z ≠ x → S < T)

def PacketNames (won : List (ℕ × ℕ)) (p : Packet) : Prop :=
  match p.msg with
  | .appendEntries _ req => (req.term, req.leaderId) ∈ won ∧ req.leaderId ≠ p.dst
  | .installSnapshot req => (req.term, req.leaderId) ∈ won ∧ req.leaderId ≠ p.dst
  | _ => True

namespace NodeNames

variable {lib : WireLib} {ids : List ℕ} {won won' : List (ℕ × ℕ)} {x y : ℕ} {nd : RaftNode}
  {ev : Event} {eff : Effect}

theorem id_ne_of_mem_peers (h : NodeNames ids won x nd) {p : ℕ} (hp : p ∈ nd.peers) :
    nd.id ≠ p := by
  rw [h.peers_eq] at hp
  rw [h.id_eq]
  exact (mem_peersOf.mp hp).2.symm

theorem of_ne (h : NodeNames ids won x nd) (hsub : won ⊆ won')
    (hnew : ∀ T, (T, x) ∈ won' → (T, x) ∈ won) : NodeNames ids won' x nd where
  id_eq := h.id_eq
  peers_eq := h.peers_eq
  own T hT := h.own T (hnew T hT)
  leader hrole := hsub (h.leader hrole)
  named z hz := by
    obtain ⟨T, hle, hT, hown⟩ := h.named z hz
    exact ⟨T, hle, hsub hT, fun S hS => hown S (hnew S hS)⟩

theorem of_nameStep (h : NodeNames ids won x nd) (hname : nd.NameStep ev eff)
    (hid : eff.node.id = nd.id) (hpeers : eff.node.peers = nd.peers)
    (hterm : nd.state.currentTerm ≤ eff.node.state.currentTerm)
    (hunique : ∀ T z z', (T, z) ∈ won → (T, z') ∈ won → z = z')
    (hheard : ∀ p ∈ ev.heard, p ∈ won) (hnotes : ∀ s, .becameLeader s ∉ eff.notes) :
    NodeNames ids won x eff.node where
  id_eq := hid.trans h.id_eq
  peers_eq := hpeers.trans h.peers_eq
  own T hT := (h.own T hT).trans hterm
  leader hlead := by
    cases hname with
    | kept hleader hrole =>
      obtain ⟨hold, hsame⟩ := hrole hlead
      exact hsame ▸ h.leader hold
    | cleared hleader hrole => exact absurd hlead hrole
    | heard hfrom hleader hnew hle hrole =>
      obtain ⟨hold, hsame⟩ := hrole hlead
      exact hsame ▸ h.leader hold
    | won hleader hsame hmem => exact absurd (hmem ▸ List.mem_singleton_self _) (hnotes _)
  named z hz := by
    cases hname with
    | kept hleader =>
      obtain ⟨T, hle, hT, hown⟩ := h.named z (hleader.symm.trans hz)
      exact ⟨T, hle.trans hterm, hT, hown⟩
    | cleared hleader =>
      rw [hleader] at hz
      cases hz
    | @heard term leaderId hfrom hleader hnew hle =>
      obtain rfl := Option.some.inj (hleader.symm.trans hz)
      have hwon := hheard _ hfrom
      refine ⟨term, hnew.ge, hwon, fun S hS => ?_⟩
      have hS' := (h.own S hS).trans hle
      refine ⟨hS', fun hne => lt_of_le_of_ne hS' fun heq => hne ?_⟩
      exact hunique term leaderId x hwon (heq ▸ hS)
    | won hleader hsame hmem => exact absurd (hmem ▸ List.mem_singleton_self _) (hnotes _)

theorem of_won (h : NodeNames ids won x nd) (hid : eff.node.id = nd.id)
    (hpeers : eff.node.peers = nd.peers) (hleader : eff.node.state.leaderId = some nd.id)
    (hterm : eff.node.state.currentTerm = nd.state.currentTerm) :
    NodeNames ids (won ++ [(nd.state.currentTerm, x)]) x eff.node := by
  have hown : ∀ T, (T, x) ∈ won ++ [(nd.state.currentTerm, x)] → T ≤ nd.state.currentTerm := by
    intro T hT
    rcases List.mem_append.mp hT with hold | hnew
    · exact h.own T hold
    · exact (Prod.mk.inj (List.mem_singleton.mp hnew)).1.le
  have hlast := List.mem_append_right won (List.mem_singleton_self (nd.state.currentTerm, x))
  refine ⟨hid.trans h.id_eq, hpeers.trans h.peers_eq, ?_, ?_, ?_⟩
  · rw [hterm]
    exact hown
  · rw [hterm]
    exact fun _ => hlast
  · intro z hz
    obtain rfl : x = z := h.id_eq.symm.trans (Option.some.inj (hleader.symm.trans hz))
    exact ⟨_, hterm.ge, hlast, fun S hS => ⟨hown S hS, fun hne => absurd rfl hne⟩⟩

end NodeNames

namespace Cluster

variable {lib : WireLib} {ids : List ℕ} {cl cl' : Cluster} {a : Action}

def HasNames (ids : List ℕ) (cl : Cluster) : Prop :=
  Linked ids (NodeNames ids cl.leaders) (PacketNames cl.leaders) (fun _ _ => True) cl

theorem hasNames_start (ids : List ℕ) : HasNames ids (start ids) := by
  refine linked_start fun x _ => ⟨rfl, rfl, ?_, ?_, ?_⟩
  · intro T hT
    cases hT
  · intro hrole
    cases hrole
  · intro z hz
    cases hz

theorem leaders_apply_of_not_won (cl : Cluster) (x : ℕ) {eff : Effect}
    (h : ∀ s, .becameLeader s ∉ eff.notes) : (cl.apply x eff).leaders = cl.leaders := by
  rw [leaders, apply, List.filterMap_append, ← leaders]
  refine (congrArg _ (List.filterMap_eq_nil_iff.mpr fun n hn => ?_)).trans (List.append_nil _)
  obtain ⟨note, hnote, rfl⟩ := List.mem_map.mp hn
  cases note with
  | becameLeader s => exact absurd hnote (h s)
  | advancedCommit | applied => rfl

theorem leaders_apply_of_won (cl : Cluster) (x : ℕ) {eff : Effect}
    (h : eff.notes = [.becameLeader eff.node.state]) :
    (cl.apply x eff).leaders = cl.leaders ++ [(eff.node.state.currentTerm, x)] := by
  rw [leaders, apply, List.filterMap_append, ← leaders, h]
  rfl

end Cluster

/-- A request that a step sends is in the name of its sender, who leads. -/
theorem RaftNode.Transition.packetNames {lib : WireLib} {ids : List ℕ} {won : List (ℕ × ℕ)}
    {x : ℕ} {nd : RaftNode} {ev : Event} {eff : Effect} (h : Transition lib nd ev eff)
    (hnode : NodeNames ids won x nd) {dst : ℕ} {msg : Message} (hsent : (dst, msg) ∈ eff.sent) :
    PacketNames won ⟨x, dst, msg⟩ := by
  cases h with
  | heartbeatTick hrole =>
    obtain ⟨p, hp, heq⟩ := List.mem_map.mp hsent
    obtain ⟨rfl, rfl⟩ := Prod.mk.inj heq
    exact ⟨hnode.id_eq ▸ hnode.leader hrole, hnode.id_ne_of_mem_peers hp⟩
  | replicateTick hrole =>
    obtain ⟨p, hp, hmsg⟩ := List.mem_filterMap.mp hsent
    obtain ⟨msg', hmsg', heq⟩ := Option.map_eq_some_iff.mp hmsg
    obtain ⟨rfl, rfl⟩ := Prod.mk.inj heq
    have hpacket : (nd.state.currentTerm, nd.id) ∈ won ∧ nd.id ≠ p :=
      ⟨hnode.id_eq ▸ hnode.leader hrole, hnode.id_ne_of_mem_peers hp⟩
    rcases RaftState.replicationMessage_cases hmsg' with ⟨snapshot, -, -, rfl⟩ | ⟨-, rfl⟩
    · exact hpacket
    · exact hpacket
  | voteRequest | appendEntries | installSnapshot | timeoutNowRefused | transferPoll =>
    obtain ⟨rfl, rfl⟩ := Prod.mk.inj (List.mem_singleton.mp hsent)
    trivial
  | voteStepDown | electionWon | electionLost | electionTimeout | timeoutNowElection =>
    obtain ⟨p, -, heq⟩ := List.mem_map.mp hsent
    obtain ⟨rfl, rfl⟩ := Prod.mk.inj heq
    trivial
  | voteCounted | heartbeatStepDown | heartbeatIgnored | appendStepDown | appendCommitted
  | appendMatched | appendRejected | appendIgnored | snapshotStepDown | snapshotMatched
  | timeoutNowTaken | transferDone | transferRefused | voteFailed | appendCommand | startTransfer
  | transferFailed | getCommittedEntries | beginCompaction | finishCompaction => cases hsent

theorem PacketNames.mono {won won' : List (ℕ × ℕ)} {p : Packet} (h : PacketNames won p)
    (hsub : won ⊆ won') : PacketNames won' p := by
  obtain ⟨src, dst, msg⟩ := p
  cases msg with
  | appendEntries kind req => exact ⟨hsub h.1, h.2⟩
  | installSnapshot req => exact ⟨hsub h.1, h.2⟩
  | voteRequest | voteReply | appendReply | snapshotReply | timeoutNow | timeoutNowReply => trivial

namespace Cluster

variable {lib : WireLib} {ids : List ℕ} {cl cl' : Cluster} {a : Action}

theorem KeepsBallots.keepsTerm (h : cl.KeepsBallots ids a) :
    (cl.nodes a.node).KeepsTerm a.event := by
  intro t ht
  rcases h t ht with hlt | ⟨heq, -⟩
  · exact hlt.le
  · exact heq.le

theorem HasNames.heard (h : HasNames ids cl)
    (hpacket : ∀ p ∈ a.event.packet a.node, p ∈ cl.network) :
    ∀ p ∈ a.event.heard, p ∈ cl.leaders := by
  intro p hp
  obtain ⟨x, ev⟩ := a
  cases ev with
  | deliver task src msg =>
    have hnames := h.packet _ (hpacket _ rfl)
    cases msg with
    | appendEntries kind req => exact Option.some.inj hp ▸ hnames.1
    | installSnapshot req => exact Option.some.inj hp ▸ hnames.1
    | voteRequest | voteReply | appendReply | snapshotReply | timeoutNow | timeoutNowReply =>
      cases hp
  | electionTimeout | timeoutNowElection | voteFailed | finishElection | heartbeatTick
  | replicateTick | appendCommand | startTransfer | transferPoll | transferFailed
  | getCommittedEntries | beginCompaction | finishCompaction => cases hp

theorem OneLeaderPerTerm.unique (h : cl.OneLeaderPerTerm) (T z z' : ℕ) (hz : (T, z) ∈ cl.leaders)
    (hz' : (T, z') ∈ cl.leaders) : z = z' := by
  obtain ⟨s, hs, rfl⟩ := mem_leaders.mp hz
  obtain ⟨s', hs', heq⟩ := mem_leaders.mp hz'
  exact h z z' s s' hs hs' heq.symm

theorem HasNames.step (h : HasNames ids cl) (hone : cl.OneLeaderPerTerm)
    (hcond : cl.KeepsBallots ids a) (hs : cl.step lib ids a = some cl') : HasNames ids cl' := by
  obtain ⟨eff, hx, hpacket, hstep, rfl⟩ := step_eq_some hs
  have htr := RaftNode.transition_of_step hstep
  have hnode := h.node _ hx
  have hterm := htr.currentTerm_le_iff.mpr hcond.keepsTerm
  rcases htr.nameStep.not_won_or_won with hnotes | ⟨hleader, hsame, hnotes⟩
  · have hleaders := cl.leaders_apply_of_not_won a.node hnotes
    have hself := hnode.of_nameStep htr.nameStep htr.id_eq htr.peers_eq hterm hone.unique
      (h.heard hpacket) hnotes
    rw [HasNames, hleaders]
    exact h.apply (fun y _ _ hy => hy) (fun p _ hp => hp) (fun _ _ _ _ => trivial) hself
      (fun dst msg hsent => htr.packetNames hnode hsent) fun _ _ => trivial
  · have hleaders := cl.leaders_apply_of_won a.node hnotes
    rw [hsame] at hleaders
    have hsub : cl.leaders ⊆ cl.leaders ++ [((cl.nodes a.node).state.currentTerm, a.node)] :=
      List.subset_append_left _ _
    rw [HasNames, hleaders]
    refine h.apply (fun y _ hne hy => hy.of_ne hsub fun T hT => ?_) (fun p _ hp => hp.mono hsub)
      (fun _ _ _ _ => trivial) (hnode.of_won htr.id_eq htr.peers_eq hleader hsame)
      (fun dst msg hsent => (htr.packetNames hnode hsent).mono hsub) fun _ _ => trivial
    rcases List.mem_append.mp hT with hold | hnew
    · exact hold
    · exact absurd (Prod.mk.inj (List.mem_singleton.mp hnew)).2 hne

end Cluster
end NomadLite
