import NomadLite.ClusterRestart
import NomadLite.LeaderNaming
import NomadLite.PeerRequests

/-!
# Runs without compaction keep the logs aligned

As long as nothing is compacted every log starts at index 1 and every entry stands at
the position of its index, whatever the elections, the order of the messages and the
restarts. The requests of a leader are cut out of its own log, so they are numbered
consecutively, and a follower only takes them where its log reaches.
-/

namespace NomadLite

def Message.Numbered (lib : WireLib) : Message → Prop
  | .appendEntries _ req => req.WellFormed lib
  | _ => True

structure NodeAligned (ids : List ℕ) (x : ℕ) (nd : RaftNode) : Prop where
  id_eq : nd.id = x
  peers_eq : nd.peers = peersOf ids x
  aligned : nd.state.Aligned
  known : nd.state.role = .leader → ∀ p ∈ nd.peers, p ∈ nd.state.nextIndex

theorem RaftState.Aligned.wellFormed_appendRequest {lib : WireLib} {s : RaftState} (h : s.Aligned)
    (hoff : s.logOffset = 0) (myId : ℕ) {peer next : ℕ}
    (hnext : s.nextIndex.lookup peer = some next) :
    (s.appendRequest lib myId next).WellFormed lib := by
  have hentries : (s.appendRequest lib myId next).entries =
      (s.log.drop (next - 1)).map (logEntryToProto lib) := by
    have hfilter := h.filter_replicationEntries hnext (hoff ▸ Nat.zero_le _)
    rw [hoff, Nat.sub_zero] at hfilter
    exact congrArg (List.map (logEntryToProto lib)) hfilter
  have hdrop : IndexedFrom (next - 1) (s.log.drop (next - 1)) := by
    have hindexed := IndexedFrom.drop h (next - 1)
    rwa [hoff, Nat.zero_add] at hindexed
  constructor
  · intro p hp
    rw [hentries] at hp
    obtain ⟨e, -, rfl⟩ := List.mem_map.mp hp
    rw [protoToLogEntry_logEntryToProto]
    rfl
  · rw [hentries, List.map_map, List.length_map]
    exact IndexedFrom.iff_map_index.mp hdrop

namespace RaftNode

variable {lib : WireLib} {nd : RaftNode} {ev : Event} {eff : Effect}

theorem Transition.aligned (h : Transition lib nd ev eff) (hev : ev.AppendOnly)
    (hoff : nd.state.logOffset = 0) (hal : nd.state.Aligned)
    (hmsg : ∀ task src msg, ev = .deliver task src msg → msg.Numbered lib) :
    eff.node.state.Aligned := by
  cases h with
  | voteRequest => exact hal.handleRequestVote _
  | appendEntries =>
    rw [handleAppendEntries_state]
    exact (hal.handleAppendEntries (hmsg _ _ _ rfl)).mpr fun _ _ => hoff ▸ Nat.zero_le _
  | appendCommitted hterm hrole hsuccess hs hmay =>
    subst hs
    exact hal
  | @appendRejected _ src =>
    obtain ⟨nextIndex, hdecrement⟩ := nd.state.decrementNext_eq src
    rw [hdecrement]
    exact hal
  | appendCommand => exact hal.appendEntry _
  | installSnapshot | snapshotStepDown | snapshotMatched | beginCompaction | finishCompaction =>
    exact hev.elim
  | voteStepDown | voteCounted | heartbeatStepDown | heartbeatIgnored | appendStepDown
  | appendMatched | appendIgnored | timeoutNowRefused | timeoutNowTaken | transferDone
  | transferRefused | electionTimeout | timeoutNowElection | voteFailed | electionWon
  | electionLost | heartbeatTick | replicateTick | startTransfer | transferPoll | transferFailed
  | getCommittedEntries => exact hal

/-- A node that becomes leader takes all its peers into `next_index`, and none of them is removed
while it stays leader. -/
theorem Transition.known (h : Transition lib nd ev eff) (hev : ev.AppendOnly)
    (hnd : nd.state.role = .leader → ∀ p ∈ nd.peers, p ∈ nd.state.nextIndex)
    (hrole : eff.node.state.role = .leader) : ∀ p ∈ nd.peers, p ∈ eff.node.state.nextIndex := by
  cases h with
  | @voteRequest _ src req =>
    have hcases := handleRequestVote_cases nd.state req
    rcases lt_or_ge nd.state.currentTerm req.term with hlt | hge
    · rw [RaftState.adoptTerm_eq_follower hlt] at hcases
      rcases hcases with hrefused | ⟨-, -, -, hgranted⟩
      · rw [handleVoteRequest, hrefused] at hrole
        cases hrole
      · rw [handleVoteRequest, hgranted] at hrole
        cases hrole
    · rw [RaftState.adoptTerm_eq_self hge] at hcases
      rcases hcases with hrefused | ⟨-, -, -, hgranted⟩
      · rw [handleVoteRequest, hrefused] at hrole ⊢
        exact hnd hrole
      · rw [handleVoteRequest, hgranted] at hrole ⊢
        exact hnd hrole
  | @appendEntries _ src kind req =>
    rw [handleAppendEntries_state] at hrole ⊢
    rcases lt_or_ge req.term nd.state.currentTerm with hlt | hge
    · rw [handleAppendEntries_stale hlt] at hrole ⊢
      exact hnd hrole
    · rw [(handleAppendEntries_follower lib hge).2.1] at hrole
      cases hrole
  | electionWon =>
    intro p hp
    exact Finmap.mem_iff.mpr ⟨_, (IndexMap.lookup_foldl_insert ..).trans (if_pos hp)⟩
  | appendCommitted hterm hleader hsuccess hs hmay =>
    subst hs
    exact fun p hp => Finmap.mem_insert.mpr (.inr (hnd hleader p hp))
  | appendMatched hterm hleader =>
    exact fun p hp => Finmap.mem_insert.mpr (.inr (hnd hleader p hp))
  | @appendRejected _ src _ _ hterm hleader =>
    intro p hp
    change p ∈ (nd.state.decrementNext src).nextIndex
    simp only [RaftState.decrementNext]
    split_ifs
    · exact Finmap.mem_insert.mpr (.inr (hnd hleader p hp))
    · exact hnd hleader p hp
  | installSnapshot | snapshotStepDown | snapshotMatched | beginCompaction | finishCompaction =>
    exact hev.elim
  | voteStepDown | heartbeatStepDown | appendStepDown | transferDone | electionTimeout
  | timeoutNowElection => cases hrole
  | voteCounted | heartbeatIgnored | appendIgnored | timeoutNowRefused | timeoutNowTaken
  | transferRefused | voteFailed | electionLost | heartbeatTick | replicateTick | appendCommand
  | startTransfer | transferPoll | transferFailed | getCommittedEntries => exact hnd hrole

theorem Transition.numbered (h : Transition lib nd ev eff) (hoff : nd.state.logOffset = 0)
    (hal : nd.state.Aligned)
    (hnd : nd.state.role = .leader → ∀ p ∈ nd.peers, p ∈ nd.state.nextIndex) {dst : ℕ}
    {msg : Message} (hsent : (dst, msg) ∈ eff.sent) : msg.Numbered lib := by
  cases h with
  | replicateTick hrole =>
    obtain ⟨p, hp, hmsg⟩ := List.mem_filterMap.mp hsent
    obtain ⟨msg', hmsg', heq⟩ := Option.map_eq_some_iff.mp hmsg
    obtain ⟨rfl, rfl⟩ := Prod.mk.inj heq
    rcases RaftState.replicationMessage_cases hmsg' with ⟨snapshot, -, -, rfl⟩ | ⟨-, rfl⟩
    · trivial
    · obtain ⟨next, hnext⟩ := Finmap.mem_iff.mp (hnd hrole p hp)
      rw [hnext]
      exact hal.wellFormed_appendRequest hoff _ hnext
  | heartbeatTick =>
    obtain ⟨p, -, heq⟩ := List.mem_map.mp hsent
    obtain ⟨-, rfl⟩ := Prod.mk.inj heq
    exact ⟨fun p hp => absurd hp List.not_mem_nil, rfl⟩
  | voteRequest | appendEntries | installSnapshot | timeoutNowRefused | transferPoll =>
    obtain ⟨-, rfl⟩ := Prod.mk.inj (List.mem_singleton.mp hsent)
    trivial
  | voteStepDown | electionWon | electionLost | electionTimeout | timeoutNowElection =>
    obtain ⟨p, -, heq⟩ := List.mem_map.mp hsent
    obtain ⟨-, rfl⟩ := Prod.mk.inj heq
    trivial
  | voteCounted | heartbeatStepDown | heartbeatIgnored | appendStepDown | appendCommitted
  | appendMatched | appendRejected | appendIgnored | snapshotStepDown | snapshotMatched
  | timeoutNowTaken | transferDone | transferRefused | voteFailed | appendCommand | startTransfer
  | transferFailed | getCommittedEntries | beginCompaction | finishCompaction => cases hsent

end RaftNode

namespace Cluster

variable {lib : WireLib} {ids : List ℕ} {cl cl' : Cluster} {a : Action} {x : ℕ}

structure Plain (lib : WireLib) (ids : List ℕ) (cl : Cluster) : Prop where
  uncompacted : cl.Uncompacted ids
  linked : Linked ids (NodeAligned ids) (fun p => p.msg.Numbered lib) (fun _ _ => True) cl

theorem plain_start (lib : WireLib) (ids : List ℕ) : (start ids).Plain lib ids where
  uncompacted := linked_start fun _ _ => ⟨rfl, rfl⟩
  linked := linked_start fun _ _ => ⟨rfl, rfl, IndexedFrom.nil 0, RaftRole.noConfusion⟩

namespace Plain

theorem step (h : cl.Plain lib ids) (hev : a.event.NoCompaction)
    (hs : cl.step lib ids a = some cl') : cl'.Plain lib ids := by
  have happend := h.uncompacted.appendOnly hev hs
  refine ⟨h.uncompacted.step happend hs, ?_⟩
  obtain ⟨eff, hx, hpacket, hstep, rfl⟩ := step_eq_some hs
  have htr := RaftNode.transition_of_step hstep
  have hoff := h.uncompacted.offset hx
  obtain ⟨hid, hpeers, hal, hknown⟩ := h.linked.node _ hx
  refine h.linked.apply (fun _ _ _ hy => hy) (fun _ _ hp => hp) (fun _ _ _ _ => trivial)
    ⟨htr.id_eq.trans hid, htr.peers_eq.trans hpeers, ?_, ?_⟩
    (fun dst msg hm => htr.numbered hoff hal hknown hm) fun _ _ => trivial
  · exact htr.aligned happend hoff hal fun task src msg heq =>
      h.linked.packet ⟨src, a.node, msg⟩ (hpacket _ (by rw [heq]; rfl))
  · intro hrole p hp
    exact htr.known happend hknown hrole p (htr.peers_eq ▸ hp)

theorem restart (h : cl.Plain lib ids) (hx : x ∈ ids) : (cl.restart x).Plain lib ids where
  uncompacted := h.uncompacted.restart hx
  linked := h.linked.apply (fun _ _ _ hy => hy) (fun _ _ hp => hp) (fun _ _ _ _ => trivial)
    ⟨(h.linked.node x hx).id_eq, (h.linked.node x hx).peers_eq, (h.linked.node x hx).aligned,
      RaftRole.noConfusion⟩
    (fun _ _ hm => absurd hm List.not_mem_nil) fun _ _ => trivial

theorem lastLogIndex_eq (h : cl.Plain lib ids) (hx : x ∈ ids) :
    (cl.nodes x).state.lastLogIndex = (cl.nodes x).state.log.length := by
  rw [(h.linked.node x hx).aligned.lastLogIndex, h.uncompacted.offset hx, Nat.zero_add]

theorem reach {Q : Cluster → Action → Prop} (h : cl.Plain lib ids)
    (hQ : ∀ cl a, Q cl a → a.event.NoCompaction) (hr : Runs.Reach (Cluster.step lib ids) Q cl cl') :
    cl'.Plain lib ids :=
  hr.invariant h fun hP hq hs => hP.step (hQ _ _ hq) hs

theorem of_faulty (h : Runs.Reach (faultyStep lib ids)
      (FaultyAction.Meets fun _ a => a.event.NoCompaction) (start ids) cl) : cl.Plain lib ids :=
  faulty_invariant h (plain_start lib ids) (fun hP hq hs => hP.step hq hs) fun hx hP =>
    hP.restart hx

end Plain
end Cluster
end NomadLite
