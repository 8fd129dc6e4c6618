import NomadLite.JobCluster

/-!
# How snapshots travel

A node gets a snapshot from its own compaction or from a leader that has one. What
holds of every snapshot made, and survives the wire, holds of every snapshot a node
stores, has queued for its scheduler loop, or is sent.
-/

namespace NomadLite

def RaftNode.Keeps (P : Snapshot → Prop) (nd : RaftNode) : Prop :=
  (∀ snap ∈ nd.state.snapshot, P snap) ∧ ∀ snap ∈ nd.pendingSnapshot, P snap

def Message.Carries (lib : WireLib) (P : Snapshot → Prop) : Message → Prop
  | .installSnapshot req => P (req.toSnapshot lib)
  | _ => True

variable {lib : WireLib} {P : Snapshot → Prop}

theorem forall_mem_none : ∀ snap ∈ (none : Option Snapshot), P snap := by
  intro snap hsnap
  cases hsnap

theorem handleRequestVote_snapshot (s : RaftState) (req : VoteRequest) :
    (handleRequestVote s req).1.snapshot = s.snapshot := by
  rw [handleRequestVote]
  split_ifs <;> exact RaftState.adoptTerm_snapshot

theorem handleAppendEntries_snapshot (s : RaftState) (req : AppendEntriesRequest) :
    (handleAppendEntries lib s req).1.snapshot = s.snapshot := by
  rcases lt_or_ge req.term s.currentTerm with hlt | hge
  · rw [handleAppendEntries_stale hlt]
  · exact (handleAppendEntries_follower lib hge).2.2.2

/-- The state keeps its snapshot or takes the one of the request. -/
theorem handleInstallSnapshot_snapshot (lib : WireLib) (s : RaftState) (req : InstallSnapshotRequest) :
    (handleInstallSnapshot lib s req).1.snapshot = s.snapshot ∨
      (handleInstallSnapshot lib s req).1.snapshot = some (req.toSnapshot lib) := by
  rw [handleInstallSnapshot]
  split_ifs
  · exact .inl RaftState.adoptTerm_snapshot
  · simp only [RaftState.installSnapshot]
    split_ifs
    · exact .inl RaftState.adoptTerm_snapshot
    · exact .inr rfl

namespace RaftNode

variable {nd : RaftNode} {ev : Event} {eff : Effect}

theorem Keeps.handleInstallSnapshot (h : nd.Keeps P) (src : ℕ) {req : InstallSnapshotRequest}
    (hreq : P (req.toSnapshot lib)) : (nd.handleInstallSnapshot lib src req).node.Keeps P := by
  have hstate : ∀ snap ∈ (NomadLite.handleInstallSnapshot lib nd.state req).1.snapshot, P snap := by
    intro snap hsnap
    rcases handleInstallSnapshot_snapshot lib nd.state req with heq | heq
    · exact h.1 snap (heq ▸ hsnap)
    · rw [heq] at hsnap
      exact Option.some.inj hsnap ▸ hreq
  simp only [RaftNode.handleInstallSnapshot]
  split_ifs
  · exact ⟨hstate, hstate⟩
  · exact ⟨hstate, h.2⟩

theorem Keeps.compactLog (h : nd.Keeps P) {snap : Snapshot}
    (hsnap : nd.state.logOffset < snap.lastIncludedIndex → P snap) (c : Option Compaction) :
    RaftNode.Keeps P { nd with state := nd.state.compactLog snap, compaction := c } := by
  refine ⟨?_, h.2⟩
  change ∀ snap' ∈ (nd.state.compactLog snap).snapshot, P snap'
  rw [RaftState.compactLog]
  split_ifs with hle
  · exact h.1
  · intro snap' hsnap'
    exact Option.some.inj hsnap' ▸ hsnap (not_le.mp hle)

/-- Apart from the scheduler loop's own accesses a node only gets the snapshots it is sent. -/
theorem Transition.keeps (h : Transition lib nd ev eff) (hev : ev.isSchedulers = false)
    (hnd : nd.Keeps P)
    (hmsg : ∀ task src msg, ev = .deliver task src msg → msg.Carries lib P) :
    eff.node.Keeps P := by
  cases h with
  | voteRequest =>
    refine ⟨?_, hnd.2⟩
    change ∀ snap ∈ (handleRequestVote nd.state _).1.snapshot, P snap
    rw [handleRequestVote_snapshot]
    exact hnd.1
  | appendEntries =>
    refine ⟨?_, ?_⟩
    · rw [handleAppendEntries_state, handleAppendEntries_snapshot]
      exact hnd.1
    · simp only [RaftNode.handleAppendEntries]
      split_ifs <;> exact hnd.2
  | installSnapshot => exact hnd.handleInstallSnapshot _ (hmsg _ _ _ rfl)
  | appendCommitted hterm hrole hsuccess hs hmay =>
    subst hs
    exact hnd
  | @appendRejected _ src =>
    obtain ⟨nextIndex, hdecrement⟩ := nd.state.decrementNext_eq src
    rw [hdecrement]
    exact hnd
  | getCommittedEntries | beginCompaction | finishCompaction => cases hev
  | _ => exact hnd

theorem Transition.carries (h : Transition lib nd ev eff) (hnd : nd.Keeps P)
    (hwire : ∀ snap term leaderId, P snap → P ((snap.toRequest lib term leaderId).toSnapshot lib))
    {dst : ℕ} {msg : Message} (hsent : (dst, msg) ∈ eff.sent) : msg.Carries lib P := by
  cases h.sends hsent with
  | snapshot hsnap => exact hwire _ _ _ (hnd.1 _ hsnap)
  | _ => trivial

end RaftNode

namespace Cluster

variable {ids : List ℕ} {cl cl' : Cluster}

structure Keeps (lib : WireLib) (P : Snapshot → Prop) (cl : Cluster) : Prop where
  node : ∀ x, (cl.nodes x).Keeps P
  network : ∀ p ∈ cl.network, p.msg.Carries lib P

theorem Keeps.step (h : cl.Keeps lib P)
    (hwire : ∀ snap term leaderId, P snap → P ((snap.toRequest lib term leaderId).toSnapshot lib))
    {a : Action} (hev : a.event.isSchedulers = false) (hs : cl.step lib ids a = some cl') :
    cl'.Keeps lib P := by
  obtain ⟨eff, -, hpacket, hstep, rfl⟩ := step_eq_some hs
  have htr := RaftNode.transition_of_step hstep
  refine ⟨fun x => ?_, fun p hp => ?_⟩
  · by_cases hx : x = a.node
    · subst hx
      change RaftNode.Keeps P (Function.update cl.nodes a.node eff.node a.node)
      rw [Function.update_self]
      refine htr.keeps hev (h.node a.node) fun task src msg heq => ?_
      exact h.network _ (hpacket ⟨src, a.node, msg⟩ (by rw [heq]; rfl))
    · change RaftNode.Keeps P (Function.update cl.nodes a.node eff.node x)
      rw [Function.update_of_ne hx]
      exact h.node x
  · rcases List.mem_append.mp hp with hold | hnew
    · exact h.network p hold
    · obtain ⟨⟨dst, msg⟩, hmem, rfl⟩ := List.mem_map.mp hnew
      exact htr.carries (h.node a.node) hwire hmem

end Cluster
end NomadLite
