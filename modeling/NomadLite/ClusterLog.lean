import NomadLite.LogSimulation

/-!
# The cluster keeps a replicated log

Along every run in which at most one node is leader per term and whose steps meet
the conditions of the simulation, some view accounts for the whole cluster.
-/

namespace NomadLite

open ReplicatedLog

def Event.NoCompaction : Event → Prop
  | .beginCompaction | .finishCompaction .. => False
  | _ => True

/-- The append-only fragment: no compaction, and no snapshot is installed. -/
def Event.AppendOnly : Event → Prop
  | .deliver _ _ (.installSnapshot _) | .deliver _ _ (.snapshotReply ..) => False
  | .beginCompaction | .finishCompaction .. => False
  | _ => True

theorem Event.AppendOnly.noCompaction {ev : Event} (h : ev.AppendOnly) : ev.NoCompaction := by
  cases ev with
  | beginCompaction | finishCompaction => exact h.elim
  | deliver | electionTimeout | timeoutNowElection | voteFailed | finishElection | heartbeatTick
  | replicateTick | appendCommand | startTransfer | transferPoll | transferFailed
  | getCommittedEntries => trivial

instance : DecidablePred Event.NoCompaction
  | .beginCompaction | .finishCompaction .. => inferInstanceAs (Decidable False)
  | .deliver .. | .electionTimeout .. | .timeoutNowElection .. | .voteFailed ..
  | .finishElection .. | .heartbeatTick | .replicateTick | .appendCommand .. | .startTransfer ..
  | .transferPoll | .transferFailed | .getCommittedEntries => inferInstanceAs (Decidable True)

instance : DecidablePred Event.AppendOnly
  | .deliver _ _ (.installSnapshot _) | .deliver _ _ (.snapshotReply ..) | .beginCompaction
  | .finishCompaction .. => inferInstanceAs (Decidable False)
  | .deliver _ _ (.voteRequest _) | .deliver _ _ (.voteReply ..)
  | .deliver _ _ (.appendEntries ..) | .deliver _ _ (.appendReply ..)
  | .deliver _ _ (.timeoutNow _) | .deliver _ _ (.timeoutNowReply ..)
  | .electionTimeout .. | .timeoutNowElection .. | .voteFailed .. | .finishElection ..
  | .heartbeatTick | .replicateTick | .appendCommand .. | .startTransfer .. | .transferPoll
  | .transferFailed | .getCommittedEntries => inferInstanceAs (Decidable True)

namespace Cluster

variable {lib : WireLib} {strict : Prop} {ids : List ℕ} {cl cl' : Cluster} {a : Action}

def OneLeaderPerTerm (cl : Cluster) : Prop :=
  ∀ x y s s', (x, .becameLeader s) ∈ cl.history → (y, .becameLeader s') ∈ cl.history →
    s.currentTerm = s'.currentTerm → x = y

instance (cl : Cluster) : Decidable cl.OneLeaderPerTerm :=
  decidable_of_iff (∀ p ∈ cl.leaders, ∀ q ∈ cl.leaders, p.1 = q.1 → p.2 = q.2) <| by
    constructor
    · exact fun h x y s s' hx hy => h (s.currentTerm, x) (mem_leaders.mpr ⟨s, hx, rfl⟩)
        (s'.currentTerm, y) (mem_leaders.mpr ⟨s', hy, rfl⟩)
    · rintro h ⟨T, x⟩ hx ⟨T', y⟩ hy hterm
      obtain ⟨s, hs, rfl⟩ := mem_leaders.mp hx
      obtain ⟨s', hs', rfl⟩ := mem_leaders.mp hy
      exact h x y s s' hs hs' hterm

structure HasLogs (lib : WireLib) (strict : Prop) (ids : List ℕ) (g : LogView) (cl : Cluster) :
    Prop where
  sound : g.Sound strict ids
  linked : Linked ids (NodeLog lib strict ids g) (PacketLog lib strict ids g)
    (NoteLog lib strict ids g) cl
  won : ∀ T y, (T, y) ∈ g.won → ∃ s, (y, .becameLeader s) ∈ cl.history ∧ s.currentTerm = T

def KeepsLogs (lib : WireLib) (strict : Prop) (cl : Cluster) (a : Action) : Prop :=
  (cl.nodes a.node).KeepsTerm a.event ∧ (cl.nodes a.node).KeepsOffset a.event ∧
    (strict → (cl.nodes a.node).KeepsReported lib a.event)

theorem hasLogs_start (lib : WireLib) (strict : Prop) (ids : List ℕ) :
    HasLogs lib strict ids .start (start ids) where
  sound := LogView.sound_start strict ids
  linked := linked_start fun _ _ => ⟨rfl, rfl, rfl, rfl, .start lib, fun _ h => h.elim, nofun,
    fun _ => ⟨fun _ he => absurd he List.not_mem_nil, fun _ he => absurd he List.not_mem_nil,
      fun _ _ _ he => absurd he List.not_mem_nil⟩⟩
  won _ _ h := h.elim

theorem HasLogs.step {g : LogView} (hids : ids.Nodup) (h : HasLogs lib strict ids g cl)
    (hone : cl'.OneLeaderPerTerm) (hcond : cl.KeepsLogs lib strict a)
    (hs : cl.step lib ids a = some cl') :
    ∃ eff g', (cl.nodes a.node).step lib a.event = some eff ∧ cl' = cl.apply a.node eff ∧
      Simulates lib strict ids g a.node eff g' ∧ HasLogs lib strict ids g' cl' := by
  obtain ⟨eff, hx, hpacket, hstep, rfl⟩ := step_eq_some hs
  obtain ⟨hterm, hoff, hrep⟩ := hcond
  obtain ⟨g', hsim⟩ := (h.linked.node _ hx).simulates h.sound hids hx
    (RaftNode.transition_of_step hstep) (fun p hp => h.linked.packet p (hpacket p hp)) hterm hoff hrep
    fun s hnote y hy => by
      obtain ⟨s', hs', hterm⟩ := h.won _ y hy
      exact hone y a.node s' s (List.mem_append_left _ hs')
        (List.mem_append_right _ (List.mem_map_of_mem hnote)) hterm
  refine ⟨eff, g', hstep, rfl, hsim, hsim.sound, h.linked.apply
    (fun y _ hne hy => hy.of_ne hsim.step hsim.sound hne) (fun p _ hp => hp.extends hsim.step)
    (fun y n _ hn => hn.extends hsim.step) hsim.node hsim.sent hsim.notes, fun T y hy => ?_⟩
  have hold : (T, y) ∈ g.won → ∃ s, (y, .becameLeader s) ∈ (cl.apply a.node eff).history ∧
      s.currentTerm = T := fun hmem => by
    obtain ⟨s, hs, hT⟩ := h.won T y hmem
    exact ⟨s, List.mem_append_left _ hs, hT⟩
  by_cases hya : y = a.node
  · subst hya
    rcases hsim.won_noted T hy with hmem | ⟨s, hnote, hT⟩
    · exact hold hmem
    · exact ⟨s, List.mem_append_right _ (List.mem_map_of_mem hnote), hT⟩
  · exact hold (hsim.step.won_own T y hy hya)

/-- What one leader per term says of a state holds of the states before it. -/
theorem OneLeaderPerTerm.of_step (hone : cl'.OneLeaderPerTerm)
    (hs : cl.step lib ids a = some cl') : cl.OneLeaderPerTerm := by
  obtain ⟨eff, -, -, -, rfl⟩ := step_eq_some hs
  exact fun x y s s' hx hy =>
    hone x y s s' (List.mem_append_left _ hx) (List.mem_append_left _ hy)

theorem exists_hasLogs (strict : Prop) (hids : ids.Nodup)
    (h : Runs.Reach (step lib ids) (KeepsLogs lib strict) (start ids) cl)
    (hone : cl.OneLeaderPerTerm) : ∃ g, HasLogs lib strict ids g cl := by
  revert hone
  refine h.invariant (P := fun cl => cl.OneLeaderPerTerm → ∃ g, HasLogs lib strict ids g cl)
    (fun _ => ⟨_, hasLogs_start lib strict ids⟩) fun hP hcond hs hone => ?_
  obtain ⟨g, hg⟩ := hP (hone.of_step hs)
  obtain ⟨-, g', -, -, -, hg'⟩ := hg.step hids hone hcond hs
  exact ⟨g', hg'⟩

end Cluster

/-! ### Without compaction -/

def Message.IsSnapshot : Message → Prop
  | .installSnapshot _ | .snapshotReply .. => True
  | _ => False

theorem RaftNode.Transition.offset_eq {lib : WireLib} {nd : RaftNode} {ev : Event} {eff : Effect}
    (h : Transition lib nd ev eff) (hev : ev.AppendOnly) :
    eff.node.state.logOffset = nd.state.logOffset ∧
      eff.node.state.snapshot = nd.state.snapshot := by
  cases h with
  | installSnapshot | snapshotStepDown | snapshotMatched | beginCompaction | finishCompaction =>
    exact hev.elim
  | @voteRequest _ src req =>
    rcases handleRequestVote_cases nd.state req with hrefused | ⟨-, -, -, hgranted⟩
    · rw [handleVoteRequest, hrefused]
      exact ⟨RaftState.adoptTerm_logOffset, RaftState.adoptTerm_snapshot⟩
    · rw [handleVoteRequest, hgranted]
      exact ⟨RaftState.adoptTerm_logOffset, RaftState.adoptTerm_snapshot⟩
  | @appendEntries _ src kind req =>
    rw [handleAppendEntries_state]
    rcases lt_or_ge req.term nd.state.currentTerm with hlt | hge
    · rw [handleAppendEntries_stale hlt]
      exact ⟨rfl, rfl⟩
    · exact (handleAppendEntries_follower lib hge).2.2
  | appendCommitted hterm hrole hsuccess hs hmay =>
    subst hs
    exact ⟨rfl, rfl⟩
  | @appendRejected _ src =>
    obtain ⟨nextIndex, hdecrement⟩ := nd.state.decrementNext_eq src
    rw [hdecrement]
    exact ⟨rfl, rfl⟩
  | voteStepDown | voteCounted | heartbeatStepDown | heartbeatIgnored | appendStepDown
  | appendMatched | appendIgnored | timeoutNowRefused | timeoutNowTaken | transferDone
  | transferRefused | electionTimeout | timeoutNowElection | voteFailed | electionWon
  | electionLost | heartbeatTick | replicateTick | appendCommand | startTransfer | transferPoll
  | transferFailed | getCommittedEntries => exact ⟨rfl, rfl⟩

theorem RaftNode.Transition.not_isSnapshot {lib : WireLib} {nd : RaftNode} {ev : Event}
    {eff : Effect} (h : Transition lib nd ev eff) (hev : ev.AppendOnly)
    (hsnap : nd.state.snapshot = none) : ∀ dst msg, (dst, msg) ∈ eff.sent → ¬ msg.IsSnapshot := by
  intro dst msg hm
  cases h.sends hm with
  | snapshot hsome =>
    rw [hsnap] at hsome
    cases hsome
  | snapshotReply heq =>
    rw [heq] at hev
    exact hev.elim
  | _ => exact not_false

namespace Cluster

variable {lib : WireLib} {ids : List ℕ} {cl cl' : Cluster} {a : Action}

def Uncompacted (ids : List ℕ) (cl : Cluster) : Prop :=
  Linked ids (fun _ nd => nd.state.logOffset = 0 ∧ nd.state.snapshot = none)
    (fun p => ¬ p.msg.IsSnapshot) (fun _ _ => True) cl

theorem Uncompacted.offset (h : cl.Uncompacted ids) {x : ℕ} (hx : x ∈ ids) :
    (cl.nodes x).state.logOffset = 0 := (h.node x hx).1

theorem Uncompacted.step (h : cl.Uncompacted ids) (hev : a.event.AppendOnly)
    (hs : cl.step lib ids a = some cl') : cl'.Uncompacted ids := by
  obtain ⟨eff, hx, -, hstep, rfl⟩ := step_eq_some hs
  have htr := RaftNode.transition_of_step hstep
  obtain ⟨hoff, hsnap⟩ := htr.offset_eq hev
  obtain ⟨hzero, hnone⟩ := h.node _ hx
  exact h.apply (fun _ _ _ hy => hy) (fun _ _ hp => hp) (fun _ _ _ _ => trivial)
    ⟨hoff.trans hzero, hsnap.trans hnone⟩ (htr.not_isSnapshot hev hnone) fun _ _ => trivial

/-- A log that starts at index 1 has no compacted part to reach into. -/
theorem Uncompacted.keepsOffset (h : cl.Uncompacted ids) (hx : a.node ∈ ids)
    (hev : a.event.AppendOnly) : (cl.nodes a.node).KeepsOffset a.event := by
  obtain ⟨x, ev⟩ := a
  cases ev with
  | deliver task src msg =>
    cases msg with
    | appendEntries kind req =>
      intro _ _
      rw [h.offset hx]
      exact Nat.zero_le _
    | installSnapshot | snapshotReply => exact hev.elim
    | voteRequest | voteReply | appendReply | timeoutNow | timeoutNowReply => trivial
  | finishCompaction => exact hev.elim
  | electionTimeout | timeoutNowElection | voteFailed | finishElection | heartbeatTick
  | replicateTick | appendCommand | startTransfer | transferPoll | transferFailed
  | getCommittedEntries | beginCompaction => trivial

theorem Uncompacted.appendOnly (h : cl.Uncompacted ids) (hev : a.event.NoCompaction)
    (hs : cl.step lib ids a = some cl') : a.event.AppendOnly := by
  obtain ⟨-, -, hpacket, -⟩ := step_eq_some hs
  obtain ⟨x, ev⟩ := a
  cases ev with
  | deliver task src msg =>
    have hmsg := h.packet _ (hpacket _ rfl)
    cases msg with
    | installSnapshot | snapshotReply => exact hmsg trivial
    | voteRequest | voteReply | appendEntries | appendReply | timeoutNow | timeoutNowReply =>
      trivial
  | beginCompaction | finishCompaction => exact hev.elim
  | electionTimeout | timeoutNowElection | voteFailed | finishElection | heartbeatTick
  | replicateTick | appendCommand | startTransfer | transferPoll | transferFailed
  | getCommittedEntries => trivial

theorem reach_uncompacted {Q : Cluster → Action → Prop}
    (h : Runs.Reach (Cluster.step lib ids) (fun cl a => a.event.NoCompaction ∧ Q cl a)
      (start ids) cl) :
    Runs.Reach (Cluster.step lib ids) (fun cl a => a.event.AppendOnly ∧
        (cl.nodes a.node).KeepsOffset a.event ∧ Q cl a) (start ids) cl ∧ cl.Uncompacted ids := by
  induction h with
  | init => exact ⟨.init, linked_start fun _ _ => ⟨rfl, rfl⟩⟩
  | next _ hq hs ih =>
    obtain ⟨hreach, hzero⟩ := ih
    have hev := hzero.appendOnly hq.1 hs
    obtain ⟨-, hx, -⟩ := step_eq_some hs
    exact ⟨hreach.next ⟨hev, hzero.keepsOffset hx hev, hq.2⟩ hs, hzero.step hev hs⟩

end Cluster
end NomadLite
