import NomadLite.ClusterRestart

/-!
# The cluster and its disks

Every node of the cluster has a disk of its own, to which a step writes by the recipe of
the operation it runs. A process can stop after any number of these writes. It has then
sent nothing of the step and comes back with what the disk holds. The entry of an
`AppendCommand` is put after the lock has been released, so that other steps of the node
can come first. As long as every step has made its writes before the next one, a restart
from disk is the restart of `ClusterRestart`.
-/

namespace NomadLite

def Message.durableOp (src : ℕ) : Message → Option DurableOp
  | .voteRequest req => some (.handleVoteRequest req)
  | .voteReply req resp => if req.term < resp.term then some (.stepDown resp.term) else none
  | .appendEntries _ req => some (.handleAppendEntries req)
  | .appendReply .heartbeat req resp =>
    if req.term < resp.term then some (.stepDown resp.term) else none
  | .appendReply .replication _ resp => some (.handleAppendReply src resp)
  | .installSnapshot req => some (.handleInstallSnapshot req)
  | .snapshotReply req resp => some (.handleSnapshotReply src req.lastIncludedIndex resp)
  | .timeoutNow _ => none
  | .timeoutNowReply req resp => if resp.success then some (.stepDown req.term) else none

namespace RaftNode

/-- The operation that an event runs on the state, if it touches the state at all. -/
def durableOp (nd : RaftNode) : Event → Option DurableOp
  | .deliver _ src msg => msg.durableOp src
  | .electionTimeout _ | .timeoutNowElection .. => some (.startElection nd.id)
  | .finishElection task => nd.elections[task]?.map fun election =>
      .finishElection nd.id nd.peers election.request.term election.voteCount
  | .appendCommand command => some (.handleAppendCommand command)
  | .getCommittedEntries => some .getCommittedEntries
  | .finishCompaction jobs workers => nd.compaction.map fun c =>
      .maybeCompactLog c.lastApplied c.lastAppliedTerm jobs workers
  | .voteFailed _ | .heartbeatTick | .replicateTick | .startTransfer .. | .transferPoll
  | .transferFailed | .beginCompaction => none

def diskWrites (lib : WireLib) (nd : RaftNode) (d : Disk) (ev : Event) : List DiskWrite :=
  ((nd.durableOp ev).map fun op => op.writes lib nd.state d).getD []

def stateAfter (lib : WireLib) (nd : RaftNode) (ev : Event) : RaftState :=
  ((nd.durableOp ev).map fun op => op.exec lib nd.state).getD nd.state

end RaftNode

structure StoredCluster where
  cluster : Cluster
  disks : ℕ → Disk
  pending : ℕ → Option LogEntry

/-- `beginAppend` and `finishAppend` are the two halves of `handle_append_command`, and `stop` ends
the process after some of the writes of a step. -/
inductive StoredAction where
  | act (a : Action)
  | beginAppend (x : ℕ) (command : Command)
  | finishAppend (x : ℕ)
  | stop (a : Action) (writes : ℕ)
  | restart (x : ℕ)
deriving DecidableEq

namespace StoredCluster

def start (ids : List ℕ) : StoredCluster := ⟨.start ids, fun _ => .empty, fun _ => none⟩

def revive (sc : StoredCluster) (x : ℕ) (d : Disk) : StoredCluster where
  cluster := sc.cluster.apply x
    ⟨.newWithStorage (sc.cluster.nodes x).id (sc.cluster.nodes x).peers d.load, [], []⟩
  disks := Function.update sc.disks x d
  pending := Function.update sc.pending x none

def writes (lib : WireLib) (sc : StoredCluster) (a : Action) : List DiskWrite :=
  (sc.cluster.nodes a.node).diskWrites lib (sc.disks a.node) a.event

def step (lib : WireLib) (ids : List ℕ) (sc : StoredCluster) : StoredAction → Option StoredCluster
  | .act a => (sc.cluster.step lib ids a).map fun cl =>
      { sc with
        cluster := cl
        disks := Function.update sc.disks a.node
          ((sc.disks a.node).writeAll (sc.writes lib a)) }
  | .beginAppend x command =>
    if sc.pending x = none then
      (sc.cluster.step lib ids ⟨x, .appendCommand command⟩).map fun cl =>
        { sc with
          cluster := cl
          pending := Function.update sc.pending x
            (some ((sc.cluster.nodes x).state.newEntry command)) }
    else none
  | .finishAppend x => (sc.pending x).map fun entry =>
      { sc with
        disks := Function.update sc.disks x ((sc.disks x).writeAll (Disk.appendEntry entry))
        pending := Function.update sc.pending x none }
  | .stop a writes => (sc.cluster.step lib ids a).map fun _ =>
      sc.revive a.node ((sc.disks a.node).writeAll ((sc.writes lib a).take writes))
  | .restart x => if x ∈ ids then some (sc.revive x (sc.disks x)) else none

def Fits (sc : StoredCluster) (a : Action) : Prop :=
  ∀ op ∈ (sc.cluster.nodes a.node).durableOp a.event, op.Fits (sc.cluster.nodes a.node).state

instance (sc : StoredCluster) (a : Action) : Decidable (sc.Fits a) :=
  inferInstanceAs (Decidable (∀ op ∈ (sc.cluster.nodes a.node).durableOp a.event, _))

end StoredCluster

namespace StoredAction

/-- The condition is asked of every step that begins, also of one that is cut short. -/
def Meets (Q : Cluster → Action → Prop) (sc : StoredCluster) : StoredAction → Prop
  | .act a | .stop a _ => Q sc.cluster a ∧ sc.Fits a
  | .beginAppend x command =>
    Q sc.cluster ⟨x, .appendCommand command⟩ ∧ sc.Fits ⟨x, .appendCommand command⟩
  | .finishAppend _ | .restart _ => True

/-- Every step makes all its writes before the node takes another one or stops. -/
def Whole (Q : Cluster → Action → Prop) (sc : StoredCluster) : StoredAction → Prop
  | .act a => Q sc.cluster a ∧ sc.Fits a
  | .restart _ => True
  | .beginAppend .. | .finishAppend _ | .stop .. => False

def Acts (Q : Cluster → Action → Prop) (sc : StoredCluster) : StoredAction → Prop
  | .act a => Q sc.cluster a
  | .beginAppend .. | .finishAppend _ | .stop .. | .restart _ => False

variable (Q : Cluster → Action → Prop) [∀ cl a, Decidable (Q cl a)]

instance (sc : StoredCluster) : (sa : StoredAction) → Decidable (sa.Meets Q sc)
  | .act a | .stop a _ => inferInstanceAs (Decidable (Q sc.cluster a ∧ sc.Fits a))
  | .beginAppend x command => inferInstanceAs (Decidable
      (Q sc.cluster ⟨x, .appendCommand command⟩ ∧ sc.Fits ⟨x, .appendCommand command⟩))
  | .finishAppend _ | .restart _ => isTrue trivial

instance (sc : StoredCluster) : (sa : StoredAction) → Decidable (sa.Whole Q sc)
  | .act a => inferInstanceAs (Decidable (Q sc.cluster a ∧ sc.Fits a))
  | .restart _ => isTrue trivial
  | .beginAppend .. | .finishAppend _ | .stop .. => isFalse id

end StoredAction

/-! ### A step and its operation -/

theorem DurableOp.lastApplied_le (lib : WireLib) (s : RaftState) (op : DurableOp) :
    s.lastApplied ≤ (op.exec lib s).lastApplied := by
  have hadopt : ∀ term, s.lastApplied ≤ (s.adoptTerm term).lastApplied := fun _ =>
    RaftState.adoptTerm_lastApplied.ge
  cases op with
  | handleVoteRequest req =>
    rcases handleRequestVote_cases s req with h | ⟨-, -, -, h⟩ <;> rw [exec, h] <;>
      exact hadopt req.term
  | handleAppendEntries req =>
    rcases lt_or_ge req.term s.currentTerm with hlt | hge
    · rw [exec, handleAppendEntries_stale hlt]
    · obtain ⟨log, commitIndex, heq⟩ := handleAppendEntries_eq_setLog lib hge
      rw [exec, heq]
      change _ ≤ (s.follow req.term req.leaderId).lastApplied
      rw [RaftState.follow_lastApplied]
  | handleInstallSnapshot req =>
    simp only [exec, NomadLite.handleInstallSnapshot, RaftState.installSnapshot]
    split_ifs
    · exact hadopt req.term
    · exact hadopt req.term
    · exact (hadopt req.term).trans (le_max_left _ _)
  | handleAppendCommand command =>
    rw [exec]
    split_ifs <;> exact le_rfl
  | finishElection myId peerIds term voteCount =>
    simp only [exec, RaftState.finishElection]
    split_ifs <;> exact le_rfl
  | handleAppendReply peer resp =>
    simp only [exec, RaftState.handleAppendReply]
    split_ifs
    · exact le_rfl
    · exact le_rfl
    · exact le_rfl
    · obtain ⟨nextIndex, hdecrement⟩ := s.decrementNext_eq peer
      rw [hdecrement]
    · exact le_rfl
  | handleSnapshotReply peer lastIncludedIndex resp =>
    rw [exec, RaftState.handleSnapshotReply]
    split_ifs <;> exact le_rfl
  | getCommittedEntries => exact le_max_left _ _
  | maybeCompactLog lastApplied lastAppliedTerm jobs workers =>
    obtain ⟨log, logOffset, snapshot, hcompact⟩ :=
      s.compactLog_eq ⟨lastApplied, lastAppliedTerm, jobs, workers⟩
    rw [exec, hcompact]
  | startElection myId | stepDown term => exact le_rfl

namespace RaftNode

variable {lib : WireLib} {nd : RaftNode} {ev : Event} {eff : Effect}

theorem handleAppendReply_state (nd : RaftNode) (peer : ℕ) (resp : AppendEntriesResponse) :
    (nd.handleAppendReply peer resp).node.state = nd.state.handleAppendReply peer resp := by
  simp only [handleAppendReply, RaftState.handleAppendReply]
  split_ifs <;> rfl

theorem state_of_finishElection {task : ℕ} (h : nd.finishElection task = some eff) :
    ∃ e, nd.elections[task]? = some e ∧
      eff.node.state = nd.state.finishElection nd.id nd.peers e.request.term e.voteCount := by
  rw [finishElection] at h
  cases he : nd.elections[task]? with
  | none =>
    rw [he] at h
    cases h
  | some e =>
    simp only [he] at h
    refine ⟨e, rfl, ?_⟩
    rw [RaftState.finishElection]
    split_ifs at h with hdone hcur hmaj
    · obtain rfl := Option.some.inj h
      rw [if_pos hcur]
      exact (if_pos hmaj).symm
    · obtain rfl := Option.some.inj h
      rw [if_pos hcur]
      exact (if_neg hmaj).symm
    · obtain rfl := Option.some.inj h
      rw [if_neg hcur]
      rfl

/-- A step changes the state by the operation of its event. -/
theorem state_of_step (h : nd.step lib ev = some eff) :
    eff.node.state = nd.stateAfter lib ev := by
  have hdown : ∀ {p : Prop} [Decidable p] {t : ℕ}, p → nd.state.becomeFollower t =
      ((if p then some (DurableOp.stepDown t) else none).map fun op =>
        op.exec lib nd.state).getD nd.state := fun hp => by rw [if_pos hp]; rfl
  have hkeep : ∀ {p : Prop} [Decidable p] {t : ℕ}, ¬ p → nd.state =
      ((if p then some (DurableOp.stepDown t) else none).map fun op =>
        op.exec lib nd.state).getD nd.state := fun hp => by rw [if_neg hp]; rfl
  cases transition_of_step h with
  | voteStepDown _ _ _ hterm | heartbeatStepDown hterm => exact hdown hterm
  | voteCounted _ _ _ hterm | heartbeatIgnored hterm => exact hkeep hterm.not_gt
  | transferDone _ _ _ hreq hsuccess =>
    subst hreq
    exact hdown hsuccess
  | transferRefused hsuccess => exact hkeep hsuccess
  | appendEntries => exact nd.handleAppendEntries_state _ _ _
  | installSnapshot => exact nd.handleInstallSnapshot_state _ _
  | appendStepDown | appendCommitted | appendMatched | appendRejected | appendIgnored =>
    rw [← Option.some.inj h]
    exact nd.handleAppendReply_state _ _
  | snapshotStepDown hterm => exact (if_pos hterm).symm
  | snapshotMatched hterm => exact (if_neg hterm.not_gt).symm
  | electionWon | electionLost =>
    obtain ⟨e, he, hstate⟩ := state_of_finishElection h
    rw [hstate, stateAfter, durableOp, he]
    rfl
  | appendCommand hrole => exact (if_pos hrole).symm
  | finishCompaction hc =>
    rw [stateAfter, durableOp, hc]
    rfl
  | voteRequest | timeoutNowRefused | timeoutNowTaken | electionTimeout | timeoutNowElection
  | voteFailed | heartbeatTick | replicateTick | startTransfer | transferPoll | transferFailed
  | getCommittedEntries | beginCompaction => rfl

/-- The index and the term that `maybe_compact_log` has read are kept while the queue and the
workers are collected. -/
theorem compaction_of_step (h : nd.step lib ev = some eff) {c : Compaction}
    (hc : eff.node.compaction = some c) :
    nd.compaction = some c ∨ (c.lastApplied = nd.state.lastApplied ∧ c.lastApplied ≠ 0) := by
  cases transition_of_step h with
  | beginCompaction c' =>
    have hbegin : nd.beginCompaction = some ⟨{ nd with compaction := some c' }, [], []⟩ := h
    rw [RaftNode.beginCompaction] at hbegin
    split_ifs at hbegin with hguard
    obtain rfl : _ = c := Option.some.inj
      ((congrArg (fun e => e.node.compaction) (Option.some.inj hbegin)).trans hc)
    exact .inr ⟨rfl, hguard.2.2⟩
  | finishCompaction => cases hc
  | appendEntries =>
    refine .inl (Eq.trans ?_ hc)
    simp only [RaftNode.handleAppendEntries]
    split_ifs <;> rfl
  | installSnapshot =>
    refine .inl (Eq.trans ?_ hc)
    simp only [RaftNode.handleInstallSnapshot]
    split_ifs <;> rfl
  | _ => exact .inl hc

end RaftNode

theorem Message.enabled_durableOp {src : ℕ} {msg : Message} {op : DurableOp} (s : RaftState)
    (h : msg.durableOp src = some op) : op.Enabled s := by
  have hdown : ∀ {p : Prop} [Decidable p] {t : ℕ},
      (if p then some (DurableOp.stepDown t) else none) = some op → op.Enabled s := fun hop => by
    split_ifs at hop
    obtain rfl := Option.some.inj hop
    trivial
  cases msg with
  | voteReply | timeoutNowReply => exact hdown h
  | appendReply kind =>
    cases kind with
    | heartbeat => exact hdown h
    | replication =>
      obtain rfl := Option.some.inj h
      trivial
  | timeoutNow => cases h
  | voteRequest | appendEntries | installSnapshot | snapshotReply =>
    obtain rfl := Option.some.inj h
    trivial

structure RaftNode.Stored (nd : RaftNode) (d : Disk) : Prop where
  kept : DurableNode.Kept ⟨nd.state, d⟩
  captured : ∀ c, nd.compaction = some c → c.lastApplied ≠ 0 ∧ c.lastApplied ≤ nd.state.lastApplied

namespace RaftNode.Stored

variable {lib : WireLib} {nd : RaftNode} {d : Disk} {ev : Event} {eff : Effect}

theorem enabled (h : nd.Stored d) {op : DurableOp} (hop : nd.durableOp ev = some op) :
    op.Enabled nd.state := by
  cases ev with
  | deliver task src msg => exact msg.enabled_durableOp nd.state hop
  | finishElection task =>
    obtain ⟨e, -, rfl⟩ := Option.map_eq_some_iff.mp hop
    trivial
  | finishCompaction jobs workers =>
    obtain ⟨c, hc, rfl⟩ := Option.map_eq_some_iff.mp hop
    exact h.captured c hc
  | electionTimeout | timeoutNowElection | appendCommand | getCommittedEntries =>
    obtain rfl := Option.some.inj hop
    trivial
  | voteFailed | heartbeatTick | replicateTick | startTransfer | transferPoll | transferFailed
  | beginCompaction => cases hop

/-- A step of a node is a completed operation of the node with its disk, or it leaves both as they
are. -/
theorem step (h : nd.Stored d) (hal : nd.state.Aligned) (hstep : nd.step lib ev = some eff)
    (hal' : eff.node.state.Aligned) : eff.node.Stored (d.writeAll (nd.diskWrites lib d ev)) := by
  have hstate := state_of_step hstep
  have hle : nd.state.lastApplied ≤ eff.node.state.lastApplied := by
    rw [hstate, stateAfter]
    cases nd.durableOp ev with
    | none => exact le_rfl
    | some op => exact op.lastApplied_le lib nd.state
  refine ⟨?_, fun c hc => ?_⟩
  · cases hop : nd.durableOp ev with
    | none =>
      rw [stateAfter, hop] at hstate
      rw [diskWrites, hop]
      exact hstate ▸ h.kept
    | some op =>
      rw [stateAfter, hop] at hstate
      rw [diskWrites, hop]
      have hdurable : DurableNode.step lib ⟨nd.state, d⟩ op =
          some ⟨eff.node.state, d.writeAll (op.writes lib nd.state d)⟩ := by
        rw [DurableNode.step, if_pos (h.enabled hop), hstate]
        rfl
      exact h.kept.step hal hdurable hal'
  · rcases compaction_of_step hstep hc with hold | ⟨hlast, hne⟩
    · exact ⟨(h.captured c hold).1, (h.captured c hold).2.trans hle⟩
    · exact ⟨hne, hlast.le.trans hle⟩

theorem new (id : ℕ) (peers : List ℕ) : (RaftNode.new id peers).Stored .empty where
  kept := .inl fresh_new
  captured c hc := by cases hc

theorem newWithStorage_eq (h : nd.Stored d) :
    RaftNode.newWithStorage nd.id nd.peers d.load = nd.restarted := by
  simp only [RaftNode.restarted, RaftNode.newWithStorage, h.kept.newWithStorage_load]

theorem restarted (h : nd.Stored d) : nd.restarted.Stored d where
  kept := by
    rcases h.kept with hf | hm
    · obtain ⟨-, -, -, hsnap, -⟩ := PersistedState.mk.inj hf.persisted
      have hzero : (nd.state.snapshot.map Snapshot.lastIncludedIndex).getD 0 = 0 := by
        rw [hsnap]
        rfl
      exact .inl ⟨hf.disk, hf.persisted, rfl, hzero, hzero⟩
    · exact .inr (hm.of_persisted rfl)
  captured c hc := by cases hc

end RaftNode.Stored

/-! ### Runs with whole operations -/

namespace StoredCluster

variable {lib : WireLib} {ids : List ℕ} {sc sc' : StoredCluster} {a : Action} {x : ℕ}

def Stored (ids : List ℕ) (sc : StoredCluster) : Prop :=
  ∀ x ∈ ids, (sc.cluster.nodes x).Stored (sc.disks x)

def Aligned (ids : List ℕ) (cl : Cluster) : Prop := ∀ x ∈ ids, (cl.nodes x).state.Aligned

theorem stored_start (ids : List ℕ) : (start ids).Stored ids := fun _ _ => .new _ _

theorem eq_of_act (hs : sc.step lib ids (.act a) = some sc') :
    ∃ cl, sc.cluster.step lib ids a = some cl ∧ sc' =
      { sc with
        cluster := cl
        disks := Function.update sc.disks a.node
          ((sc.disks a.node).writeAll (sc.writes lib a)) } := by
  obtain ⟨cl, hcl, rfl⟩ := Option.map_eq_some_iff.mp hs
  exact ⟨cl, hcl, rfl⟩

theorem eq_of_restart (hs : sc.step lib ids (.restart x) = some sc') :
    x ∈ ids ∧ sc' = sc.revive x (sc.disks x) := by
  rw [step] at hs
  split_ifs at hs with hx
  exact ⟨hx, (Option.some.inj hs).symm⟩

theorem Stored.act (h : sc.Stored ids) (hs : sc.step lib ids (.act a) = some sc')
    (hal : Aligned ids sc.cluster) (hal' : Aligned ids sc'.cluster) : sc'.Stored ids := by
  obtain ⟨cl, hcl, rfl⟩ := eq_of_act hs
  obtain ⟨eff, hx, -, hstep, rfl⟩ := Cluster.step_eq_some hcl
  have hself := hal' a.node hx
  simp only [Cluster.apply_nodes] at hself
  intro y hy
  by_cases hya : y = a.node
  · subst hya
    simp only [Cluster.apply_nodes, Function.update_self]
    exact (h _ hx).step (hal _ hx) hstep hself
  · simp only [Cluster.apply, Function.update_of_ne hya]
    exact h y hy

theorem Stored.cluster_revive (h : sc.Stored ids) (hx : x ∈ ids) :
    (sc.revive x (sc.disks x)).cluster = sc.cluster.restart x := by
  rw [revive, (h x hx).newWithStorage_eq]
  rfl

theorem Stored.revive (h : sc.Stored ids) (hx : x ∈ ids) :
    (sc.revive x (sc.disks x)).Stored ids := by
  intro y hy
  rw [h.cluster_revive hx]
  by_cases hyx : y = x
  · subst hyx
    simp only [StoredCluster.revive, Cluster.restart, Cluster.apply_nodes, Function.update_self]
    exact (h y hy).restarted
  · simp only [StoredCluster.revive, Cluster.restart, Cluster.apply, Function.update_of_ne hyx]
    exact h y hy

/-- Seen without the disks, a run in which every step makes all its writes is a run with restarts
from memory, and the disks are up to date all along. -/
theorem faulty_of_whole {Q : Cluster → Action → Prop}
    (hal : ∀ {cl}, Runs.Reach (Cluster.faultyStep lib ids) (FaultyAction.Meets Q)
      (Cluster.start ids) cl → Aligned ids cl)
    (h : Runs.Reach (step lib ids) (StoredAction.Whole Q) (start ids) sc) :
    Runs.Reach (Cluster.faultyStep lib ids) (FaultyAction.Meets Q) (Cluster.start ids)
        sc.cluster ∧ sc.Stored ids := by
  refine h.invariant (P := fun sc => Runs.Reach (Cluster.faultyStep lib ids) (FaultyAction.Meets Q)
    (Cluster.start ids) sc.cluster ∧ sc.Stored ids) ⟨.init, stored_start ids⟩
    fun {sc sc' sa} hP hq hs => ?_
  obtain ⟨hreach, hstored⟩ := hP
  cases sa with
  | act a =>
    obtain ⟨cl, hcl, hsc⟩ := eq_of_act hs
    have hreach' : Runs.Reach (Cluster.faultyStep lib ids) (FaultyAction.Meets Q)
        (Cluster.start ids) sc'.cluster := by
      rw [hsc]
      exact hreach.next (a := .act a) hq.1 hcl
    exact ⟨hreach', hstored.act hs (hal hreach) (hal hreach')⟩
  | restart x =>
    obtain ⟨hx, rfl⟩ := eq_of_restart hs
    refine ⟨?_, hstored.revive hx⟩
    rw [hstored.cluster_revive hx]
    exact hreach.next (a := .restart x) trivial (if_pos hx)
  | beginAppend | finishAppend | stop => exact hq.elim

/-- The disks do not stand in the way of a run of the cluster. -/
theorem exists_reach_acts {Q : Cluster → Action → Prop} {cl : Cluster}
    (h : Runs.Reach (Cluster.step lib ids) Q sc.cluster cl) :
    ∃ sc', Runs.Reach (step lib ids) (StoredAction.Acts Q) sc sc' ∧ sc'.cluster = cl := by
  refine h.invariant (P := fun cl => ∃ sc',
    Runs.Reach (step lib ids) (StoredAction.Acts Q) sc sc' ∧ sc'.cluster = cl)
    ⟨sc, .init, rfl⟩ fun {cl cl' a} hP hq hs => ?_
  obtain ⟨sc', hreach, rfl⟩ := hP
  have hact : sc'.step lib ids (.act a) = some
      { sc' with
        cluster := cl'
        disks := Function.update sc'.disks a.node
          ((sc'.disks a.node).writeAll (sc'.writes lib a)) } := by
    rw [step, hs]
    rfl
  exact ⟨_, hreach.next (a := .act a) hq hact, rfl⟩

end StoredCluster
end NomadLite
