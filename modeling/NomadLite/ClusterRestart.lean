import NomadLite.DiskMirror
import NomadLite.LeaderCompleteness
import NomadLite.LeaderTerms
import NomadLite.StateMachineSafety

/-!
# Nodes that stop and start again

A node whose disk mirrors its memory comes back with the term, the vote, the log and
the snapshot it had. Its role, its running elections and transfers and what it knew of
its peers are gone, and its commit index falls back to the snapshot. Everything it has
sent stays in the network. In the ballots such a node has resigned, and in the
replicated log nothing has changed. The disks themselves, and the stops that leave
something else on them, are the subject of `StoredCluster`.
-/

namespace NomadLite

open MajorityElection ReplicatedLog

/-- What `new_with_storage` and `restore_snapshot_for_scheduler` make of the stored state. -/
def RaftNode.newWithStorage (id : ℕ) (peers : List ℕ) (stored : Option PersistedState) :
    RaftNode :=
  let s := RaftState.newWithStorage stored
  { RaftNode.new id peers with
    state := s
    pendingSnapshot := s.snapshot
    commitNotify := if s.snapshot.isSome then 1 else 0 }

/-- The node as it comes back when everything durable in memory is on disk. -/
def RaftNode.restarted (nd : RaftNode) : RaftNode :=
  .newWithStorage nd.id nd.peers (some nd.state.persisted)

/-- After every completed operation the disk brings back what is stored of the state in memory. -/
theorem DurableNode.Kept.newWithStorage_load {nd : DurableNode} (h : nd.Kept) :
    RaftState.newWithStorage nd.disk.load =
      RaftState.newWithStorage (some nd.state.persisted) := by
  rcases h with hf | hm
  · rw [hf.disk, hf.persisted]
    rfl
  · rw [hm.load]

inductive FaultyAction where
  | act (a : Action)
  | restart (x : ℕ)
deriving DecidableEq

/-- The condition is asked of the steps and not of the restarts. -/
def FaultyAction.Meets (Q : Cluster → Action → Prop) (cl : Cluster) : FaultyAction → Prop
  | .act a => Q cl a
  | .restart _ => True

instance (Q : Cluster → Action → Prop) [∀ cl a, Decidable (Q cl a)] (cl : Cluster) :
    (fa : FaultyAction) → Decidable (fa.Meets Q cl)
  | .act a => inferInstanceAs (Decidable (Q cl a))
  | .restart _ => inferInstanceAs (Decidable True)

namespace Cluster

variable {lib : WireLib} {strict : Prop} {ids : List ℕ} {cl cl' : Cluster} {x : ℕ}

def restart (cl : Cluster) (x : ℕ) : Cluster := cl.apply x ⟨(cl.nodes x).restarted, [], []⟩

def faultyStep (lib : WireLib) (ids : List ℕ) (cl : Cluster) : FaultyAction → Option Cluster
  | .act a => cl.step lib ids a
  | .restart x => if x ∈ ids then some (cl.restart x) else none

theorem history_restart (cl : Cluster) (x : ℕ) : (cl.restart x).history = cl.history :=
  List.append_nil _

theorem faulty_invariant {Q : Cluster → Action → Prop} {P : Cluster → Prop}
    (h : Runs.Reach (faultyStep lib ids) (FaultyAction.Meets Q) (start ids) cl)
    (hstart : P (start ids))
    (hstep : ∀ {cl cl' a}, P cl → Q cl a → cl.step lib ids a = some cl' → P cl')
    (hrestart : ∀ {cl x}, x ∈ ids → P cl → P (cl.restart x)) : P cl := by
  refine h.invariant hstart fun {cl cl' fa} hP hq hs => ?_
  cases fa with
  | act a => exact hstep hP hq hs
  | restart x =>
    rw [faultyStep] at hs
    split_ifs at hs with hx
    obtain rfl := Option.some.inj hs
    exact hrestart hx hP

end Cluster

/-! ### What a restart leaves alone -/

theorem NodeBallot.newWithStorage {ids : List ℕ} {b b' : Ballots ℕ} {x : ℕ} {nd : RaftNode}
    (h : NodeBallot ids b x nd) {stored : Option PersistedState}
    (hterm : b'.term x = (RaftState.newWithStorage stored).currentTerm)
    (hvote : b'.vote x = (RaftState.newWithStorage stored).votedFor) (hcand : ¬ b'.candidate x) :
    NodeBallot ids b' x (.newWithStorage nd.id nd.peers stored) := by
  have hrole : (RaftState.newWithStorage stored).role = .follower := by
    cases stored <;> rfl
  refine ⟨h.id_eq, h.peers_eq, hterm, hvote, iff_of_false hcand ?_, fun hr => ?_,
    fun e he => absurd he List.not_mem_nil⟩
  · intro hr
    cases hrole.symm.trans hr
  · cases hrole.symm.trans hr

theorem NodeLog.restarted {lib : WireLib} {strict : Prop} {ids : List ℕ} {g : LogView} {x : ℕ}
    {nd : RaftNode} (h : NodeLog lib strict ids g x nd) :
    NodeLog lib strict ids g x nd.restarted where
  id_eq := h.id_eq
  peers_eq := h.peers_eq
  term_eq := h.term_eq
  base_eq := h.base_eq
  holds := h.holds.congr rfl rfl rfl
  won_le T hT := ⟨(h.won_le T hT).1, fun _ => RaftRole.noConfusion⟩
  leader hr := by cases hr
  campaign _ := by
    refine ⟨fun e he => absurd he List.not_mem_nil, fun e he => absurd he List.not_mem_nil, ?_⟩
    intro hr
    cases hr

/-- Without a snapshot nothing counts as committed after a restart. -/
theorem NodeCommit.restarted {ids : List ℕ} {g : LogView} {x : ℕ} {nd : RaftNode}
    (hsnap : nd.state.snapshot = none) : NodeCommit ids g x nd.restarted := by
  have hzero : nd.restarted.state.commitIndex = 0 := by
    change (nd.state.snapshot.map Snapshot.lastIncludedIndex).getD 0 = 0
    rw [hsnap]
    rfl
  constructor
  · rw [hzero]
    exact Nat.zero_le _
  · rw [hzero]
    exact .inl rfl

namespace Cluster

variable {lib : WireLib} {strict : Prop} {ids : List ℕ} {cl cl' : Cluster} {x : ℕ}

theorem hasBallots_newWithStorage {b b' : Ballots ℕ}
    (h : Linked ids (NodeBallot ids b) (PacketBallot b) (NoteBallot b) cl) (hx : x ∈ ids)
    (hext : b.Extends x b') (hinv : b'.Inv ids.toFinset) {stored : Option PersistedState}
    (hterm : b'.term x = (RaftState.newWithStorage stored).currentTerm)
    (hvote : b'.vote x = (RaftState.newWithStorage stored).votedFor) (hcand : ¬ b'.candidate x) :
    HasBallots ids
      (cl.apply x ⟨.newWithStorage (cl.nodes x).id (cl.nodes x).peers stored, [], []⟩) :=
  ⟨b', hinv, h.apply (fun _ _ hne hy => hy.of_ne hext hne) (fun _ _ hp => hp.extends hext)
    (fun _ _ _ hn => hn.extends hext) ((h.node x hx).newWithStorage hterm hvote hcand)
    (fun _ _ hm => absurd hm List.not_mem_nil) fun _ hn => absurd hn List.not_mem_nil⟩

/-- A node that comes back with its term and its vote has resigned. -/
theorem HasBallots.revived (h : HasBallots ids cl) (hx : x ∈ ids)
    {stored : Option PersistedState}
    (hterm : (RaftState.newWithStorage stored).currentTerm = (cl.nodes x).state.currentTerm)
    (hvote : (RaftState.newWithStorage stored).votedFor = (cl.nodes x).state.votedFor) :
    HasBallots ids
      (cl.apply x ⟨.newWithStorage (cl.nodes x).id (cl.nodes x).peers stored, [], []⟩) := by
  obtain ⟨b, hinv, hlinked⟩ := h
  have hnode := hlinked.node x hx
  exact hasBallots_newWithStorage hlinked hx ⟨Ballots.moves_resign, subset_rfl, subset_rfl⟩
    hinv.resign (hnode.term_eq.trans hterm.symm) (hnode.vote_eq.trans hvote.symm)
    (by simp [Ballots.resign])

theorem HasBallots.restart (h : HasBallots ids cl) (hx : x ∈ ids) :
    HasBallots ids (cl.restart x) :=
  h.revived hx rfl rfl

theorem HasLogs.restart {g : LogView} (h : HasLogs lib strict ids g cl) (hx : x ∈ ids) :
    HasLogs lib strict ids g (cl.restart x) where
  sound := h.sound
  linked := h.linked.apply (fun _ _ _ hy => hy) (fun _ _ hp => hp) (fun _ _ _ hn => hn)
    (h.linked.node x hx).restarted (fun _ _ hm => absurd hm List.not_mem_nil)
    fun _ hn => absurd hn List.not_mem_nil
  won T y hy := by
    rw [history_restart]
    exact h.won T y hy

theorem Uncompacted.restart (h : cl.Uncompacted ids) (hx : x ∈ ids) :
    (cl.restart x).Uncompacted ids :=
  h.apply (fun _ _ _ hy => hy) (fun _ _ hp => hp) (fun _ _ _ _ => trivial) (h.node x hx)
    (fun _ _ hm => absurd hm List.not_mem_nil) fun _ _ => trivial

theorem HasCommits.restart (h : cl.HasCommits lib ids) (hunc : cl.Uncompacted ids) (hx : x ∈ ids) :
    (cl.restart x).HasCommits lib ids := by
  obtain ⟨g, hg, hlinked⟩ := h
  exact ⟨g, hg.restart hx, hlinked.apply (fun _ _ _ hy => hy) (fun _ _ hp => hp)
    (fun _ _ _ hn => hn) (NodeCommit.restarted (hunc.node x hx).2)
    (fun _ _ hm => absurd hm List.not_mem_nil) fun _ hn => absurd hn List.not_mem_nil⟩

/-! ### Safety -/

def KeepsPromises (lib : WireLib) (ids : List ℕ) (cl : Cluster) (a : Action) : Prop :=
  cl.KeepsBallots ids a ∧ (cl.nodes a.node).KeepsOffset a.event ∧
    (cl.nodes a.node).KeepsReported lib a.event

instance (lib : WireLib) (ids : List ℕ) (cl : Cluster) (a : Action) :
    Decidable (cl.KeepsPromises lib ids a) :=
  inferInstanceAs (Decidable (_ ∧ _ ∧ _))

theorem exists_hasLogs_of_faulty (hids : ids.Nodup)
    (h : Runs.Reach (faultyStep lib ids) (FaultyAction.Meets (KeepsPromises lib ids))
      (start ids) cl) : ∃ g, HasLogs lib True ids g cl := by
  have hboth : HasBallots ids cl ∧ ∃ g, HasLogs lib True ids g cl := by
    refine faulty_invariant (P := fun cl => HasBallots ids cl ∧ ∃ g, HasLogs lib True ids g cl) h
      ⟨hasBallots_start ids, _, hasLogs_start lib True ids⟩ (fun hP hq hs => ?_) fun hx hP => ?_
    · obtain ⟨hb, g, hg⟩ := hP
      have hb' := hb.step hids hq.1 hs
      obtain ⟨-, g', -, -, -, hg'⟩ := hg.step hids hb'.oneLeaderPerTerm
        ⟨hq.1.keepsTerm, hq.2.1, fun _ => hq.2.2⟩ hs
      exact ⟨hb', g', hg'⟩
    · obtain ⟨hb, g, hg⟩ := hP
      exact ⟨hb.restart hx, g, hg.restart hx⟩
  exact hboth.2

/-- What a leader has committed by counting is in the log of every later leader, or covered by its
offset, whichever nodes have restarted in between. -/
theorem committed_of_faulty (lib : WireLib) (hids : ids.Nodup)
    (h : Runs.Reach (faultyStep lib ids) (FaultyAction.Meets (KeepsPromises lib ids))
      (start ids) cl)
    {x : ℕ} {s : RaftState} (hs : (x, .advancedCommit s) ∈ cl.history) {i : ℕ} (hpos : 0 < i)
    (hi : i ≤ s.commitIndex) :
    ∃ e, (i ≤ s.logOffset ∨ (s.getEntry i).map (LogEntry.onWire lib) = some e) ∧
      ∀ y s', (y, .becameLeader s') ∈ cl.history → s.currentTerm < s'.currentTerm →
        i ≤ s'.logOffset ∨ (s'.getEntry i).map (LogEntry.onWire lib) = some e := by
  obtain ⟨g, hg⟩ := exists_hasLogs_of_faulty hids h
  exact hg.committed_elected hs hpos hi

def KeepsReplayed (lib : WireLib) (ids : List ℕ) (cl : Cluster) (a : Action) : Prop :=
  a.event.NoCompaction ∧ cl.KeepsBallots ids a ∧ (cl.nodes a.node).KeepsReported lib a.event ∧
    cl.CommitsAgreed a

instance (lib : WireLib) (ids : List ℕ) (cl : Cluster) (a : Action) :
    Decidable (cl.KeepsReplayed lib ids a) :=
  inferInstanceAs (Decidable (_ ∧ _ ∧ _ ∧ _))

theorem hasCommits_of_faulty (hids : ids.Nodup)
    (h : Runs.Reach (faultyStep lib ids) (FaultyAction.Meets (KeepsReplayed lib ids))
      (start ids) cl) : cl.HasCommits lib ids := by
  have hall : HasBallots ids cl ∧ cl.Uncompacted ids ∧ cl.HasCommits lib ids := by
    refine faulty_invariant
      (P := fun cl => HasBallots ids cl ∧ cl.Uncompacted ids ∧ cl.HasCommits lib ids) h
      ⟨hasBallots_start ids, linked_start fun _ _ => ⟨rfl, rfl⟩, _, hasLogs_start lib True ids,
        linked_start fun _ _ => ⟨Nat.zero_le _, .inl rfl⟩⟩ (fun hP hq hs => ?_) fun hx hP => ?_
    · obtain ⟨hb, hunc, hc⟩ := hP
      obtain ⟨hcompact, hballots, hreported, hagreed⟩ := hq
      obtain ⟨-, hx, -⟩ := step_eq_some hs
      have hb' := hb.step hids hballots hs
      have hev := hunc.appendOnly hcompact hs
      exact ⟨hb', hunc.step hev hs, hc.step hids hb'.oneLeaderPerTerm hunc hev
        (hunc.keepsOffset hx hev) ⟨hballots.keepsTerm, hreported, hagreed⟩ hs⟩
    · obtain ⟨hb, hunc, hc⟩ := hP
      exact ⟨hb.restart hx, hunc.restart hx, hc.restart hunc hx⟩
  exact hall.2.2

/-- State Machine Safety with restarts: after each of them a node applies its log from the
beginning, and what it applies at an index is what any node has ever applied there. -/
theorem applied_agree_of_faulty (lib : WireLib) (hids : ids.Nodup)
    (h : Runs.Reach (faultyStep lib ids) (FaultyAction.Meets (KeepsReplayed lib ids))
      (start ids) cl)
    {x y : ℕ} {entries entries' : List LogEntry} (hx : (x, .applied entries) ∈ cl.history)
    (hy : (y, .applied entries') ∈ cl.history) {e e' : LogEntry} (he : e ∈ entries)
    (he' : e' ∈ entries') (hindex : e.index = e'.index) : e.onWire lib = e'.onWire lib := by
  obtain ⟨g, hg, hlinked⟩ := hasCommits_of_faulty hids h
  obtain ⟨T, h₀, hc, hget⟩ := hlinked.note x _ hx e he
  obtain ⟨T', h₁, hc', hget'⟩ := hlinked.note y _ hy e' he'
  rw [hindex] at hget
  exact hc.getElem?_unique hc' hg.sound.matched (hg.sound.safe trivial) hget hget'

/-! ### Examples of runs -/

def committedByTwo : List Action :=
  electedBy 1 2 1 0 0 ++ [⟨1, .appendCommand .noop⟩, ⟨1, .replicateTick⟩,
    ⟨2, .deliver 0 1 (.appendEntries .replication (wholeLogRequest 1 1 [⟨1, 1, .noop⟩]))⟩,
    ⟨1, .deliver 0 2 (.appendReply .replication (wholeLogRequest 1 1 [⟨1, 1, .noop⟩])
      ⟨1, true, 1⟩)⟩]

def replayed : List Action :=
  electedBy 2 3 2 1 1 ++ [⟨2, .appendCommand (.registerWorker 2)⟩, ⟨2, .replicateTick⟩,
    ⟨1, .deliver 0 2 (.appendEntries .replication
      ⟨2, 2, 1, 1, [logEntryToProto .standard ⟨2, 2, .registerWorker 2⟩], 0⟩)⟩,
    ⟨2, .deliver 0 1 (.appendReply .replication
      ⟨2, 2, 1, 1, [logEntryToProto .standard ⟨2, 2, .registerWorker 2⟩], 0⟩ ⟨2, true, 2⟩)⟩,
    ⟨2, .heartbeatTick⟩, ⟨1, .deliver 0 2 (.appendEntries .heartbeat ⟨2, 2, 0, 0, [], 2⟩)⟩,
    ⟨1, .getCommittedEntries⟩]

end Cluster
end NomadLite
