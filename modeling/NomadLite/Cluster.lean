import NomadLite.NodeStep
import NomadLite.Runs
import NomadLite.StandardWire

/-!
# The cluster

Nodes exchange messages through a network that forgets nothing: a packet in it can
be delivered at any time, in any order, again and again, or never. The history
keeps the notes that the steps leave.
-/

namespace NomadLite

structure Packet where
  src : ℕ
  dst : ℕ
  msg : Message
deriving DecidableEq

structure Cluster where
  nodes : ℕ → RaftNode
  network : List Packet
  history : List (ℕ × Note)

structure Action where
  node : ℕ
  event : Event
deriving DecidableEq

def Event.packet (x : ℕ) : Event → Option Packet
  | .deliver _ src msg => some ⟨src, x, msg⟩
  | _ => none

def peersOf (ids : List ℕ) (x : ℕ) : List ℕ := ids.filter (· ≠ x)

namespace Cluster

def start (ids : List ℕ) : Cluster where
  nodes x := .new x (peersOf ids x)
  network := []
  history := []

def apply (cl : Cluster) (x : ℕ) (eff : Effect) : Cluster where
  nodes := Function.update cl.nodes x eff.node
  network := cl.network ++ eff.sent.map fun (dst, msg) => ⟨x, dst, msg⟩
  history := cl.history ++ eff.notes.map fun note => (x, note)

def step (lib : WireLib) (ids : List ℕ) (cl : Cluster) (a : Action) : Option Cluster :=
  if a.node ∈ ids ∧ ∀ p ∈ (a.event.packet a.node).toList, p ∈ cl.network then
    ((cl.nodes a.node).step lib a.event).map (cl.apply a.node)
  else none

def leaders (cl : Cluster) : List (ℕ × ℕ) :=
  cl.history.filterMap fun
    | (x, .becameLeader s) => some (s.currentTerm, x)
    | _ => none

/-- Node `x` stands in term `t` and is elected by the vote of node `v` alone; its log ends with an
entry of index `li` and term `lt`. -/
def electedBy (x v t li lt : ℕ) : List Action :=
  [⟨x, .electionTimeout [v]⟩, ⟨v, .deliver 0 x (.voteRequest ⟨t, x, li, lt⟩)⟩,
    ⟨x, .deliver 0 v (.voteReply ⟨t, x, li, lt⟩ ⟨t, true⟩)⟩, ⟨x, .finishElection 0⟩]

def wholeLogRequest (term leaderId : ℕ) (entries : List LogEntry) : AppendEntriesRequest :=
  ⟨term, leaderId, 0, 0, entries.map (logEntryToProto .standard), 0⟩

variable {lib : WireLib} {ids : List ℕ} {cl cl' : Cluster} {a : Action}

theorem mem_leaders {T x : ℕ} :
    (T, x) ∈ cl.leaders ↔ ∃ s, (x, .becameLeader s) ∈ cl.history ∧ s.currentTerm = T := by
  rw [leaders, List.mem_filterMap]
  constructor
  · rintro ⟨⟨y, n⟩, hmem, hn⟩
    cases n with
    | becameLeader s =>
      obtain ⟨rfl, rfl⟩ := Prod.mk.inj (Option.some.inj hn)
      exact ⟨s, hmem, rfl⟩
    | advancedCommit | applied => cases hn
  · rintro ⟨s, hmem, rfl⟩
    exact ⟨_, hmem, rfl⟩

theorem apply_nodes (x : ℕ) (cl : Cluster) (eff : Effect) : (cl.apply x eff).nodes x = eff.node :=
  Function.update_self ..

theorem step_eq_some (h : cl.step lib ids a = some cl') :
    ∃ eff, a.node ∈ ids ∧ (∀ p ∈ a.event.packet a.node, p ∈ cl.network) ∧
      (cl.nodes a.node).step lib a.event = some eff ∧ cl' = cl.apply a.node eff := by
  rw [step] at h
  split_ifs at h with hen
  obtain ⟨eff, heff, rfl⟩ := Option.map_eq_some_iff.mp h
  exact ⟨eff, hen.1, fun p hp => hen.2 p (Option.mem_toList.mpr hp), heff, rfl⟩

/-- A cluster described part by part: each node, each packet, each note. -/
structure Linked (ids : List ℕ) (nodeOk : ℕ → RaftNode → Prop) (packetOk : Packet → Prop)
    (noteOk : ℕ → Note → Prop) (cl : Cluster) : Prop where
  node : ∀ x ∈ ids, nodeOk x (cl.nodes x)
  packet : ∀ p ∈ cl.network, packetOk p
  note : ∀ x n, (x, n) ∈ cl.history → noteOk x n

section Linked

variable {nodeOk nodeOk' : ℕ → RaftNode → Prop} {packetOk packetOk' : Packet → Prop}
  {noteOk noteOk' : ℕ → Note → Prop}

theorem linked_start (h : ∀ x ∈ ids, nodeOk x (.new x (peersOf ids x))) :
    Linked ids nodeOk packetOk noteOk (start ids) where
  node := h
  packet _ hp := absurd hp List.not_mem_nil
  note _ _ hn := absurd hn List.not_mem_nil

/-- After a step of node `x` it is enough to look at what changed: the node itself, what it sent
and what it noted. The descriptions of everything else may change with it. -/
theorem Linked.apply {x : ℕ} {eff : Effect} (h : Linked ids nodeOk packetOk noteOk cl)
    (hother : ∀ y ∈ ids, y ≠ x → nodeOk y (cl.nodes y) → nodeOk' y (cl.nodes y))
    (hpacket : ∀ p ∈ cl.network, packetOk p → packetOk' p)
    (hnote : ∀ y n, (y, n) ∈ cl.history → noteOk y n → noteOk' y n)
    (hself : nodeOk' x eff.node) (hsent : ∀ dst msg, (dst, msg) ∈ eff.sent → packetOk' ⟨x, dst, msg⟩)
    (hnoted : ∀ n ∈ eff.notes, noteOk' x n) :
    Linked ids nodeOk' packetOk' noteOk' (cl.apply x eff) where
  node y hy := by
    by_cases hyx : y = x
    · subst hyx
      simpa only [Cluster.apply, Function.update_self] using hself
    · simpa only [Cluster.apply, Function.update_of_ne hyx] using hother y hy hyx (h.node y hy)
  packet p hp := by
    rcases List.mem_append.mp hp with hold | hnew
    · exact hpacket p hold (h.packet p hold)
    · obtain ⟨⟨dst, msg⟩, hmem, rfl⟩ := List.mem_map.mp hnew
      exact hsent dst msg hmem
  note y n hn := by
    rcases List.mem_append.mp hn with hold | hnew
    · exact hnote y n hold (h.note y n hold)
    · obtain ⟨n', hmem, heq⟩ := List.mem_map.mp hnew
      cases heq
      exact hnoted n hmem

end Linked
end Cluster
end NomadLite
