import NomadLite.ClientService
import NomadLite.CommitLearned
import NomadLite.ElectionSafety
import NomadLite.LeaderCompleteness

/-!
# Clients of the cluster

The cluster together with the client services of its nodes. Commands reach the raft
loop of a node through its mailbox only, whoever sends them. A call keeps on record
which leaders have counted its entry and whether its own node has learned of it:
the code does not look at either before it answers.
-/

namespace NomadLite

structure Service where
  cluster : Cluster
  hosts : ℕ → Host
  calls : List ClientCall

inductive ServiceEvent where
  | raft (a : Action)
  | sendMessage (x : ℕ) (message : RaftMessage)
  | handleMessage (x : ℕ)
  | stopLoop (x : ℕ)
  | changeQueue (x : ℕ) (queue : JobQueue)
  | setDraining (x : ℕ) (draining : Bool)
  | submitJob (x : ℕ) (req : SubmitJobRequest)
  | cancelJob (x : ℕ) (req : CancelJobRequest)
  | call (c : ℕ) (ev : CallEvent)

/-- Only the raft loop appends commands, when it handles a message. -/
def Event.isAppendCommand : Event → Bool
  | .appendCommand _ => true
  | _ => false

def RaftMessage.caller : RaftMessage → Option ℕ
  | .appendCommand _ caller => caller
  | .transferLeadership _ => none

namespace ClientCall

def observe (lib : WireLib) (cl : Cluster) (a : Action) (call : ClientCall) : ClientCall :=
  match call.answer with
  | some (.ok e) =>
    if (cl.nodes a.node).Counts lib e a.event then
      { call with
        counted := (cl.nodes a.node).state.currentTerm :: call.counted
        told := call.told || a.node = call.node }
    else if a.node = call.node ∧ ∃ T ∈ call.counted, (cl.nodes a.node).Learns lib e T a.event then
      { call with told := true }
    else call
  | _ => call

theorem observe_proposed (lib : WireLib) (cl : Cluster) (a : Action) (call : ClientCall) :
    (call.observe lib cl a).proposed = call.proposed := by
  unfold observe
  split
  · split_ifs <;> rfl
  · rfl

def reply (answer : LoopAnswer) (call : ClientCall) : ClientCall :=
  { call with answer := call.answer <|> some answer }

end ClientCall

namespace Service

def start (ids : List ℕ) (peers : ℕ → List PeerConfig) : Service where
  cluster := .start ids
  hosts x := ⟨peers x, .new, false, true, []⟩
  calls := []

def setHost (svc : Service) (x : ℕ) (host : Host) : Service :=
  { svc with hosts := Function.update svc.hosts x host }

def addCall (svc : Service) (call : ClientCall) : Service :=
  { svc with calls := svc.calls ++ [call] }

def answer (svc : Service) (caller : Option ℕ) (answer : LoopAnswer) : Service :=
  match caller with
  | some c => { svc with calls := svc.calls.modify c (ClientCall.reply answer) }
  | none => svc

/-- The raft loop of node `x` takes the next message. A transfer goes on as steps of the cluster. -/
def handleMessage (lib : WireLib) (ids : List ℕ) (svc : Service) (x : ℕ) : Option Service :=
  let nd := svc.cluster.nodes x
  match (svc.hosts x).mailbox with
  | [] => none
  | .transferLeadership _ :: rest => some (svc.setHost x { svc.hosts x with mailbox := rest })
  | .appendCommand command caller :: rest =>
    let svc := svc.setHost x { svc.hosts x with mailbox := rest }
    if nd.state.role = .leader then
      (svc.cluster.step lib ids ⟨x, .appendCommand command⟩).map fun cl =>
        { svc with cluster := cl }.answer caller (.ok (nd.state.newEntry command))
    else some (svc.answer caller
      (.error ("Not leader. Current leader: " ++ debugOption nd.state.leaderId)))

def step (lib : WireLib) (ids : List ℕ) (svc : Service) : ServiceEvent → Option Service
  | .raft a =>
    if a.event.isAppendCommand then none
    else (svc.cluster.step lib ids a).map fun cl =>
      { svc with cluster := cl, calls := svc.calls.map (ClientCall.observe lib svc.cluster a) }
  | .sendMessage x message =>
    if message.caller = none ∧ (svc.hosts x).running ∧ (svc.hosts x).hasRoom then
      some (svc.setHost x ((svc.hosts x).push message))
    else none
  | .handleMessage x => svc.handleMessage lib ids x
  | .stopLoop x => some (svc.setHost x { svc.hosts x with running := false, mailbox := [] })
  | .changeQueue x queue => some (svc.setHost x { svc.hosts x with queue := queue })
  | .setDraining x draining => some (svc.setHost x { svc.hosts x with draining := draining })
  | .submitJob x req =>
    some (svc.addCall (.start x (svc.cluster.nodes x) ((svc.hosts x).submitJob req)))
  | .cancelJob x req => some (svc.addCall (.start x (svc.cluster.nodes x) (parseCancel lib req)))
  | .call c ev =>
    match svc.calls[c]? with
    | none => none
    | some call =>
      (call.step lib c (svc.hosts call.node) (svc.cluster.nodes call.node) ev).map
        fun (host, call') => { svc.setHost call.node host with calls := svc.calls.set c call' }

inductive Stepped (lib : WireLib) (ids : List ℕ) (svc : Service) :
    ServiceEvent → Service → Prop where
  | raft {a : Action} {cl : Cluster} (hcl : svc.cluster.step lib ids a = some cl) :
      Stepped lib ids svc (.raft a)
        { svc with cluster := cl, calls := svc.calls.map (ClientCall.observe lib svc.cluster a) }
  | sendMessage {x : ℕ} {message : RaftMessage} (hcaller : message.caller = none) :
      Stepped lib ids svc (.sendMessage x message) (svc.setHost x ((svc.hosts x).push message))
  | handleMessage {x : ℕ} {svc' : Service} (h : svc.handleMessage lib ids x = some svc') :
      Stepped lib ids svc (.handleMessage x) svc'
  | stopLoop (x : ℕ) :
      Stepped lib ids svc (.stopLoop x)
        (svc.setHost x { svc.hosts x with running := false, mailbox := [] })
  | changeQueue (x : ℕ) (queue : JobQueue) :
      Stepped lib ids svc (.changeQueue x queue)
        (svc.setHost x { svc.hosts x with queue := queue })
  | setDraining (x : ℕ) (draining : Bool) :
      Stepped lib ids svc (.setDraining x draining)
        (svc.setHost x { svc.hosts x with draining := draining })
  | submitJob (x : ℕ) (req : SubmitJobRequest) :
      Stepped lib ids svc (.submitJob x req)
        (svc.addCall (.start x (svc.cluster.nodes x) ((svc.hosts x).submitJob req)))
  | cancelJob (x : ℕ) (req : CancelJobRequest) :
      Stepped lib ids svc (.cancelJob x req)
        (svc.addCall (.start x (svc.cluster.nodes x) (parseCancel lib req)))
  | call {c : ℕ} {ev : CallEvent} {call call' : ClientCall} {host : Host}
      (hcall : svc.calls[c]? = some call)
      (hstep : call.step lib c (svc.hosts call.node) (svc.cluster.nodes call.node) ev =
        some (host, call')) :
      Stepped lib ids svc (.call c ev)
        { svc.setHost call.node host with calls := svc.calls.set c call' }

theorem stepped_of_step {lib : WireLib} {ids : List ℕ} {svc svc' : Service} {ev : ServiceEvent}
    (h : svc.step lib ids ev = some svc') : Stepped lib ids svc ev svc' := by
  cases ev with
  | raft a =>
    rw [step] at h
    split_ifs at h
    obtain ⟨cl, hcl, rfl⟩ := Option.map_eq_some_iff.mp h
    exact .raft hcl
  | sendMessage x message =>
    rw [step] at h
    split_ifs at h with hguard
    exact Option.some.inj h ▸ .sendMessage hguard.1
  | handleMessage x => exact .handleMessage h
  | stopLoop x => exact Option.some.inj h ▸ .stopLoop x
  | changeQueue x queue => exact Option.some.inj h ▸ .changeQueue x queue
  | setDraining x draining => exact Option.some.inj h ▸ .setDraining x draining
  | submitJob x req => exact Option.some.inj h ▸ .submitJob x req
  | cancelJob x req => exact Option.some.inj h ▸ .cancelJob x req
  | call c cev =>
    rw [step] at h
    split at h
    · cases h
    · next call hcall =>
      obtain ⟨⟨host, call'⟩, hstep, rfl⟩ := Option.map_eq_some_iff.mp h
      exact .call hcall hstep

/-- The cluster keeps its votes and what was acknowledged, and a call only returns success once
its node has learned that the entry is committed. -/
def KeepsAnswers (lib : WireLib) (ids : List ℕ) (svc : Service) : ServiceEvent → Prop
  | .raft a => svc.cluster.KeepsBallots ids a ∧ svc.cluster.KeepsCommitted lib a
  | .call c ev => ∀ call ∈ svc.calls[c]?, call.Acknowledges (svc.hosts call.node) ev →
      call.told = true
  | _ => True

instance (lib : WireLib) (ids : List ℕ) (svc : Service) (ev : ServiceEvent) :
    Decidable (svc.KeepsAnswers lib ids ev) := by
  unfold KeepsAnswers
  split
  · infer_instance
  · next c ev =>
    exact decidable_of_iff (∀ call ∈ (svc.calls[c]?).toList,
      call.Acknowledges (svc.hosts call.node) ev → call.told = true)
      (by simp only [Option.mem_toList]; rfl)
  · infer_instance

end Service
end NomadLite
