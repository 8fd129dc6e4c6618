import NomadLite.Cluster
import NomadLite.JobQueue

/-!
# The client service of a node

`submit_job` and `cancel_job` run as tasks of their own on any node of the cluster.
A call checks the leader and the queue, hands a command to the raft loop through its
mailbox and waits for the loop's answer on a channel of its own. A `Stage` says
where a call stands between two of these pieces; everything else in the cluster
goes on in between. A call that has returned stays on record with the commit index
its node had at that moment.
-/

namespace NomadLite

/-! ### Validation of commands -/

/-- The characters that `str::trim` removes. -/
def isWhitespace (c : Char) : Bool :=
  (9 ≤ c.toNat && c.toNat ≤ 13) || (0x2000 ≤ c.toNat && c.toNat ≤ 0x200a) ||
    [0x20, 0x85, 0xa0, 0x1680, 0x2028, 0x2029, 0x202f, 0x205f, 0x3000].contains c.toNat

def maxCommandLen : ℕ := 1024

def validateCommand (cmd : String) : Except String Unit :=
  if cmd.toList.all isWhitespace then .error "Command cannot be empty"
  else if maxCommandLen < cmd.utf8ByteSize then .error "Command exceeds maximum allowed length"
  else .ok ()

def JobStatus.display : JobStatus → String
  | .pending => "pending"
  | .running => "running"
  | .completed => "completed"
  | .failed => "failed"
  | .cancelled => "cancelled"

/-! ### Requests and replies -/

inductive Code where
  | invalidArgument
  | deadlineExceeded
  | notFound
  | resourceExhausted
  | failedPrecondition
  | internal
  | unavailable
deriving DecidableEq

structure Status where
  code : Code
  message : String
deriving DecidableEq

structure SubmitJobRequest where
  command : String
  image : Option String
deriving DecidableEq

structure CancelJobRequest where
  jobId : String
deriving DecidableEq

/-- `SubmitJobResponse` and `CancelJobResponse`. -/
inductive Reply where
  | submitJob (jobId : String) (createdAtMs : ℤ)
  | cancelJob (success : Bool) (message : String)
deriving DecidableEq

inductive ClientRequest where
  | submit (command : String) (image : Option String)
  | cancel (jobId : Uuid)
deriving DecidableEq

inductive Proposal where
  | submit (job : Job)
  | cancel (jobId : Uuid)
deriving DecidableEq

def Proposal.command : Proposal → Command
  | .submit job => .submitJob job.id job.command job.createdAt job.image
  | .cancel jobId => .cancelJob jobId

/-- `handle_append_command` answers with the index of the new entry; the model keeps the entry. -/
abbrev LoopAnswer := Except String LogEntry

/-- How a call ended, with the loop's answer and the commit index of its node at that moment. -/
structure Outcome where
  result : Except Status Reply
  answer : Option LoopAnswer
  commitIndex : ℕ

inductive Stage where
  | checkingLeader (req : ClientRequest)
  | namingLeader
  | checkingQueue (req : ClientRequest)
  | sending (proposal : Proposal)
  | waiting (proposal : Proposal)
  | adding (job : Job)
  | returned (outcome : Outcome)

def Stage.Open : Stage → Prop
  | .checkingLeader _ | .namingLeader | .checkingQueue _ | .sending _ => True
  | .waiting _ | .adding _ | .returned _ => False

/-- A call on node `node`. The last two fields are its history: the terms in which a leader counted
a majority for the call's entry, and whether the node has learned of it. -/
structure ClientCall where
  node : ℕ
  stage : Stage
  proposed : Option Command
  answer : Option LoopAnswer
  counted : List ℕ
  told : Bool

/-- The messages that other tasks send to the raft loop; `caller` is the waiting call. -/
inductive RaftMessage where
  | appendCommand (command : Command) (caller : Option ℕ)
  | transferLeadership (targetId : Option ℕ)
deriving DecidableEq

structure PeerConfig where
  nodeId : ℕ
  addr : String
deriving DecidableEq

/-- What the client service of a node works with besides the Raft state. -/
structure Host where
  peers : List PeerConfig
  queue : JobQueue
  draining : Bool
  running : Bool
  mailbox : List RaftMessage

def mailboxCapacity : ℕ := 256

namespace RaftNode

def isLeader (nd : RaftNode) : Bool := nd.state.role = .leader

def getLeaderId (nd : RaftNode) : Option ℕ :=
  if nd.state.role = .leader then some nd.id else nd.state.leaderId

end RaftNode

def debugOption : Option ℕ → String
  | some id => "Some(" ++ toString id ++ ")"
  | none => "None"

namespace Host

def notLeaderStatus (host : Host) (leaderId : Option ℕ) : Status where
  code := .failedPrecondition
  message := match leaderId with
    | some id => "Not the leader. Try " ++
        ((host.peers.find? fun p => p.nodeId = id).map PeerConfig.addr).getD "unknown address"
    | none => "Not the leader. Leader unknown, retry later"

def hasRoom (host : Host) : Bool := host.mailbox.length < mailboxCapacity

def push (host : Host) (message : RaftMessage) : Host :=
  { host with mailbox := host.mailbox ++ [message] }

/-- The first piece of `submit_job`: nothing of the Raft state is read. -/
def submitJob (host : Host) (req : SubmitJobRequest) : Except Status ClientRequest :=
  if host.draining then .error ⟨.unavailable, "Node is draining and not accepting new jobs"⟩
  else match validateCommand req.command with
    | .error message => .error ⟨.invalidArgument, message⟩
    | .ok () => .ok (.submit req.command req.image)

/-- The queue check of `submit_job`, and the job that is built after it. -/
def checkSubmit (host : Host) (command : String) (image : Option String) (jobId : Uuid)
    (now : DateTime) : Except Status Proposal :=
  if host.queue.isFull then .error ⟨.resourceExhausted, "Job queue is at capacity"⟩
  else .ok (.submit { Job.withId jobId command now with image := image.filter (· ≠ "") })

def checkCancel (host : Host) (jobId : Uuid) : Except Status Proposal :=
  match host.queue.getJob jobId with
  | none => .error ⟨.notFound, "job not found"⟩
  | some job =>
    if job.status.isActive then .ok (.cancel jobId)
    else .error ⟨.failedPrecondition, "job is already " ++ job.status.display⟩

/-- `try_send`, with the status each call makes of a closed or full mailbox. -/
def trySend (host : Host) : Proposal → Except Status Unit
  | .submit _ =>
    if host.running = false then .error ⟨.unavailable, "Raft loop is not running"⟩
    else if host.hasRoom then .ok ()
    else .error ⟨.resourceExhausted, "Server is overloaded; retry with backoff"⟩
  | .cancel _ =>
    if host.running ∧ host.hasRoom then .ok ()
    else .error ⟨.resourceExhausted, "proposal queue full"⟩

end Host

def parseCancel (lib : WireLib) (req : CancelJobRequest) : Except Status ClientRequest :=
  match lib.parseStr req.jobId with
  | none => .error ⟨.invalidArgument, "invalid job_id"⟩
  | some jobId => .ok (.cancel jobId)

def Job.Built (job : Job) : Prop :=
  ∃ (jobId : Uuid) (command : String) (now : DateTime) (image : Option String),
    job = { Job.withId jobId command now with image := image.filter (· ≠ "") }

def Stage.job : Stage → Option Job
  | .sending (.submit job) | .waiting (.submit job) | .adding job => some job
  | _ => none

/-! ### The pieces of a call -/

inductive CallEvent where
  | checkLeader
  | notLeaderStatus
  | checkQueue (jobId : Uuid) (now : DateTime)
  | send
  | receive
  | timeout
  | senderDropped
  | addJob
deriving DecidableEq

namespace ClientCall

def finish (call : ClientCall) (nd : RaftNode) (result : Except Status Reply) : ClientCall :=
  { call with stage := .returned ⟨result, call.answer, nd.state.commitIndex⟩ }

def advance {α : Type} (call : ClientCall) (nd : RaftNode) (check : Except Status α)
    (next : α → Stage) : ClientCall :=
  match check with
  | .ok a => { call with stage := next a }
  | .error status => call.finish nd (.error status)

def start (x : ℕ) (nd : RaftNode) (check : Except Status ClientRequest) : ClientCall :=
  advance ⟨x, .namingLeader, none, none, [], false⟩ nd check .checkingLeader

def timedOut (proposal : Proposal) : Status :=
  match proposal with
  | .submit _ => ⟨.deadlineExceeded, "Raft did not commit the entry in time"⟩
  | .cancel _ => ⟨.deadlineExceeded, "timed out waiting for Raft commit"⟩

def dropped (proposal : Proposal) : Status :=
  match proposal with
  | .submit _ => ⟨.unavailable, "Raft loop is not running"⟩
  | .cancel _ => ⟨.deadlineExceeded, "timed out waiting for Raft commit"⟩

/-- The loop has answered: a submitted job is added to the queue next, a cancellation is done. -/
def receive (lib : WireLib) (call : ClientCall) (nd : RaftNode) (proposal : Proposal) :
    LoopAnswer → ClientCall
  | .ok _ =>
    match proposal with
    | .submit job => { call with stage := .adding job }
    | .cancel jobId =>
      call.finish nd (.ok (.cancelJob true ("job " ++ lib.uuidToString jobId ++ " cancelled")))
  | .error e =>
    match proposal with
    | .submit _ => call.finish nd (.error ⟨.internal, "Raft error: " ++ e⟩)
    | .cancel _ => call.finish nd (.error ⟨.internal, e⟩)

/-- One piece of call number `c` on a node in state `nd`: what becomes of the node's host and of
the call. -/
def step (lib : WireLib) (c : ℕ) (host : Host) (nd : RaftNode) (call : ClientCall)
    (ev : CallEvent) : Option (Host × ClientCall) :=
  match ev, call.stage with
  | .checkLeader, .checkingLeader req =>
    some (host, { call with stage := if nd.isLeader then .checkingQueue req else .namingLeader })
  | .notLeaderStatus, .namingLeader =>
    some (host, call.finish nd (.error (host.notLeaderStatus nd.getLeaderId)))
  | .checkQueue jobId now, .checkingQueue (.submit command image) =>
    some (host, call.advance nd (host.checkSubmit command image jobId now) .sending)
  | .checkQueue _ _, .checkingQueue (.cancel jobId) =>
    some (host, call.advance nd (host.checkCancel jobId) .sending)
  | .send, .sending proposal =>
    match host.trySend proposal with
    | .ok () => some (host.push (.appendCommand proposal.command (some c)),
        { call with stage := .waiting proposal, proposed := some proposal.command })
    | .error status => some (host, call.finish nd (.error status))
  | .receive, .waiting proposal =>
    call.answer.map fun answer => (host, call.receive lib nd proposal answer)
  | .timeout, .waiting proposal =>
    if call.answer.isNone then some (host, call.finish nd (.error (timedOut proposal))) else none
  | .senderDropped, .waiting proposal =>
    if call.answer.isNone ∧ host.running = false then
      some (host, call.finish nd (.error (dropped proposal)))
    else none
  | .addJob, .adding job =>
    let (queue, added) := host.queue.addJob job
    some ({ host with queue := queue }, call.finish nd <|
      if added then .ok (.submitJob (lib.uuidToString job.id) job.createdAt.timestampMillis)
      else .error ⟨.resourceExhausted, "Job queue is at capacity"⟩)
  | _, _ => none

def Acknowledges (call : ClientCall) (host : Host) (ev : CallEvent) : Prop :=
  match ev, call.stage, call.answer with
  | .receive, .waiting (.cancel _), some (.ok _) => True
  | .addJob, .adding _, _ => host.queue.isFull = false
  | _, _, _ => False

instance (call : ClientCall) (host : Host) (ev : CallEvent) :
    Decidable (call.Acknowledges host ev) := by
  unfold Acknowledges
  split <;> infer_instance

inductive Moved (lib : WireLib) (c : ℕ) (host : Host) (nd : RaftNode) (call : ClientCall)
    (ev : CallEvent) : Host → ClientCall → Prop where
  | checked {stage : Stage} (hold : call.stage.Open) (hnew : stage.Open)
      (hbuilt : ∀ job ∈ stage.job, job.Built) :
      Moved lib c host nd call ev host { call with stage := stage }
  | failed {host' : Host} {status : Status} (hmailbox : host'.mailbox = host.mailbox)
      (hfull : status = ⟨.resourceExhausted, "Job queue is at capacity"⟩ →
        call.stage.Open ∨ (ev = .addJob ∧ host.queue.isFull = true)) :
      Moved lib c host nd call ev host' (call.finish nd (.error status))
  | sent {p : Proposal} (hstage : call.stage = .sending p) :
      Moved lib c host nd call ev (host.push (.appendCommand p.command (some c)))
        { call with stage := .waiting p, proposed := some p.command }
  | answered {job : Job} {e : LogEntry} (hstage : call.stage = .waiting (.submit job))
      (hanswer : call.answer = some (.ok e)) :
      Moved lib c host nd call ev host { call with stage := .adding job }
  | cancelled {jobId : Uuid} {e : LogEntry} (hstage : call.stage = .waiting (.cancel jobId))
      (hanswer : call.answer = some (.ok e)) (hack : call.Acknowledges host ev) :
      Moved lib c host nd call ev host
        (call.finish nd (.ok (.cancelJob true ("job " ++ lib.uuidToString jobId ++ " cancelled"))))
  | added {host' : Host} {job : Job} (hstage : call.stage = .adding job)
      (hmailbox : host'.mailbox = host.mailbox) (hack : call.Acknowledges host ev) :
      Moved lib c host nd call ev host' (call.finish nd
        (.ok (.submitJob (lib.uuidToString job.id) job.createdAt.timestampMillis)))

variable {lib : WireLib} {c : ℕ} {host host' : Host} {nd : RaftNode} {call call' : ClientCall}
  {ev : CallEvent}

theorem moved_advance {check : Except Status Proposal} (hold : call.stage.Open)
    (hbuilt : ∀ job, check = .ok (.submit job) → job.Built) :
    Moved lib c host nd call ev host (call.advance nd check .sending) := by
  cases check with
  | error status => exact .failed rfl fun _ => .inl hold
  | ok p =>
    refine .checked hold trivial fun job hjob => ?_
    cases p with
    | submit job' => exact hbuilt job (congrArg _ (congrArg _ (Option.some.inj hjob)))
    | cancel jobId => cases hjob

theorem moved_failed {status : Status} (hcode : status.code ≠ .resourceExhausted) :
    Moved lib c host nd call ev host (call.finish nd (.error status)) :=
  .failed rfl fun heq => absurd (congrArg Status.code heq) hcode

theorem moved_of_step (h : call.step lib c host nd ev = some (host', call')) :
    Moved lib c host nd call ev host' call' := by
  unfold step at h
  split at h
  · next req hstage =>
    obtain ⟨rfl, rfl⟩ := Prod.mk.inj (Option.some.inj h)
    split_ifs
    · exact .checked (hstage ▸ trivial) trivial fun _ hjob => by cases hjob
    · exact .checked (hstage ▸ trivial) trivial fun _ hjob => by cases hjob
  · next hstage =>
    obtain ⟨rfl, rfl⟩ := Prod.mk.inj (Option.some.inj h)
    exact .failed rfl fun _ => .inl (hstage ▸ trivial)
  · next command image jobId now hstage =>
    obtain ⟨rfl, rfl⟩ := Prod.mk.inj (Option.some.inj h)
    refine moved_advance (hstage ▸ trivial) fun job hjob => ?_
    rw [Host.checkSubmit] at hjob
    split_ifs at hjob
    exact ⟨_, _, _, _, (Proposal.submit.inj (Except.ok.inj hjob)).symm⟩
  · next jobId hstage =>
    obtain ⟨rfl, rfl⟩ := Prod.mk.inj (Option.some.inj h)
    refine moved_advance (hstage ▸ trivial) fun job hjob => ?_
    rw [Host.checkCancel] at hjob
    split at hjob
    · cases hjob
    · split_ifs at hjob
      cases hjob
  · next p hstage =>
    split at h
    · obtain ⟨rfl, rfl⟩ := Prod.mk.inj (Option.some.inj h)
      exact .sent hstage
    · obtain ⟨rfl, rfl⟩ := Prod.mk.inj (Option.some.inj h)
      exact .failed rfl fun _ => .inl (hstage ▸ trivial)
  · next p hstage =>
    obtain ⟨answer, hanswer, heq⟩ := Option.map_eq_some_iff.mp h
    obtain ⟨rfl, rfl⟩ := Prod.mk.inj heq
    cases answer with
    | error e => cases p <;> exact moved_failed fun heq => by cases heq
    | ok e =>
      cases p with
      | submit job => exact .answered hstage hanswer
      | cancel jobId =>
        exact .cancelled hstage hanswer (by simp only [Acknowledges, hstage, hanswer])
  · next p hstage =>
    split_ifs at h
    obtain ⟨rfl, rfl⟩ := Prod.mk.inj (Option.some.inj h)
    cases p <;> exact moved_failed fun heq => by cases heq
  · next p hstage =>
    split_ifs at h
    obtain ⟨rfl, rfl⟩ := Prod.mk.inj (Option.some.inj h)
    cases p <;> exact moved_failed fun heq => by cases heq
  · next job hstage =>
    by_cases hfull : host.queue.maxJobs ≤ host.queue.activeJobCount
    · rw [JobQueue.addJob, if_pos hfull] at h
      obtain ⟨rfl, rfl⟩ := Prod.mk.inj (Option.some.inj h)
      exact .failed rfl fun _ => .inr ⟨rfl, decide_eq_true hfull⟩
    · rw [JobQueue.addJob, if_neg hfull] at h
      obtain ⟨rfl, rfl⟩ := Prod.mk.inj (Option.some.inj h)
      refine .added hstage rfl ?_
      simp only [Acknowledges, hstage]
      exact decide_eq_false hfull
  · cases h

end ClientCall
end NomadLite
