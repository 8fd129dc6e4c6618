import NomadLite.JobSteps

/-!
# Submissions through the dashboard

`submit_job_handler` of the dashboard does what `submit_job` of the client service does,
with its own order of checks and its own answers: it validates the command before it
looks at the draining flag, waits for room in the mailbox of the raft loop, and waits
for the loop's answer without a limit. A call in the mailbox is known by the number of
messages ahead of it.
-/

namespace NomadLite

inductive StatusCode where
  | ok
  | badRequest
  | serviceUnavailable
  | internalServerError
deriving DecidableEq

structure SubmitJobResponse where
  code : StatusCode
  success : Bool
  jobId : Option String
  error : Option String
deriving DecidableEq

def SubmitJobResponse.failure (code : StatusCode) (error : String) : SubmitJobResponse :=
  ⟨code, false, none, some error⟩

inductive PostStage where
  | checkingLeader (payload : SubmitJobRequest)
  | checkingQueue (payload : SubmitJobRequest)
  | sending (job : Job)
  | waiting (job : Job)
  | adding (job : Job)
  | returned (response : SubmitJobResponse)
deriving DecidableEq

/-- A call of `submit_job_handler` on node `node`; `ahead` counts the messages that the raft loop
takes before the call's own. -/
structure DashboardCall where
  node : ℕ
  stage : PostStage
  proposed : Option Command
  ahead : ℕ
  answer : Option LoopAnswer

inductive PostEvent where
  | checkLeader
  | checkQueue (jobId : Uuid) (now : DateTime)
  | send
  | receive
  | receiveFailed
  | addJob
deriving DecidableEq

namespace DashboardCall

def start (x : ℕ) (host : Host) (payload : SubmitJobRequest) : DashboardCall where
  node := x
  stage := match validateCommand payload.command with
    | .error message => .returned (.failure .badRequest message)
    | .ok () =>
      if host.draining then
        .returned (.failure .serviceUnavailable "Node is draining and not accepting new jobs")
      else .checkingLeader payload
  proposed := none
  ahead := 0
  answer := none

def moveTo (call : DashboardCall) (stage : PostStage) : DashboardCall :=
  { call with stage := stage }

def fail (call : DashboardCall) (code : StatusCode) (error : String) : DashboardCall :=
  call.moveTo (.returned (.failure code error))

def step (lib : WireLib) (host : Host) (nd : RaftNode) (call : DashboardCall) (ev : PostEvent) :
    Option (Host × DashboardCall) :=
  match ev, call.stage with
  | .checkLeader, .checkingLeader payload =>
    some (host, if nd.isLeader then call.moveTo (.checkingQueue payload)
      else call.fail .badRequest "Not the leader")
  | .checkQueue jobId now, .checkingQueue payload =>
    some (host, if host.queue.isFull then call.fail .serviceUnavailable "Job queue is at capacity"
      else call.moveTo (.sending
        { Job.withId jobId payload.command now with image := payload.image.filter (· ≠ "") }))
  | .send, .sending job =>
    (host.send (Proposal.submit job).command).map fun host' =>
      (host', if host.running then
          { call with
            stage := .waiting job
            proposed := some (Proposal.submit job).command
            ahead := host.mailbox.length }
        else call.fail .internalServerError "Failed to send to Raft")
  | .receive, .waiting job =>
    call.answer.map fun answer =>
      (host, match answer with
        | .ok _ => call.moveTo (.adding job)
        | .error e => call.fail .badRequest e)
  | .receiveFailed, .waiting _ =>
    if call.answer.isNone ∧ host.running = false then
      some (host, call.fail .internalServerError "Raft response failed")
    else none
  | .addJob, .adding job =>
    let (queue, added) := host.queue.addJob job
    some ({ host with queue := queue },
      if added then call.moveTo (.returned ⟨.ok, true, some (lib.uuidToString job.id), none⟩)
      else call.fail .serviceUnavailable "Job queue is at capacity")
  | _, _ => none

def heard (x : ℕ) (nd : RaftNode) (call : DashboardCall) : DashboardCall :=
  match call.stage with
  | .waiting job =>
    if call.node = x ∧ call.answer.isNone then
      if call.ahead = 0 then
        { call with
          answer := some (if nd.state.role = .leader then
              .ok (nd.state.newEntry (Proposal.submit job).command)
            else .error ("Not leader. Current leader: " ++ debugOption nd.state.leaderId)) }
      else { call with ahead := call.ahead - 1 }
    else call
  | _ => call

def record (call : DashboardCall) (host : Host) (ev : PostEvent) (site : Site) : Site :=
  match ev, call.stage with
  | .addJob, .adding job => site.record job.id (.submitted job)
      (!host.queue.isFull && (host.queue.getJob job.id).isNone)
  | _, _ => site

end DashboardCall

structure DashboardCluster where
  jobs : JobCluster
  posts : List DashboardCall

inductive DashboardEvent where
  | jobs (ev : JobEvent)
  | submitJob (x : ℕ) (payload : SubmitJobRequest)
  | post (c : ℕ) (ev : PostEvent)

namespace DashboardCluster

def hearing (dc : DashboardCluster) : JobEvent → List DashboardCall
  | .service (.handleMessage x) => dc.posts.map (DashboardCall.heard x (dc.jobs.node x))
  | _ => dc.posts

def step (lib : WireLib) (ids : List ℕ) (dc : DashboardCluster) :
    DashboardEvent → Option DashboardCluster
  | .jobs ev => (dc.jobs.step lib ids ev).map fun jobs => ⟨jobs, dc.hearing ev⟩
  | .submitJob x payload =>
    some { dc with posts := dc.posts ++ [.start x (dc.jobs.host x) payload] }
  | .post c ev =>
    match dc.posts[c]? with
    | some call =>
      (call.step lib (dc.jobs.host call.node) (dc.jobs.node call.node) ev).map
        fun (host, call') =>
          ⟨dc.jobs.set call.node
            (host, call.record (dc.jobs.host call.node) ev (dc.jobs.sites call.node)),
            dc.posts.set c call'⟩
    | none => none

end DashboardCluster
end NomadLite
