import NomadLite.WorkerLoop

/-!
# What the loops of a node do in one piece

`Worked` and `DrainMove` list the outcomes of `workStep` and `drainStep` with the stage
each starts from, so that the invariants are proved by cases on them; `Drained` is what
most of them need of a `DrainMove`.
-/

namespace NomadLite

theorem Host.send_cases {host host' : Host} {command : Command}
    (h : host.send command = some host') :
    host.running = false ∧ host' = host ∨
      host.running = true ∧ host' = host.push (.appendCommand command none) := by
  rw [send] at h
  split_ifs at h with hstopped hroom
  · exact .inl ⟨hstopped, (Option.some.inj h).symm⟩
  · exact .inr ⟨Bool.not_eq_false _ ▸ hstopped, (Option.some.inj h).symm⟩

theorem Host.queue_of_send {host host' : Host} {command : Command}
    (h : host.send command = some host') : host'.queue = host.queue := by
  rcases send_cases h with ⟨-, rfl⟩ | ⟨-, rfl⟩ <;> rfl

namespace Site

inductive DrainMove (nd : RaftNode) (host : Host) (site : Site) :
    DrainEvent → Host → Site → Prop where
  | leaderChecked (hidle : site.drain = .idle) (hphase : site.phase = .waiting) :
      DrainMove nd host site .checkLeader host
        { site with drain := if nd.isLeader then .choosing else .idle }
  | chosen {jobId : Uuid} {workerId : ℕ} {now : Instant} (hdrain : site.drain = .choosing)
      (hpending : (host.queue.getJob jobId).map Job.status = some .pending)
      (hworker : site.assigner.LeastLoaded now workerId) :
      DrainMove nd host site (.choose jobId workerId now) host
        { site with drain := .chosen jobId workerId }
  | chosenNone {now : Instant} (hdrain : site.drain = .choosing)
      (hnone : host.queue.NonePending ∨ site.assigner.NoneAvailable now) :
      DrainMove nd host site (.chooseNone now) host { site with drain := .idle }
  | marked {jobId : Uuid} {workerId : ℕ} (hdrain : site.drain = .chosen jobId workerId) :
      DrainMove nd host site .mark
        { host with queue := (host.queue.assignJob jobId workerId).1 }
        { site.record jobId (.assigned workerId) (host.queue.assignJob jobId workerId).2 with
          drain := .marked jobId workerId }
  | counted {jobId : Uuid} {workerId : ℕ} (hdrain : site.drain = .marked jobId workerId) :
      DrainMove nd host site .count host
        { site with
          assigner := site.assigner.countJob workerId jobId
          drain := .counted jobId workerId }
  | sent {jobId : Uuid} {workerId : ℕ} {host' : Host}
      (hdrain : site.drain = .counted jobId workerId)
      (hsend : host.send (.assignJob jobId workerId) = some host') :
      DrainMove nd host site .send host' { site with drain := .choosing }

theorem drainMove_of_drainStep {nd : RaftNode} {host host' : Host} {site site' : Site}
    {ev : DrainEvent} (h : site.drainStep nd host ev = some (host', site')) :
    DrainMove nd host site ev host' site' := by
  unfold drainStep at h
  split at h
  · next hidle =>
    by_cases hphase : site.phase = .waiting
    · rw [if_pos hphase] at h
      obtain ⟨rfl, rfl⟩ := Prod.mk.inj (Option.some.inj h)
      exact .leaderChecked hidle hphase
    · rw [if_neg hphase] at h
      cases h
  · next hdrain =>
    split_ifs at h with hguard
    obtain ⟨rfl, rfl⟩ := Prod.mk.inj (Option.some.inj h)
    exact .chosen hdrain hguard.1 hguard.2
  · next hdrain =>
    split_ifs at h with hnone
    obtain ⟨rfl, rfl⟩ := Prod.mk.inj (Option.some.inj h)
    exact .chosenNone hdrain hnone
  · next hdrain =>
    obtain ⟨rfl, rfl⟩ := Prod.mk.inj (Option.some.inj h)
    exact .marked hdrain
  · next hdrain =>
    obtain ⟨rfl, rfl⟩ := Prod.mk.inj (Option.some.inj h)
    exact .counted hdrain
  · next hdrain =>
    obtain ⟨host₁, hsend, heq⟩ := Option.map_eq_some_iff.mp h
    obtain ⟨rfl, rfl⟩ := Prod.mk.inj heq
    exact .sent hdrain hsend
  · cases h

inductive Drained (host : Host) (site : Site) : DrainEvent → Host → Site → Prop where
  | moved {ev : DrainEvent} (drain : DrainStage) (assigner : JobAssigner) :
      Drained host site ev host { site with drain := drain, assigner := assigner }
  | marked {jobId : Uuid} {workerId : ℕ} (hdrain : site.drain = .chosen jobId workerId) :
      Drained host site .mark
        { host with queue := (host.queue.assignJob jobId workerId).1 }
        { site.record jobId (.assigned workerId) (host.queue.assignJob jobId workerId).2 with
          drain := .marked jobId workerId }
  | sent {jobId : Uuid} {workerId : ℕ} {host' : Host}
      (hdrain : site.drain = .counted jobId workerId)
      (hsend : host.send (.assignJob jobId workerId) = some host') :
      Drained host site .send host' { site with drain := .choosing }

theorem drained_of_drainStep {nd : RaftNode} {host host' : Host} {site site' : Site}
    {ev : DrainEvent} (h : site.drainStep nd host ev = some (host', site')) :
    Drained host site ev host' site' := by
  cases drainMove_of_drainStep h with
  | leaderChecked | chosen | chosenNone => exact .moved _ site.assigner
  | marked hdrain => exact .marked hdrain
  | counted hdrain => exact .moved _ _
  | sent hdrain hsend => exact .sent hdrain hsend

inductive Worked (x : ℕ) (nd : RaftNode) (calls : List ForwardCall) (host : Host) (site : Site) :
    WorkerEvent → Host → Site → Prop where
  | register {now : Instant} (hworker : site.worker = .starting) :
      Worked x nd calls host site (.register now) host
        { site with assigner := site.assigner.registerWorker now x, worker := .registered }
  | sendRegister {host' : Host} (hworker : site.worker = .registered)
      (hsend : host.send (.registerWorker x) = some host') :
      Worked x nd calls host site .sendRegister host' { site with worker := .waiting }
  | heartbeat {connected : Bool} {now : Instant} (hworker : site.worker = .waiting)
      (assigner : JobAssigner) (cachedLeader : Option ℕ) :
      Worked x nd calls host site (.heartbeat connected now) host
        { site with assigner := assigner, cachedLeader := cachedLeader, worker := .polling }
  | poll {jobs : List JobToRun} (hworker : site.worker = .polling)
      (hjobs : host.queue.JobsAssignedTo x jobs) :
      Worked x nd calls host site (.poll jobs) host { site with worker := .running ⟨jobs, []⟩ }
  | execute {job : JobToRun} {todo : List JobToRun} {updates : List JobStatusUpdate}
      (hworker : site.worker = .running ⟨job :: todo, updates⟩) :
      Worked x nd calls host site .execute host
        { site with worker := .executing job ⟨todo, updates⟩ }
  | cancelled {result : ExecutionResult} {job : JobToRun} {batch : Batch}
      (hworker : site.worker = .executing job batch) (hended : result.Ended)
      (hstatus : (host.queue.getJob job.id).map Job.status = some .cancelled) :
      Worked x nd calls host site (.finish result) host
        { site with worker := .releasing job batch }
  | finish {result : ExecutionResult} {job : JobToRun} {batch : Batch}
      (hworker : site.worker = .executing job batch) (hended : result.Ended)
      (hstatus : ¬ (host.queue.getJob job.id).map Job.status = some .cancelled) :
      Worked x nd calls host site (.finish result) host
        { site with worker := .storing job result batch }
  | release {job : JobToRun} {batch : Batch} (hworker : site.worker = .releasing job batch) :
      Worked x nd calls host site .release host
        { site with assigner := site.assigner.jobCompleted x job.id, worker := .running batch }
  | storeResult {now : DateTime} {job : JobToRun} {result : ExecutionResult} {batch : Batch}
      (hworker : site.worker = .storing job result batch) :
      Worked x nd calls host site (.storeResult now)
        { host with queue := (host.queue.updateJobResult job.id result x now).1 }
        { site.record job.id (.finished ⟨job.id, result.status, x, result.exitCode, some now⟩)
            (host.queue.updateJobResult job.id result x now).2 with
          worker := .stored ⟨job.id, result.status, x, result.exitCode, some now⟩ batch }
  | completeJob {update : JobStatusUpdate} {batch : Batch}
      (hworker : site.worker = .stored update batch) :
      Worked x nd calls host site .completeJob host
        { site with
          assigner := site.assigner.jobCompleted x update.jobId
          worker := .running ⟨batch.todo, batch.updates ++ [update]⟩ }
  | flushNothing (hworker : site.worker = .running ⟨[], []⟩) :
      Worked x nd calls host site .flush host { site with worker := .waiting }
  | flushHere {updates : List JobStatusUpdate} (hworker : site.worker = .running ⟨[], updates⟩)
      (hne : updates ≠ []) (hleader : nd.isLeader = true) :
      Worked x nd calls host site .flush host { site with worker := .sending updates }
  | flushThere {updates : List JobStatusUpdate} {leaderId : ℕ}
      (hworker : site.worker = .running ⟨[], updates⟩) (hne : updates ≠ [])
      (hleader : ¬ nd.isLeader = true) (hcached : site.cachedLeader = some leaderId) :
      Worked x nd calls host site .flush host { site with worker := .forwarding leaderId updates }
  | flushNowhere {updates : List JobStatusUpdate} (hworker : site.worker = .running ⟨[], updates⟩)
      (hne : updates ≠ []) (hleader : ¬ nd.isLeader = true) (hcached : site.cachedLeader = none) :
      Worked x nd calls host site .flush host { site with worker := .ending updates }
  | send {updates : List JobStatusUpdate} {host' : Host} (hworker : site.worker = .sending updates)
      (hsend : host.send (reportCommand updates) = some host') :
      Worked x nd calls host site .send host' { site with worker := .ending updates }
  | forward {leaderId : ℕ} {updates : List JobStatusUpdate}
      (hworker : site.worker = .forwarding leaderId updates) :
      Worked x nd calls host site .forward host
        { site with worker := .awaiting calls.length updates }
  | forwardReturned {call : ℕ} {updates : List JobStatusUpdate} {success : Bool}
      (hworker : site.worker = .awaiting call updates)
      (hcall : calls[call]?.map ForwardCall.stage = some (.answered success)) :
      Worked x nd calls host site .forwardReturned host { site with worker := .ending updates }
  | forwardFailed {call : ℕ} {updates : List JobStatusUpdate}
      (hworker : site.worker = .awaiting call updates) :
      Worked x nd calls host site .forwardFailed host { site with worker := .ending updates }
  | endIteration {updates : List JobStatusUpdate} (hworker : site.worker = .ending updates) :
      Worked x nd calls host site .endIteration host { site with worker := .waiting }

theorem worked_of_workStep {x : ℕ} {nd : RaftNode} {calls : List ForwardCall} {host host' : Host}
    {site site' : Site} {ev : WorkerEvent}
    (h : site.workStep x nd calls host ev = some (host', site')) :
    Worked x nd calls host site ev host' site' := by
  unfold workStep at h
  split at h
  · next hworker =>
    obtain ⟨rfl, rfl⟩ := Prod.mk.inj (Option.some.inj h)
    exact .register hworker
  · next hworker =>
    obtain ⟨host₁, hsend, heq⟩ := Option.map_eq_some_iff.mp h
    obtain ⟨rfl, rfl⟩ := Prod.mk.inj heq
    exact .sendRegister hworker hsend
  · next hworker =>
    obtain ⟨rfl, rfl⟩ := Prod.mk.inj (Option.some.inj h)
    split_ifs
    · exact .heartbeat hworker _ _
    · exact .heartbeat hworker site.assigner _
  · next hworker =>
    split_ifs at h with hjobs
    obtain ⟨rfl, rfl⟩ := Prod.mk.inj (Option.some.inj h)
    exact .poll hworker hjobs
  · next hworker =>
    obtain ⟨rfl, rfl⟩ := Prod.mk.inj (Option.some.inj h)
    exact .execute hworker
  · next hworker =>
    split_ifs at h with hended hstatus
    · obtain ⟨rfl, rfl⟩ := Prod.mk.inj (Option.some.inj h)
      exact .cancelled hworker hended hstatus
    · obtain ⟨rfl, rfl⟩ := Prod.mk.inj (Option.some.inj h)
      exact .finish hworker hended hstatus
  · next hworker =>
    obtain ⟨rfl, rfl⟩ := Prod.mk.inj (Option.some.inj h)
    exact .release hworker
  · next hworker =>
    obtain ⟨rfl, rfl⟩ := Prod.mk.inj (Option.some.inj h)
    exact .storeResult hworker
  · next hworker =>
    obtain ⟨rfl, rfl⟩ := Prod.mk.inj (Option.some.inj h)
    exact .completeJob hworker
  · next updates hworker =>
    obtain ⟨rfl, rfl⟩ := Prod.mk.inj (Option.some.inj h)
    split_ifs with hempty hleader
    · subst hempty
      exact .flushNothing hworker
    · exact .flushHere hworker hempty hleader
    · split
      · next leaderId hcached => exact .flushThere hworker hempty hleader hcached
      · next hcached => exact .flushNowhere hworker hempty hleader hcached
  · next hworker =>
    obtain ⟨host₁, hsend, heq⟩ := Option.map_eq_some_iff.mp h
    obtain ⟨rfl, rfl⟩ := Prod.mk.inj heq
    exact .send hworker hsend
  · next hworker =>
    obtain ⟨rfl, rfl⟩ := Prod.mk.inj (Option.some.inj h)
    exact .forward hworker
  · next hworker =>
    split at h
    · next hcall =>
      obtain ⟨rfl, rfl⟩ := Prod.mk.inj (Option.some.inj h)
      exact .forwardReturned hworker hcall
    · cases h
  · next hworker =>
    obtain ⟨rfl, rfl⟩ := Prod.mk.inj (Option.some.inj h)
    exact .forwardFailed hworker
  · next hworker =>
    obtain ⟨rfl, rfl⟩ := Prod.mk.inj (Option.some.inj h)
    exact .endIteration hworker
  · cases h

end Site

namespace ForwardCall

inductive Forwarded (lib : WireLib) (host : Host) (call : ForwardCall) :
    Host → ForwardCall → Prop where
  | nothing (hstage : call.stage = .received) (hempty : call.updates = []) :
      Forwarded lib host call host { call with stage := .answered true }
  | refused (hstage : call.stage = .received) (hne : call.updates ≠ [])
      (hstopped : host.running = false) :
      Forwarded lib host call host { call with stage := .answered false }
  | sent (hstage : call.stage = .received) (hne : call.updates ≠ [])
      (hrunning : host.running = true) :
      Forwarded lib host call (host.push (.appendCommand (call.command lib) none))
        { call with stage := .sent }
  | answered (hstage : call.stage = .sent) :
      Forwarded lib host call host { call with stage := .answered true }

theorem forwarded_of_step {lib : WireLib} {host host' : Host} {call call' : ForwardCall}
    (h : call.step lib host = some (host', call')) : Forwarded lib host call host' call' := by
  unfold step at h
  split at h
  · next hstage =>
    by_cases hempty : call.updates = []
    · rw [if_pos hempty] at h
      obtain ⟨rfl, rfl⟩ := Prod.mk.inj (Option.some.inj h)
      exact .nothing hstage hempty
    · rw [if_neg hempty] at h
      obtain ⟨host₁, hsend, heq⟩ := Option.map_eq_some_iff.mp h
      obtain ⟨rfl, rfl⟩ := Prod.mk.inj heq
      rcases Host.send_cases hsend with ⟨hstopped, rfl⟩ | ⟨hrunning, rfl⟩
      · rw [if_neg (by rw [hstopped]; exact Bool.false_ne_true)]
        exact .refused hstage hempty hstopped
      · rw [if_pos hrunning]
        exact .sent hstage hempty hrunning
  · next hstage =>
    obtain ⟨rfl, rfl⟩ := Prod.mk.inj (Option.some.inj h)
    exact .answered hstage
  · cases h

end ForwardCall
end NomadLite
