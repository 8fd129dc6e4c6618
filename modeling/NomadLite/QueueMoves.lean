import NomadLite.Dashboard
import NomadLite.ReplicaConvergence

/-!
# What can happen to the queue of a node

`QueueMove` lists what a step of the cluster, of the client services or of the
dashboard makes of the queue of a node. A job that comes in new, from a call, from
the log or from a snapshot, has no output; the worker loop alone stores one.
-/

namespace NomadLite

def Job.Silent (job : Job) : Prop := job.output = none ∧ job.error = none

def PostStage.job : PostStage → Option Job
  | .sending job | .waiting job | .adding job => some job
  | _ => none

theorem Job.Built.silent {job : Job} (h : job.Built) : job.Silent := by
  obtain ⟨jobId, command, now, image, rfl⟩ := h
  exact ⟨rfl, rfl⟩

theorem Service.silent_of_step {lib : WireLib} {ids : List ℕ} {svc svc' : Service}
    {ev : ServiceEvent} (h : svc.step lib ids ev = some svc')
    (hsilent : ∀ call ∈ svc.calls, ∀ job ∈ call.stage.job, job.Silent) :
    ∀ call ∈ svc'.calls, ∀ job ∈ call.stage.job, job.Silent := by
  have hstart : ∀ x nd (check : Except Status ClientRequest),
      ∀ job ∈ (ClientCall.start x nd check).stage.job, job.Silent := by
    intro x nd check job hjob
    cases check <;> cases hjob
  exact calls_of_step h hsilent (fun hstage _ hold => hstage ▸ hold)
    (fun x nd host req => hstart x nd _) (fun x nd req => hstart x nd _)
    fun _ _ hmoved hold job hjob =>
      (ClientCall.job_of_step hmoved hjob).elim (hold job) Job.Built.silent

namespace DashboardCall

variable {lib : WireLib} {host host' : Host} {nd : RaftNode} {call call' : DashboardCall}
  {ev : PostEvent}

theorem heard_stage (x : ℕ) (nd : RaftNode) (call : DashboardCall) :
    (call.heard x nd).stage = call.stage := by
  unfold heard
  split
  · split_ifs <;> rfl
  · rfl

theorem start_job (x : ℕ) (host : Host) (payload : SubmitJobRequest) :
    (start x host payload).stage.job = none := by
  unfold start
  split
  · rfl
  · split_ifs <;> rfl

theorem silent_of_step (h : call.step lib host nd ev = some (host', call'))
    (hsilent : ∀ job ∈ call.stage.job, job.Silent) : ∀ job ∈ call'.stage.job, job.Silent := by
  intro job hjob
  unfold step at h
  split at h
  · obtain ⟨rfl, rfl⟩ := Prod.mk.inj (Option.some.inj h)
    split_ifs at hjob <;> cases hjob
  · obtain ⟨rfl, rfl⟩ := Prod.mk.inj (Option.some.inj h)
    split_ifs at hjob
    · cases hjob
    · obtain rfl := Option.some.inj hjob
      exact ⟨rfl, rfl⟩
  · next job' hstage =>
    obtain ⟨host₁, -, heq⟩ := Option.map_eq_some_iff.mp h
    obtain ⟨rfl, rfl⟩ := Prod.mk.inj heq
    split_ifs at hjob
    · exact hsilent job (hstage ▸ hjob)
    · cases hjob
  · next job' hstage =>
    obtain ⟨answer, -, heq⟩ := Option.map_eq_some_iff.mp h
    obtain ⟨rfl, rfl⟩ := Prod.mk.inj heq
    cases answer with
    | ok e => exact hsilent job (hstage ▸ hjob)
    | error e => cases hjob
  · split_ifs at h
    obtain ⟨rfl, rfl⟩ := Prod.mk.inj (Option.some.inj h)
    cases hjob
  · obtain ⟨rfl, rfl⟩ := Prod.mk.inj (Option.some.inj h)
    dsimp only at hjob
    split_ifs at hjob <;> cases hjob
  · cases h

/-- A call changes the queue of its node when it adds its job. -/
theorem queue_of_step (h : call.step lib host nd ev = some (host', call')) :
    host'.queue = host.queue ∨
      ∃ job, call.stage = .adding job ∧ host'.queue = (host.queue.addJob job).1 := by
  unfold step at h
  split at h
  · exact .inl (congrArg Host.queue (Prod.mk.inj (Option.some.inj h)).1.symm)
  · exact .inl (congrArg Host.queue (Prod.mk.inj (Option.some.inj h)).1.symm)
  · obtain ⟨host₁, hsend, heq⟩ := Option.map_eq_some_iff.mp h
    obtain ⟨rfl, rfl⟩ := Prod.mk.inj heq
    exact .inl (Host.queue_of_send hsend)
  · obtain ⟨answer, -, heq⟩ := Option.map_eq_some_iff.mp h
    exact .inl (congrArg Host.queue (Prod.mk.inj heq).1.symm)
  · split_ifs at h
    exact .inl (congrArg Host.queue (Prod.mk.inj (Option.some.inj h)).1.symm)
  · next job hstage =>
    exact .inr ⟨job, hstage, congrArg Host.queue (Prod.mk.inj (Option.some.inj h)).1.symm⟩
  · cases h

end DashboardCall

/-! ### Queues -/

theorem JobQueue.getJob_updateJobResult (q : JobQueue) (id jobId : Uuid) (result : ExecutionResult)
    (x : ℕ) (now : DateTime) :
    (q.updateJobResult jobId result x now).1.getJob id = (q.getJob id).map fun job =>
      if job.id = jobId then
        { job with
          status := result.status
          executedBy := some x
          exitCode := result.exitCode
          output := result.output
          error := result.error
          completedAt := some now }
      else job :=
  q.getJob_modifyJob id jobId fun _ => rfl

/-- What a step makes of a queue; `new` are the jobs that calls may add and `results` what the
worker loop may store. -/
inductive JobQueue.Move (new : Job → Prop) (results : Uuid → ExecutionResult → Prop)
    (q : JobQueue) : JobQueue → Prop where
  | same : Move new results q q
  | added {job : Job} (hnew : new job) : Move new results q (q.addJob job).1
  | assigned (jobId : Uuid) (workerId : ℕ) : Move new results q (q.assignJob jobId workerId).1
  | stored {id : Uuid} {result : ExecutionResult} (hresult : results id result) (x : ℕ)
      (now : DateTime) : Move new results q (q.updateJobResult id result x now).1
  | applied (now : DateTime) (command : Command) : Move new results q (q.applyCommand now command)
  | rebuilt (snapshot : Snapshot) : Move new results q (q.rebuildFromSnapshot snapshot)
  | evicted (now : DateTime) (retentionSecs : ℕ) :
      Move new results q (q.cleanupFinishedJobs now retentionSecs).1

namespace JobQueue.Move

variable {new : Job → Prop} {results : Uuid → ExecutionResult → Prop} {q q' : JobQueue}

theorem of_eq (h : q' = q) : Move new results q q' := h ▸ .same

theorem mono {new' : Job → Prop} {results' : Uuid → ExecutionResult → Prop}
    (h : Move new results q q') (hnew : ∀ job, new job → new' job)
    (hresults : ∀ id result, results id result → results' id result) :
    Move new' results' q q' := by
  cases h with
  | same => exact .same
  | added hadded => exact .added (hnew _ hadded)
  | assigned jobId workerId => exact .assigned jobId workerId
  | stored hresult x now => exact .stored (hresults _ _ hresult) x now
  | applied now command => exact .applied now command
  | rebuilt snapshot => exact .rebuilt snapshot
  | evicted now retentionSecs => exact .evicted now retentionSecs

/-- A property of jobs that is about their id and their output holds of all jobs in the queue, if
it holds of new ones, of jobs without output and of those whose result is stored. -/
theorem forall_jobs {P : Uuid → Option String → Option String → Prop} (h : Move new results q q')
    (hjobs : ∀ id job, q.getJob id = some job → P job.id job.output job.error)
    (hnew : ∀ job, new job → P job.id job.output job.error) (hsilent : ∀ id, P id none none)
    (hresults : ∀ id result, results id result → P id result.output result.error) :
    ∀ id job, q'.getJob id = some job → P job.id job.output job.error := by
  intro id job hjob
  cases h with
  | same => exact hjobs id job hjob
  | added hadded =>
    rw [getJob_addJob] at hjob
    split_ifs at hjob
    · exact Option.some.inj hjob ▸ hnew _ hadded
    · exact hjobs id job hjob
  | assigned jobId workerId =>
    rw [getJob_assignJob] at hjob
    obtain ⟨old, hold, rfl⟩ := Option.map_eq_some_iff.mp hjob
    split_ifs
    · exact hjobs id old hold
    · exact hjobs id old hold
  | @stored id' result hresult x now =>
    rw [getJob_updateJobResult] at hjob
    obtain ⟨old, hold, rfl⟩ := Option.map_eq_some_iff.mp hjob
    split_ifs with hid
    · subst hid
      exact hresults _ _ hresult
    · exact hjobs id old hold
  | applied now command =>
    cases hsub : command.submitted with
    | none =>
      rw [getJob_applyCommand _ _ _ hsub] at hjob
      obtain ⟨old, hold, rfl⟩ := Option.map_eq_some_iff.mp hjob
      -- no command touches the output
      refine Job.applyCommand_induction (P := fun job => P job.id job.output job.error)
        (hjobs id old hold) (fun u _ job' hjob' => ?_) (fun _ _ _ _ => hjobs id old hold)
        fun _ => hjobs id old hold
      unfold Job.applyStatus
      split_ifs
      · exact hjob'
      · exact hjob'
    | some jobId =>
      cases command with
      | submitJob jobId command createdAt image =>
        rw [getJob_submitJob] at hjob
        split_ifs at hjob
        · obtain rfl := Option.some.inj hjob
          exact hsilent jobId
        · exact hjobs id job hjob
      | _ => cases hsub
  | rebuilt snapshot =>
    obtain ⟨job', -, rfl⟩ := mem_of_getJob_rebuildFromSnapshot hjob
    exact hsilent _
  | evicted now retentionSecs =>
    change (q.retain _).getJob id = some job at hjob
    rw [getJob_retain, Option.filter_eq_some_iff] at hjob
    exact hjobs id job hjob.1

end JobQueue.Move

/-! ### Steps -/

namespace Scheduler

theorem takePendingSnapshot_queue (sc : Scheduler) : sc.takePendingSnapshot.queue = sc.queue := by
  unfold takePendingSnapshot
  dsimp only
  split <;> rfl

theorem beginCompaction_queue (sc : Scheduler) : sc.beginCompaction.queue = sc.queue := by
  unfold beginCompaction
  split <;> rfl

end Scheduler

def Service.Adds (svc : Service) (x : ℕ) (job : Job) : Prop :=
  ∃ call ∈ svc.calls, call.node = x ∧ call.stage = .adding job

theorem Service.HostChange.queueMove {svc : Service} {y : ℕ} {ev : ServiceEvent} {host : Host}
    {results : Uuid → ExecutionResult → Prop} (h : HostChange svc y ev host) :
    (svc.hosts y).queue.Move (svc.Adds y) results host.queue := by
  cases h with
  | added hcall hnode hstage => exact .added ⟨_, List.mem_of_getElem? hcall, hnode, hstage⟩
  | same | draining | stopped | taken | transferring | proposed => exact .same

namespace JobCluster

variable {lib : WireLib} {ids : List ℕ} {jc jc' : JobCluster} {ev : JobEvent}

def Stores (jc : JobCluster) (x : ℕ) (ev : JobEvent) (id : Uuid) (result : ExecutionResult) :
    Prop :=
  ∃ now job batch, ev = .work x (.storeResult now) ∧
    (jc.sites x).worker = .storing job result batch ∧ job.id = id

theorem queue_setHost (jc : JobCluster) (x : ℕ) (host : Host) (y : ℕ) :
    ((jc.service.setHost x host).hosts y).queue = if y = x then host.queue else jc.queue y := by
  rw [Service.hosts_setHost]
  split_ifs <;> rfl

theorem Stepped.queueMove (h : Stepped lib ids jc ev jc') (y : ℕ) :
    (jc.queue y).Move (jc.service.Adds y) (jc.Stores y ev) (jc'.queue y) := by
  have hset : ∀ {x : ℕ} {host : Host},
      (jc.queue x).Move (jc.service.Adds x) (jc.Stores x ev) host.queue →
      (jc.queue y).Move (jc.service.Adds y) (jc.Stores y ev)
        ((jc.service.setHost x host).hosts y).queue := by
    intro x host hmove
    rw [queue_setHost]
    split_ifs with hy
    · exact hy ▸ hmove
    · exact .same
  cases h with
  | service hev hsvc =>
    exact (Service.hostChange_of_step hsvc hev y).queueMove
  | @schedule x ev sc hloops hsc =>
    change (jc.queue y).Move _ _ (Function.update jc.service.hosts x
      { jc.host x with queue := sc.queue } y).queue
    refine @hset x { jc.host x with queue := sc.queue } ?_
    cases Scheduler.stepped_of_step hsc with
    | rebuildFromSnapshot hphase now => exact .rebuilt _
    | applyEntry hphase now => exact .applied _ _
    | takePendingSnapshot => exact .of_eq (Scheduler.takePendingSnapshot_queue (jc.scheduler x))
    | beginCompaction => exact .of_eq (Scheduler.beginCompaction_queue (jc.scheduler x))
    | appendEntries | installSnapshot | changed | getCommittedEntries | finishCompaction =>
      exact .same
  | cleanup x now => exact hset (.evicted now _)
  | drain hdrained =>
    refine hset ?_
    cases hdrained with
    | moved => exact .same
    | marked hdrain => exact .assigned _ _
    | sent hdrain hsend => exact .of_eq (Host.queue_of_send hsend)
  | work hworked =>
    refine hset ?_
    cases hworked with
    | storeResult hworker => exact .stored ⟨_, _, _, rfl, hworker, rfl⟩ _ _
    | sendRegister hworker hsend | send hworker hsend => exact .of_eq (Host.queue_of_send hsend)
    | _ => exact .same
  | workerHeartbeat => exact hset .same
  | forwardJobStatus => exact .same
  | forward hcall hforwarded =>
    refine hset ?_
    cases hforwarded <;> exact .same

end JobCluster

namespace DashboardCluster

variable {lib : WireLib} {ids : List ℕ} {dc dc' : DashboardCluster} {ev : DashboardEvent}

def Adds (dc : DashboardCluster) (x : ℕ) (job : Job) : Prop :=
  dc.jobs.service.Adds x job ∨ ∃ call ∈ dc.posts, call.node = x ∧ call.stage = .adding job

def Stores (dc : DashboardCluster) (x : ℕ) (ev : DashboardEvent) (id : Uuid)
    (result : ExecutionResult) : Prop :=
  ∃ jev, ev = .jobs jev ∧ dc.jobs.Stores x jev id result

inductive Stepped (lib : WireLib) (ids : List ℕ) (dc : DashboardCluster) :
    DashboardEvent → DashboardCluster → Prop where
  | jobs {ev : JobEvent} {jc : JobCluster} (hstep : dc.jobs.Stepped lib ids ev jc) :
      Stepped lib ids dc (.jobs ev) ⟨jc, dc.hearing ev⟩
  | submitJob (x : ℕ) (payload : SubmitJobRequest) :
      Stepped lib ids dc (.submitJob x payload)
        { dc with posts := dc.posts ++ [.start x (dc.jobs.host x) payload] }
  | post {c : ℕ} {ev : PostEvent} {call call' : DashboardCall} {host : Host}
      (hcall : dc.posts[c]? = some call)
      (hstep : call.step lib (dc.jobs.host call.node) (dc.jobs.node call.node) ev =
        some (host, call')) :
      Stepped lib ids dc (.post c ev)
        ⟨dc.jobs.set call.node
          (host, call.record (dc.jobs.host call.node) ev (dc.jobs.sites call.node)),
          dc.posts.set c call'⟩

theorem stepped_of_step (h : dc.step lib ids ev = some dc') : Stepped lib ids dc ev dc' := by
  cases ev with
  | jobs ev =>
    obtain ⟨jc, hjc, rfl⟩ := Option.map_eq_some_iff.mp h
    exact .jobs (JobCluster.stepped_of_step hjc)
  | submitJob x payload =>
    obtain rfl := Option.some.inj h
    exact .submitJob x payload
  | post c ev =>
    rw [step] at h
    split at h
    · next call hcall =>
      obtain ⟨⟨host, call'⟩, hcstep, rfl⟩ := Option.map_eq_some_iff.mp h
      exact .post hcall hcstep
    · cases h

theorem Stepped.queueMove (h : Stepped lib ids dc ev dc') (y : ℕ) :
    (dc.jobs.queue y).Move (dc.Adds y) (dc.Stores y ev) (dc'.jobs.queue y) := by
  cases h with
  | jobs hstep =>
    exact (hstep.queueMove y).mono (fun _ => .inl) fun _ _ hstores => ⟨_, rfl, hstores⟩
  | submitJob => exact .same
  | @post c ev call call' host hcall hstep =>
    change (dc.jobs.queue y).Move _ _ ((dc.jobs.service.setHost call.node host).hosts y).queue
    rw [JobCluster.queue_setHost]
    split_ifs with hy
    · subst hy
      rcases DashboardCall.queue_of_step hstep with hqueue | ⟨job, hstage, hqueue⟩
      · exact .of_eq hqueue
      · rw [hqueue]
        exact .added (.inr ⟨call, List.mem_of_getElem? hcall, rfl, hstage⟩)
    · exact .same

structure Silent (dc : DashboardCluster) : Prop where
  calls : ∀ call ∈ dc.jobs.service.calls, ∀ job ∈ call.stage.job, job.Silent
  posts : ∀ call ∈ dc.posts, ∀ job ∈ call.stage.job, job.Silent

namespace Silent

theorem adds (h : dc.Silent) {x : ℕ} {job : Job} (hadds : dc.Adds x job) : job.Silent := by
  rcases hadds with ⟨call, hcall, -, hstage⟩ | ⟨call, hcall, -, hstage⟩
  · exact h.calls call hcall job (hstage ▸ rfl)
  · exact h.posts call hcall job (hstage ▸ rfl)

theorem hearing (h : dc.Silent) (ev : JobEvent) :
    ∀ call ∈ dc.hearing ev, ∀ job ∈ call.stage.job, job.Silent := by
  unfold DashboardCluster.hearing
  split
  · intro call hcall
    obtain ⟨call₀, hcall₀, rfl⟩ := List.mem_map.mp hcall
    rw [DashboardCall.heard_stage]
    exact h.posts call₀ hcall₀
  · exact h.posts

theorem step (h : dc.Silent) (hstep : Stepped lib ids dc ev dc') : dc'.Silent := by
  cases hstep with
  | jobs hstep =>
    refine ⟨?_, h.hearing _⟩
    cases hstep with
    | service hev hsvc => exact Service.silent_of_step hsvc h.calls
    | _ => exact h.calls
  | submitJob x payload =>
    refine ⟨h.calls, fun call hcall job hjob => ?_⟩
    rcases List.mem_append.mp hcall with hold | hnew
    · exact h.posts call hold job hjob
    · obtain rfl := List.mem_singleton.mp hnew
      rw [DashboardCall.start_job] at hjob
      cases hjob
  | post hcall hstep =>
    refine ⟨h.calls, fun call₁ hmem => ?_⟩
    rcases List.mem_or_eq_of_mem_set hmem with hold | rfl
    · exact h.posts call₁ hold
    · exact DashboardCall.silent_of_step hstep (h.posts _ (List.mem_of_getElem? hcall))

end Silent
end DashboardCluster
end NomadLite
