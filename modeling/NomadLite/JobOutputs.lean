import NomadLite.AtMostOnce
import NomadLite.JobListing
import NomadLite.QueueMoves

/-!
# Where the output of a job comes from

The output of a job stays on the node that ran it: neither the log nor a snapshot
carries it. `get_job_status` answers from the queue of the node that is asked if that
node is the one recorded in `executed_by`, and asks that node otherwise; the dashboard
shows what the queue of its own node has, whoever is recorded. The history keeps every
result that a worker loop has stored.
-/

namespace NomadLite

/-! ### The RPCs -/

structure GetJobStatusResponse where
  jobId : String
  status : ℤ
  output : String
  error : String
  assignedWorker : ℕ
  executedBy : ℕ
  exitCode : Option ℤ
  createdAtMs : ℤ
  completedAtMs : Option ℤ
deriving DecidableEq

structure GetJobOutputResponse where
  jobId : String
  output : String
  error : String
  found : Bool
deriving DecidableEq

structure JobResponse where
  id : String
  command : String
  status : String
  executedBy : Option ℕ
  output : Option String
  error : Option String
  createdAt : String
  completedAt : Option String
deriving DecidableEq

namespace Job

def statusResponse (lib : WireLib) (job : Job) : GetJobStatusResponse where
  jobId := lib.uuidToString job.id
  status := (statusToProto job.status).toI32
  output := ""
  error := ""
  assignedWorker := job.assignedWorker.getD 0
  executedBy := job.executedBy.getD 0
  exitCode := job.exitCode
  createdAtMs := job.createdAt.timestampMillis
  completedAtMs := job.completedAt.map DateTime.timestampMillis

def response (lib : WireLib) (rfc3339 : DateTime → String) (job : Job) : JobResponse where
  id := lib.uuidToString job.id
  command := job.command
  status := job.status.display
  executedBy := job.executedBy
  output := job.output
  error := job.error
  createdAt := rfc3339 job.createdAt
  completedAt := job.completedAt.map rfc3339

end Job

/-- `get_job_output` on node `x`: only the node recorded as the executing one has the output. -/
def Host.getJobOutput (lib : WireLib) (x : ℕ) (host : Host) (jobId : String) :
    Except Status GetJobOutputResponse :=
  match lib.parseStr jobId with
  | none => .error ⟨.invalidArgument, "Invalid job ID"⟩
  | some id =>
    match host.queue.getJob id with
    | none => .error ⟨.notFound, "Job not found"⟩
    | some job =>
      if job.executedBy = some x then
        .ok ⟨lib.uuidToString job.id, job.output.getD "", job.error.getD "", true⟩
      else .ok ⟨jobId, "", "", false⟩

inductive StatusStage where
  | reading
  | fetching (executedBy : ℕ) (jobId : Uuid) (response : GetJobStatusResponse)
  | fetched (reply : Except Status GetJobOutputResponse) (response : GetJobStatusResponse)
  | returned (result : Except Status GetJobStatusResponse)
deriving DecidableEq

structure StatusCall where
  node : ℕ
  jobId : String
  stage : StatusStage

inductive StatusEvent where
  | readQueue
  | getJobOutput
  | fetchFailed
  | finish
deriving DecidableEq

namespace StatusCall

/-- The piece under the read lock of the queue: the answer, or what to ask the executing node. -/
def read (lib : WireLib) (x : ℕ) (host : Host) (jobId : String) : StatusStage :=
  match lib.parseStr jobId with
  | none => .returned (.error ⟨.invalidArgument, "Invalid job ID"⟩)
  | some id =>
    match host.queue.getJob id with
    | none => .returned (.error ⟨.notFound, "Job not found"⟩)
    | some job =>
      let response := job.statusResponse lib
      match job.executedBy with
      | none => .returned (.ok response)
      | some executedBy =>
        if executedBy = x then
          .returned (.ok { response with
            output := job.output.getD ""
            error := job.error.getD "" })
        else if job.status = .completed ∨ job.status = .failed then .fetching executedBy id response
        else .returned (.ok response)

/-- A reply that does not have the output counts as none. -/
def withOutput (response : GetJobStatusResponse) :
    Except Status GetJobOutputResponse → GetJobStatusResponse
  | .ok reply =>
    if reply.found then { response with output := reply.output, error := reply.error }
    else response
  | .error _ => response

/-- One piece of the call. The executing node is asked if it is a configured peer; whatever goes
wrong, the answer is given without output. -/
def step (lib : WireLib) (hosts : ℕ → Host) (call : StatusCall) (ev : StatusEvent) :
    Option StatusCall :=
  match ev, call.stage with
  | .readQueue, .reading =>
    some { call with stage := read lib call.node (hosts call.node) call.jobId }
  | .getJobOutput, .fetching executedBy jobId response =>
    if (hosts call.node).peers.any fun p => p.nodeId = executedBy then
      let reply := (hosts executedBy).getJobOutput lib executedBy (lib.uuidToString jobId)
      some { call with stage := .fetched reply response }
    else none
  | .fetchFailed, .fetching _ _ response => some { call with stage := .returned (.ok response) }
  | .fetchFailed, .fetched _ response => some { call with stage := .returned (.ok response) }
  | .finish, .fetched reply response =>
    some { call with stage := .returned (.ok (withOutput response reply)) }
  | _, _ => none

end StatusCall

/-! ### The cluster with its readers -/

structure OutputCluster where
  posts : DashboardCluster
  results : List (ℕ × Uuid × ExecutionResult)
  calls : List StatusCall
  listings : List (ℕ × List JobResponse)

inductive OutputEvent where
  | dashboard (ev : DashboardEvent)
  | getJobStatus (x : ℕ) (jobId : String)
  | status (c : ℕ) (ev : StatusEvent)
  | listJobs (x : ℕ) (jobs : List Job)

namespace OutputCluster

def jobs (oc : OutputCluster) : JobCluster := oc.posts.jobs

def start (ids : List ℕ) (peers : ℕ → List PeerConfig) : OutputCluster :=
  ⟨⟨.start ids peers, []⟩, [], [], []⟩

def storing (oc : OutputCluster) : DashboardEvent → List (ℕ × Uuid × ExecutionResult)
  | .jobs (.work x (.storeResult _)) =>
    match (oc.jobs.sites x).worker with
    | .storing job result _ => [(x, job.id, result)]
    | _ => []
  | _ => []

def step (lib : WireLib) (rfc3339 : DateTime → String) (ids : List ℕ) (oc : OutputCluster) :
    OutputEvent → Option OutputCluster
  | .dashboard ev => (oc.posts.step lib ids ev).map fun posts =>
      { oc with posts := posts, results := oc.results ++ oc.storing ev }
  | .getJobStatus x jobId => some { oc with calls := oc.calls ++ [⟨x, jobId, .reading⟩] }
  | .status c ev => do
    let call ← oc.calls[c]?
    let call' ← call.step lib oc.jobs.host ev
    some { oc with calls := oc.calls.set c call' }
  | .listJobs x jobs =>
    if (oc.jobs.queue x).AllJobs jobs then
      some { oc with listings := oc.listings ++ [(x, jobs.map (Job.response lib rfc3339))] }
    else none

end OutputCluster

/-! ### What has been started -/

def JobCluster.Started (jc : JobCluster) : Prop :=
  ∀ x, ∀ id ∈ (jc.sites x).worker.current, (x, id) ∈ jc.executed

namespace JobCluster

variable {lib : WireLib} {ids : List ℕ} {jc jc' : JobCluster} {ev : JobEvent}

theorem Stepped.executed_subset (h : Stepped lib ids jc ev jc') : jc.executed ⊆ jc'.executed := by
  cases h with
  | work => exact List.subset_append_left ..
  | _ => exact List.Subset.refl _

theorem Started.work (h : jc.Started) {x : ℕ} {wev : WorkerEvent} {host : Host} {site : Site}
    (hworked : Site.Worked x (jc.node x) jc.forwards (jc.host x) (jc.sites x) wev host site) :
    ∀ id ∈ site.worker.current, (x, id) ∈ jc.executed ++ jc.starting x wev := by
  intro id hid
  cases hworked with
  | @execute job todo updates hworker =>
    obtain rfl : job.id = id := Option.some.inj hid
    refine List.mem_append_right _ ?_
    rw [starting, hworker]
    exact List.mem_singleton_self _
  | finish hworker hended hstatus =>
    refine List.mem_append_left _ (h x id ?_)
    rw [hworker]
    exact hid
  | _ => cases hid

theorem Started.step (h : jc.Started) (hstep : Stepped lib ids jc ev jc') : jc'.Started := by
  intro y id hid
  by_cases hev : ∃ wev, ev = .work y wev
  · obtain ⟨wev, rfl⟩ := hev
    cases hstep with
    | work hworked =>
      rw [worker_work_self] at hid
      exact h.work hworked id hid
  · rw [hstep.worker_eq fun wev hwev => hev ⟨wev, hwev⟩] at hid
    exact hstep.executed_subset (h y id hid)

end JobCluster

theorem JobQueue.AllJobs.getJob {q : JobQueue} {jobs : List Job} (h : q.AllJobs jobs) {job : Job}
    (hjob : job ∈ jobs) : q.getJob job.id = some job := by
  refine Finmap.lookup_eq_some_iff.mpr ?_
  rw [← h.1]
  exact List.mem_map.mpr ⟨job, hjob, rfl⟩

theorem DashboardCluster.Stepped.executed_subset {lib : WireLib} {ids : List ℕ}
    {dc dc' : DashboardCluster} {ev : DashboardEvent} (h : Stepped lib ids dc ev dc') :
    dc.jobs.executed ⊆ dc'.jobs.executed := by
  cases h with
  | jobs hstep => exact hstep.executed_subset
  | submitJob | post => exact List.Subset.refl _

theorem DashboardCall.record_worker (call : DashboardCall) (host : Host) (ev : PostEvent)
    (site : Site) : (call.record host ev site).worker = site.worker := by
  unfold record
  split <;> rfl

theorem DashboardCluster.Stepped.started {lib : WireLib} {ids : List ℕ}
    {dc dc' : DashboardCluster} {ev : DashboardEvent} (h : Stepped lib ids dc ev dc')
    (hstarted : dc.jobs.Started) : dc'.jobs.Started := by
  cases h with
  | jobs hstep => exact hstarted.step hstep
  | submitJob => exact hstarted
  | post hcall hstep =>
    intro y id hid
    rw [JobCluster.worker_set (DashboardCall.record_worker ..)] at hid
    exact hstarted y id hid

/-! ### Outputs -/

def OutputCluster.Stored (oc : OutputCluster) (x : ℕ) (id : Uuid) (output error : Option String) :
    Prop :=
  ∃ result, (x, id, result) ∈ oc.results ∧ result.output = output ∧ result.error = error

def OutputCluster.Sourced (oc : OutputCluster) (x : ℕ) (id : Uuid) (output error : Option String) :
    Prop :=
  (output = none ∧ error = none) ∨ oc.Stored x id output error

def OutputCluster.Answers (lib : WireLib) (oc : OutputCluster) (x : ℕ)
    (jobId output error : String) : Prop :=
  (output = "" ∧ error = "") ∨ ∃ id output' error', lib.parseStr jobId = some id ∧
    oc.Stored x id output' error' ∧ output = output'.getD "" ∧ error = error'.getD ""

namespace OutputCluster

variable {lib : WireLib} {rfc3339 : DateTime → String} {ids : List ℕ} {oc oc' : OutputCluster}
  {ev : OutputEvent} {x : ℕ}

theorem Sourced.answers {jobId : String} {id : Uuid} {output error : Option String}
    (h : oc.Sourced x id output error) (hid : lib.parseStr jobId = some id) :
    oc.Answers lib x jobId (output.getD "") (error.getD "") := by
  rcases h with ⟨rfl, rfl⟩ | hstored
  · exact .inl ⟨rfl, rfl⟩
  · exact .inr ⟨id, output, error, hid, hstored, rfl, rfl⟩

theorem Stored.mono (hsub : oc.results ⊆ oc'.results) {id : Uuid} {output error : Option String}
    (h : oc.Stored x id output error) : oc'.Stored x id output error := by
  obtain ⟨result, hmem, heq⟩ := h
  exact ⟨result, hsub hmem, heq⟩

theorem Answers.mono (hsub : oc.results ⊆ oc'.results) {jobId output error : String}
    (h : oc.Answers lib x jobId output error) : oc'.Answers lib x jobId output error := by
  refine h.imp_right ?_
  rintro ⟨id, output', error', hid, hstored, heq⟩
  exact ⟨id, output', error', hid, hstored.mono hsub, heq⟩

def Backs (lib : WireLib) (oc : OutputCluster) (call : StatusCall) : Prop :=
  match call.stage with
  | .reading => True
  | .fetching executedBy jobId response =>
    lib.parseStr call.jobId = some jobId ∧ response.executedBy = executedBy ∧
      response.output = "" ∧ response.error = ""
  | .fetched reply response =>
    (response.output = "" ∧ response.error = "") ∧ ∀ r, reply = .ok r →
      oc.Answers lib response.executedBy call.jobId r.output r.error
  | .returned result => ∀ response, result = .ok response →
      oc.Answers lib response.executedBy call.jobId response.output response.error

theorem Backs.mono (hsub : oc.results ⊆ oc'.results) {call : StatusCall}
    (h : oc.Backs lib call) : oc'.Backs lib call := by
  unfold Backs at h ⊢
  split
  · trivial
  · next hstage => rwa [hstage] at h
  · next hstage =>
    rw [hstage] at h
    exact ⟨h.1, fun r hr => (h.2 r hr).mono hsub⟩
  · next hstage =>
    rw [hstage] at h
    exact fun response hok => (h response hok).mono hsub

structure Traced (lib : WireLib) (oc : OutputCluster) : Prop where
  silent : oc.posts.Silent
  started : oc.jobs.Started
  results : ∀ x id result, (x, id, result) ∈ oc.results → (x, id) ∈ oc.jobs.executed
  queues : ∀ x id job, (oc.jobs.queue x).getJob id = some job →
    oc.Sourced x job.id job.output job.error
  calls : ∀ call ∈ oc.calls, oc.Backs lib call
  listings : ∀ x rows, (x, rows) ∈ oc.listings → ∀ row ∈ rows, ∃ id,
    row.id = lib.uuidToString id ∧ oc.Sourced x id row.output row.error

namespace Traced

theorem start (lib : WireLib) (ids : List ℕ) (peers : ℕ → List PeerConfig) :
    (OutputCluster.start ids peers).Traced lib where
  silent := ⟨fun _ hmem => absurd hmem List.not_mem_nil, fun _ hmem => absurd hmem List.not_mem_nil⟩
  started x id hid := by cases hid
  results x id result hmem := absurd hmem List.not_mem_nil
  queues x id job hjob := by
    rw [show ((OutputCluster.start ids peers).jobs.queue x).getJob id = none from
      Finmap.lookup_empty id] at hjob
    cases hjob
  calls call hmem := absurd hmem List.not_mem_nil
  listings x rows hmem := absurd hmem List.not_mem_nil

/-! #### Readers -/

theorem answers_getJobOutput (h : oc.Traced lib) {jobId jobId' : String} {id : Uuid}
    (hjobId : lib.parseStr jobId = some id) (hjobId' : lib.parseStr jobId' = some id)
    {r : GetJobOutputResponse} (hr : (oc.jobs.host x).getJobOutput lib x jobId' = .ok r) :
    oc.Answers lib x jobId r.output r.error := by
  rw [Host.getJobOutput, hjobId'] at hr
  dsimp only at hr
  cases hjob : (oc.jobs.host x).queue.getJob id with
  | none =>
    rw [hjob] at hr
    cases hr
  | some job =>
    rw [hjob] at hr
    dsimp only at hr
    split_ifs at hr
    · obtain rfl := Except.ok.inj hr
      have hsourced := h.queues x id job hjob
      rw [JobQueue.id_of_getJob hjob] at hsourced
      exact hsourced.answers hjobId
    · obtain rfl := Except.ok.inj hr
      exact .inl ⟨rfl, rfl⟩

theorem backs_read (h : oc.Traced lib) (jobId : String) :
    oc.Backs lib ⟨x, jobId, StatusCall.read lib x (oc.jobs.host x) jobId⟩ := by
  unfold StatusCall.read
  split
  · exact fun _ hok => by cases hok
  · next id hid =>
    split
    · exact fun _ hok => by cases hok
    · next job hjob =>
      split
      · exact fun _ hok => Except.ok.inj hok ▸ .inl ⟨rfl, rfl⟩
      · next executedBy hexecuted =>
        split_ifs with hself hended
        · intro response hok
          obtain rfl := Except.ok.inj hok
          have hsourced := h.queues x id job hjob
          rw [JobQueue.id_of_getJob hjob] at hsourced
          have hx : job.executedBy.getD 0 = x := by rw [hexecuted, ← hself]; rfl
          change oc.Answers lib (job.executedBy.getD 0) jobId _ _
          rw [hx]
          exact hsourced.answers hid
        · exact ⟨hid, by rw [Job.statusResponse, hexecuted]; rfl, rfl, rfl⟩
        · exact fun _ hok => Except.ok.inj hok ▸ .inl ⟨rfl, rfl⟩

theorem backs_step (h : oc.Traced lib) {call call' : StatusCall} {sev : StatusEvent}
    (hback : oc.Backs lib call) (hstep : call.step lib oc.jobs.host sev = some call') :
    oc.Backs lib call' := by
  unfold StatusCall.step at hstep
  split at hstep
  · obtain rfl := Option.some.inj hstep
    exact h.backs_read call.jobId
  · next executedBy jobId response hstage =>
    split_ifs at hstep
    obtain rfl := Option.some.inj hstep
    unfold Backs at hback
    rw [hstage] at hback
    obtain ⟨hid, rfl, hempty⟩ := hback
    exact ⟨hempty, fun r hr => h.answers_getJobOutput hid (lib.parseStr_uuidToString jobId) hr⟩
  · next executedBy jobId response hstage =>
    obtain rfl := Option.some.inj hstep
    unfold Backs at hback
    rw [hstage] at hback
    exact fun _ hok => Except.ok.inj hok ▸ .inl hback.2.2
  · next reply response hstage =>
    obtain rfl := Option.some.inj hstep
    unfold Backs at hback
    rw [hstage] at hback
    exact fun _ hok => Except.ok.inj hok ▸ .inl hback.1
  · next reply response hstage =>
    obtain rfl := Option.some.inj hstep
    unfold Backs at hback
    rw [hstage] at hback
    intro response' hok
    obtain rfl := Except.ok.inj hok
    cases reply with
    | error e => exact .inl hback.1
    | ok r =>
      rw [StatusCall.withOutput]
      split_ifs
      · exact hback.2 r rfl
      · exact .inl hback.1
  · cases hstep

theorem sourced_response (h : oc.Traced lib) {jobs : List Job}
    (hjobs : (oc.jobs.queue x).AllJobs jobs) (rfc3339 : DateTime → String) {row : JobResponse}
    (hrow : row ∈ jobs.map (Job.response lib rfc3339)) :
    ∃ id, row.id = lib.uuidToString id ∧ oc.Sourced x id row.output row.error := by
  obtain ⟨job, hjob, rfl⟩ := List.mem_map.mp hrow
  exact ⟨job.id, rfl, h.queues x job.id job (hjobs.getJob hjob)⟩

/-! #### Steps -/

theorem mem_storing {dev : DashboardEvent} {id : Uuid} {result : ExecutionResult}
    (h : oc.posts.Stores x dev id result) : (x, id, result) ∈ oc.storing dev := by
  obtain ⟨jev, rfl, now, job, batch, rfl, hworker, rfl⟩ := h
  rw [storing, show (oc.jobs.sites x).worker = _ from hworker]
  exact List.mem_singleton_self _

theorem executed_of_storing (h : oc.Traced lib) {dev : DashboardEvent} {y : ℕ} {id : Uuid}
    {result : ExecutionResult} (hmem : (y, id, result) ∈ oc.storing dev) :
    (y, id) ∈ oc.jobs.executed := by
  unfold storing at hmem
  split at hmem
  · next x now =>
    split at hmem
    · next job result' batch hworker =>
      obtain ⟨rfl, rfl, rfl⟩ := Prod.mk.injEq .. ▸ List.mem_singleton.mp hmem
      exact h.started _ _ (hworker ▸ rfl)
    · cases hmem
  · cases hmem

theorem dashboard (h : oc.Traced lib) {dev : DashboardEvent} {posts : DashboardCluster}
    (hstep : oc.posts.Stepped lib ids dev posts) :
    Traced lib { oc with posts := posts, results := oc.results ++ oc.storing dev } := by
  have hsub : oc.results ⊆ oc.results ++ oc.storing dev := List.subset_append_left ..
  have hold : ∀ {y id output error}, oc.Sourced y id output error →
      Sourced { oc with posts := posts, results := oc.results ++ oc.storing dev }
        y id output error := fun hsourced => hsourced.imp_right (Stored.mono hsub)
  refine ⟨h.silent.step hstep, hstep.started h.started, fun y id result hmem => ?_,
    fun y => ?_, fun call hcall => (h.calls call hcall).mono hsub, fun y rows hmem row hrow => ?_⟩
  · refine hstep.executed_subset ?_
    rcases List.mem_append.mp hmem with hmem | hnew
    · exact h.results y id result hmem
    · exact h.executed_of_storing hnew
  · refine (hstep.queueMove y).forall_jobs (fun id job hjob => hold (h.queues y id job hjob))
      (fun job hadds => .inl (h.silent.adds hadds)) (fun id => .inl ⟨rfl, rfl⟩)
      fun id result hstores =>
        .inr ⟨result, List.mem_append_right _ (mem_storing hstores), rfl, rfl⟩
  · obtain ⟨id, hid, hsourced⟩ := h.listings y rows hmem row hrow
    exact ⟨id, hid, hold hsourced⟩

theorem step (h : oc.Traced lib) (hstep : oc.step lib rfc3339 ids ev = some oc') :
    oc'.Traced lib := by
  cases ev with
  | dashboard dev =>
    obtain ⟨posts, hposts, rfl⟩ := Option.map_eq_some_iff.mp hstep
    exact h.dashboard (DashboardCluster.stepped_of_step hposts)
  | getJobStatus x jobId =>
    obtain rfl := Option.some.inj hstep
    refine { h with calls := fun call hmem => ?_ }
    rcases List.mem_append.mp hmem with hold | hnew
    · exact h.calls call hold
    · obtain rfl := List.mem_singleton.mp hnew
      exact trivial
  | status c sev =>
    obtain ⟨call, hcall, hrest⟩ := Option.bind_eq_some_iff.mp hstep
    obtain ⟨call', hcall', heq⟩ := Option.bind_eq_some_iff.mp hrest
    obtain rfl := Option.some.inj heq
    refine { h with calls := fun call₁ hmem => ?_ }
    rcases List.mem_or_eq_of_mem_set hmem with hold | rfl
    · exact h.calls call₁ hold
    · exact h.backs_step (h.calls call (List.mem_of_getElem? hcall)) hcall'
  | listJobs x jobs =>
    rw [OutputCluster.step] at hstep
    split_ifs at hstep with hjobs
    obtain rfl := Option.some.inj hstep
    refine { h with listings := fun y rows hmem row hrow => ?_ }
    rcases List.mem_append.mp hmem with hold | hnew
    · exact h.listings y rows hold row hrow
    · obtain ⟨rfl, rfl⟩ := Prod.mk.inj (List.mem_singleton.mp hnew)
      exact h.sourced_response hjobs rfc3339 hrow

end Traced

/-- The output in an answer of `get_job_status`, if there is any, is what the node named in the
answer stored when it ran the job, whichever node was asked; what the dashboard lists is what its
own node stored. -/
theorem outputs_come_from_executor (lib : WireLib) (rfc3339 : DateTime → String) (ids : List ℕ)
    (peers : ℕ → List PeerConfig) {oc : OutputCluster}
    (h : Runs.Reach (step lib rfc3339 ids) (fun _ _ => True) (start ids peers) oc) :
    (∀ call ∈ oc.calls, ∀ response, call.stage = .returned (.ok response) →
      (response.output = "" ∧ response.error = "") ∨
        ∃ id result, lib.parseStr call.jobId = some id ∧
          (response.executedBy, id) ∈ oc.jobs.executed ∧
          (response.executedBy, id, result) ∈ oc.results ∧
          response.output = result.output.getD "" ∧ response.error = result.error.getD "") ∧
    ∀ x rows, (x, rows) ∈ oc.listings → ∀ row ∈ rows,
      (row.output = none ∧ row.error = none) ∨
        ∃ id result, row.id = lib.uuidToString id ∧ (x, id) ∈ oc.jobs.executed ∧
          (x, id, result) ∈ oc.results ∧ row.output = result.output ∧ row.error = result.error := by
  have htraced : oc.Traced lib :=
    h.invariant (Traced.start lib ids peers) fun ht _ hstep => ht.step hstep
  refine ⟨fun call hcall response hstage => ?_, fun x rows hmem row hrow => ?_⟩
  · have hback := htraced.calls call hcall
    unfold Backs at hback
    rw [hstage] at hback
    refine (hback response rfl).imp_right ?_
    rintro ⟨id, _, _, hid, ⟨result, hresult, rfl, rfl⟩, houtput, herror⟩
    exact ⟨id, result, hid, htraced.results _ _ _ hresult, hresult, houtput, herror⟩
  · obtain ⟨id, hid, hsourced⟩ := htraced.listings x rows hmem row hrow
    refine hsourced.imp_right ?_
    rintro ⟨result, hresult, houtput, herror⟩
    exact ⟨id, result, hid, htraced.results _ _ _ hresult, hresult, houtput.symm, herror.symm⟩

def ranAndAsked : List OutputEvent :=
  JobCluster.assignedThenExecuted.map (fun ev => .dashboard (.jobs ev)) ++
    [.dashboard (.jobs (.work 1 (.finish ⟨.completed, some 0, some "done", none⟩))),
      .dashboard (.jobs (.work 1 (.storeResult .epoch))),
      .getJobStatus 1 (WireLib.standard.uuidToString 7), .status 0 .readQueue]

def firstAnswer : GetJobStatusResponse where
  jobId := WireLib.standard.uuidToString 7
  status := 3
  output := "done"
  error := ""
  assignedWorker := 1
  executedBy := 1
  exitCode := some 0
  createdAtMs := 0
  completedAtMs := some 0

theorem output_of_first_job : ∃ oc,
    Runs.Reach (step .standard (fun _ => "") [1, 2]) (fun _ _ => True)
      (start [1, 2] fun _ => []) oc ∧
    oc.calls.map StatusCall.stage = [.returned (.ok firstAnswer)] ∧
    ∃ id result, (1, id) ∈ oc.jobs.executed ∧ (1, id, result) ∈ oc.results ∧
      "done" = result.output.getD "" := by
  obtain ⟨oc, hreach, hcalls⟩ := Runs.exists_reach_of_guardedRun
    (step .standard (fun _ => "") [1, 2]) (fun _ _ => True)
    (fun oc => oc.calls.map StatusCall.stage = [.returned (.ok firstAnswer)])
    (start [1, 2] fun _ => []) ranAndAsked (by decide +kernel)
  refine ⟨oc, hreach, hcalls, ?_⟩
  obtain ⟨call, hcall, hstage⟩ := List.mem_map.mp (hcalls ▸ List.mem_singleton_self _)
  obtain ⟨hanswers, -⟩ := outputs_come_from_executor .standard (fun _ => "") [1, 2] _ hreach
  rcases hanswers call hcall firstAnswer hstage with
    ⟨hempty, -⟩ | ⟨id, result, -, hrun, hmem, hout, -⟩
  · exact absurd hempty (by decide)
  · exact ⟨id, result, hrun, hmem, hout⟩

end OutputCluster
end NomadLite
