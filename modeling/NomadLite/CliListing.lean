import NomadLite.JobListing
import NomadLite.StableSort

/-!
# The list command

`job list` reads the jobs of a node from one stream, or page by page. The stream knows
the status filter alone; the pages know all filters, and each of them is cut out of the
queue as it is when its request arrives. On an unchanged queue both show the same jobs.
-/

namespace NomadLite

open MachineWord

/-! ### The client -/

structure ListJobsFilters where
  statusStr : Option String
  workerId : Option ℕ
  commandSubstr : Option String
  createdAfterMs : Option ℤ
  createdBeforeMs : Option ℤ
deriving DecidableEq

structure JobListItem where
  jobId : String
  status : String
  command : String
  assignedWorker : ℕ
  createdAtMs : ℤ
deriving DecidableEq

structure JobListOutput where
  jobs : List JobListItem
  totalCount : ℕ
  hasMore : Bool
deriving DecidableEq

/-- The command ends with `exit(1)`, or with the status of a call as the error of `main`. -/
inductive JobListError where
  | exited
  | status (status : Status)
deriving DecidableEq

structure JobListRun where
  stderr : List String
  result : Except JobListError JobListOutput

/-- The answer to the request for a page number `k`, and the stream, which may break off. -/
structure SchedulerClient where
  listJobs : ℕ → ListJobsRequest → Except Status ListJobsResponse
  streamJobs : ℤ → Except Status (List (Except Status JobInfo))

def jobStatusToString (status : ℤ) : String :=
  match Proto.JobStatus.ofI32 status with
  | .pending => "PENDING"
  | .running => "RUNNING"
  | .completed => "COMPLETED"
  | .failed => "FAILED"
  | .cancelled => "CANCELLED"
  | .unspecified => "UNKNOWN"

def JobInfo.listItem (job : JobInfo) : JobListItem where
  jobId := job.jobId
  status := jobStatusToString job.status
  command := job.command
  assignedWorker := job.assignedWorker
  createdAtMs := job.createdAtMs

namespace ListJobsFilters

/-- The value of `--status`, or the line that is printed before `exit(1)`. -/
def statusFilter (filters : ListJobsFilters) : Except String ℤ :=
  match filters.statusStr.map String.toLower with
  | none => .ok 0
  | some "pending" => .ok Proto.JobStatus.pending.toI32
  | some "running" => .ok Proto.JobStatus.running.toI32
  | some "completed" => .ok Proto.JobStatus.completed.toI32
  | some "failed" => .ok Proto.JobStatus.failed.toI32
  | some "cancelled" => .ok Proto.JobStatus.cancelled.toI32
  | some other => .error ("Error: Unknown status '" ++ other ++
      "'. Valid values: pending, running, completed, failed, cancelled")

def request (filters : ListJobsFilters) (pageSize : ℕ) (statusFilter : ℤ) (pageToken : String) :
    ListJobsRequest where
  pageSize := pageSize
  pageToken := pageToken
  statusFilter := statusFilter
  workerIdFilter := filters.workerId.getD 0
  commandFilter := filters.commandSubstr.getD ""
  createdAfterMs := filters.createdAfterMs.getD 0
  createdBeforeMs := filters.createdBeforeMs.getD 0

def streamWarning (filters : ListJobsFilters) : List String :=
  if filters.workerId.isSome || filters.commandSubstr.isSome || filters.createdAfterMs.isSome ||
      filters.createdBeforeMs.isSome then
    ["Warning: --stream only supports --status; --worker, --command-substr, and time filters " ++
      "are ignored"]
  else []

def statusOnly (filters : ListJobsFilters) : ListJobsFilters :=
  ⟨filters.statusStr, none, none, none, none⟩

end ListJobsFilters

section Client

variable (display : Status → String) (client : SchedulerClient)

def readStream : List (Except Status JobInfo) → List JobListItem × List String
  | [] => ([], [])
  | .ok job :: rest => ((job.listItem :: (readStream rest).1), (readStream rest).2)
  | .error e :: _ => ([], ["Stream error: " ++ display e])

def readPages (all : Bool) (request : String → ListJobsRequest) :
    (fuel k : ℕ) → String → List JobListItem → Option (Except Status JobListOutput)
  | 0, _, _, _ => none
  | fuel + 1, k, pageToken, allJobs =>
    match client.listJobs k (request pageToken) with
    | .error e => some (.error e)
    | .ok response =>
      let allJobs := allJobs ++ response.jobs.map JobInfo.listItem
      if response.nextPageToken = "" ∨ all = false then
        some (.ok ⟨allJobs, response.totalCount, response.nextPageToken ≠ ""⟩)
      else readPages all request fuel (k + 1) response.nextPageToken allJobs

/-- `display` is how a status is printed; `fuel` bounds the number of pages. -/
def handleJobList (stream : Bool) (pageSize : ℕ) (all : Bool) (filters : ListJobsFilters)
    (fuel : ℕ) : Option JobListRun :=
  match filters.statusFilter with
  | .error message => some ⟨[message], .error .exited⟩
  | .ok statusFilter =>
    if stream then
      match client.streamJobs statusFilter with
      | .error e => some ⟨filters.streamWarning, .error (.status e)⟩
      | .ok sent =>
        let (jobs, errors) := readStream display sent
        some ⟨filters.streamWarning ++ errors, .ok ⟨jobs, jobs.length % u32, false⟩⟩
    else
      (readPages client all (filters.request pageSize statusFilter) fuel 0 "" []).map
        fun result => ⟨[], result.mapError .status⟩

end Client

/-! ### The node -/

section Node

variable (lib : WireLib) (toLowercase : String → String)

def JobQueue.Iteration.allJobs {q : JobQueue} (it : q.Iteration) : List Job :=
  it.values.insertionSort fun a b => a.createdAt.le b.createdAt

/-- What `stream_jobs` sends. An unknown number is no filter, like `Unspecified`. -/
def JobQueue.Iteration.streamJobs {q : JobQueue} (it : q.Iteration) (statusFilter : ℤ) :
    List JobInfo :=
  let filter := Proto.JobStatus.ofI32 statusFilter
  (it.allJobs.filter fun job =>
    !(filter ≠ .unspecified && statusToProto job.status ≠ filter)).map (Job.info lib)

def servedBy {q : ℕ → JobQueue} (it : ∀ k, (q k).Iteration) : SchedulerClient where
  listJobs k := (it k).listJobs lib toLowercase
  streamJobs statusFilter := .ok (((it 0).streamJobs lib statusFilter).map .ok)

end Node

/-! ### The loop over the pages follows the tokens -/

def shownPages (allJobs : List JobListItem) (totalCount : ℕ) (pages : List ListJobsResponse) :
    JobListOutput where
  jobs := allJobs ++ (pages.flatMap ListJobsResponse.jobs).map JobInfo.listItem
  totalCount := pages.foldl (fun _ page => page.totalCount) totalCount
  hasMore := false

theorem readPages_eq (client : SchedulerClient) (request : String → ListJobsRequest)
    (fuel k : ℕ) (pageToken : String) (allJobs : List JobListItem) (totalCount : ℕ) :
    readPages client true request fuel k pageToken allJobs =
      (CursorPaging.followThrough ListJobsResponse.next
        (fun k pageToken => client.listJobs k (request pageToken)) fuel k pageToken).map
          (Except.map (shownPages allJobs totalCount)) := by
  induction fuel generalizing k pageToken allJobs totalCount with
  | zero => rfl
  | succ fuel ih =>
    rw [readPages, CursorPaging.followThrough]
    cases hserve : client.listJobs k (request pageToken) with
    | error e => rfl
    | ok page =>
      dsimp only
      by_cases hlast : page.nextPageToken = ""
      · rw [if_pos (.inl hlast), show page.next = none from if_pos hlast]
        simp [shownPages, hlast, Except.map]
      · rw [if_neg (by simp [hlast]), show page.next = some page.nextPageToken from if_neg hlast,
          ih (k + 1) page.nextPageToken _ page.totalCount]
        dsimp only
        rw [Option.map_map]
        congr 1
        funext result
        cases result with
        | error e => rfl
        | ok pages => simp [shownPages, Except.map]

theorem readStream_map_ok (display : Status → String) (jobs : List JobInfo) :
    readStream display (jobs.map .ok) = (jobs.map JobInfo.listItem, []) := by
  induction jobs with
  | nil => rfl
  | cons job jobs ih => rw [List.map_cons, readStream, ih, List.map_cons]

/-! ### One queue, read both ways -/

instance : IsTrans Job fun a b => a.createdAt.le b.createdAt where
  trans a b c hab hbc := by
    simp only [DateTime.le] at hab hbc ⊢
    omega

instance : Std.Total fun a b : Job => a.createdAt.le b.createdAt where
  total a b := by
    simp only [DateTime.le]
    omega

section Unchanged

variable (lib : WireLib) (toLowercase : String → String) {q : JobQueue} (it : q.Iteration)

omit lib toLowercase in
theorem eq_protoToStatus_iff (filter : Proto.JobStatus) (h : filter ≠ .unspecified)
    (status : JobStatus) : status = protoToStatus filter h ↔ statusToProto status = filter := by
  cases filter <;> cases status <;>
    simp [protoToStatus, statusToProto, internalStatusToProto] at h ⊢

theorem accepts_statusOnly (filters : ListJobsFilters) (pageSize : ℕ) (statusFilter : ℤ)
    (pageToken : String) (job : Job) :
    ((filters.statusOnly.request pageSize statusFilter pageToken).filter).accepts lib toLowercase
        job =
      !(Proto.JobStatus.ofI32 statusFilter ≠ .unspecified &&
        statusToProto job.status ≠ Proto.JobStatus.ofI32 statusFilter) := by
  by_cases h : Proto.JobStatus.ofI32 statusFilter = .unspecified
  · simp [ListJobsFilters.request, ListJobsFilters.statusOnly, ListJobsRequest.filter,
      JobFilter.accepts, JobFilter.acceptsRest, JobFilter.acceptsTime, h]
  · simp [ListJobsFilters.request, ListJobsFilters.statusOnly, ListJobsRequest.filter,
      JobFilter.accepts, JobFilter.acceptsRest, JobFilter.acceptsTime, h, eq_protoToStatus_iff]

/-- The stream filters what it has sorted, the pages sort what they have filtered. -/
theorem streamJobs_eq (filters : ListJobsFilters) (pageSize : ℕ) (statusFilter : ℤ)
    (pageToken : String) :
    it.streamJobs lib statusFilter =
      (it.filteredJobs lib toLowercase
        (filters.statusOnly.request pageSize statusFilter pageToken).filter).map
          (Job.info lib) := by
  rw [JobQueue.Iteration.streamJobs, JobQueue.Iteration.allJobs, StableSort.filter_insertionSort,
    JobQueue.Iteration.filteredJobs]
  congr 2
  exact List.filter_congr fun job _ => (accepts_statusOnly lib toLowercase ..).symm

theorem length_filteredJobs_le (filter : JobFilter) :
    (it.filteredJobs lib toLowercase filter).length ≤ it.values.length :=
  (it.perm_filteredJobs lib toLowercase filter).length_eq.trans_le (List.length_filter_le _ _)

theorem foldl_totalCount {pages : List ListJobsResponse} {n : ℕ}
    (h : ∀ page ∈ pages, page.totalCount = n) :
    pages.foldl (fun _ page => page.totalCount) n = n := by
  induction pages with
  | nil => rfl
  | cons page pages ih =>
    rw [List.foldl_cons, h page List.mem_cons_self]
    exact ih fun page hpage => h page (List.mem_cons_of_mem _ hpage)

theorem readPages_servedBy (filters : ListJobsFilters) (pageSize : ℕ) (statusFilter : ℤ)
    (hsmall : it.values.length < u32) {fuel : ℕ} (hfuel : it.values.length < fuel) :
    readPages (servedBy lib toLowercase fun _ => it) true
        (filters.request pageSize statusFilter) fuel 0 "" [] =
      some (.ok ⟨((it.filteredJobs lib toLowercase
          (filters.request pageSize statusFilter "").filter).map (Job.info lib)).map
            JobInfo.listItem,
        (it.filteredJobs lib toLowercase
          (filters.request pageSize statusFilter "").filter).length, false⟩) := by
  set req := filters.request pageSize statusFilter "" with hreq
  have hle := length_filteredJobs_le lib toLowercase it req.filter
  have hslices := it.slices_listJobs lib toLowercase req (hle.trans_lt hsmall)
  have hstart : { req with pageToken := "" }.offset = .ok 0 := if_pos rfl
  have hpos := req.effectivePageSize_pos
  have henough : ((it.filteredJobs lib toLowercase req.filter).map (Job.info lib)).length - 0 <
      fuel * req.effectivePageSize := by
    rw [List.length_map, Nat.sub_zero]
    exact (hle.trans_lt hfuel).trans_le (Nat.le_mul_of_pos_right fuel hpos)
  obtain ⟨pages, hpages, hflat, htotal⟩ := hslices.follow hstart henough
  rw [readPages_eq _ _ _ _ _ _ (it.filteredJobs lib toLowercase req.filter).length]
  have hfollow := (CursorPaging.followThrough_const fuel 0 "").trans hpages
  change (CursorPaging.followThrough ListJobsResponse.next
    (fun _ pageToken => it.listJobs lib toLowercase { req with pageToken := pageToken })
      fuel 0 "").map _ = _
  rw [hfollow, Option.map_some, Except.map, shownPages, List.nil_append, hflat, List.drop_zero,
    foldl_totalCount htotal]

/-- A stream shows what all pages show, apart from the filters that it ignores. -/
theorem stream_agrees_with_pages (display : Status → String) (pageSize streamPageSize : ℕ)
    (all : Bool) (filters : ListJobsFilters) (streamFuel : ℕ) (hsmall : it.values.length < 2 ^ 32) :
    ∃ result,
      (handleJobList display (servedBy lib toLowercase fun _ => it) true streamPageSize all filters
        streamFuel).map JobListRun.result = some result ∧
      ∀ fuel, it.values.length < fuel →
        (handleJobList display (servedBy lib toLowercase fun _ => it) false pageSize true
          filters.statusOnly fuel).map JobListRun.result = some result := by
  have hsame : filters.statusOnly.statusFilter = filters.statusFilter := rfl
  cases hstatus : filters.statusFilter with
  | error message =>
    refine ⟨.error .exited, ?_, fun fuel _ => ?_⟩
    · rw [handleJobList, hstatus]
      rfl
    · rw [handleJobList, hsame, hstatus]
      rfl
  | ok statusFilter =>
    have hjobs := streamJobs_eq lib toLowercase it filters pageSize statusFilter ""
    have hfits : (it.filteredJobs lib toLowercase
        (filters.statusOnly.request pageSize statusFilter "").filter).length < u32 :=
      (length_filteredJobs_le lib toLowercase it _).trans_lt hsmall
    have hstream : (handleJobList display (servedBy lib toLowercase fun _ => it) true
        streamPageSize all filters streamFuel).map JobListRun.result =
          some (.ok ⟨(it.streamJobs lib statusFilter).map JobInfo.listItem,
            (it.streamJobs lib statusFilter).length % u32, false⟩) := by
      simp only [handleJobList, hstatus, servedBy, if_true, readStream_map_ok, List.length_map,
        Option.map_some]
    refine ⟨_, hstream, fun fuel hfuel => ?_⟩
    rw [handleJobList, hsame, hstatus]
    dsimp only
    rw [if_neg Bool.false_ne_true, readPages_servedBy lib toLowercase it _ _ _ hsmall hfuel, hjobs,
      List.length_map, Nat.mod_eq_of_lt hfits]
    rfl

end Unchanged

theorem three_jobs_streamed :
    ∃ result,
      (handleJobList Status.message (servedBy .standard String.toLower fun _ => threeListed) true 0
        false ⟨some "Pending", some 2, none, none, none⟩ 0).map JobListRun.result = some result ∧
      (handleJobList Status.message (servedBy .standard String.toLower fun _ => threeListed) false 2
        true ⟨some "Pending", none, none, none, none⟩ 4).map JobListRun.result = some result := by
  obtain ⟨result, hstream, hpages⟩ := stream_agrees_with_pages .standard String.toLower threeListed
    Status.message 2 0 false ⟨some "Pending", some 2, none, none, none⟩ 0 (by decide)
  exact ⟨result, hstream, hpages 4 (by decide)⟩

end NomadLite
