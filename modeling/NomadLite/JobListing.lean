import NomadLite.ClientService
import NomadLite.CursorPaging
import NomadLite.MachineWord

/-!
# Listing jobs

`filtered_jobs` goes through the hash map, keeps the jobs that pass every filter and
sorts them by creation time; jobs created at the same time stay in the order of the map.
`list_jobs` cuts a page out of the result. Its page token is the decimal offset of the
next page. `to_lowercase` of the standard library is a parameter.
-/

namespace NomadLite

open MachineWord

/-! ### Filters -/

structure JobFilter where
  status : Option JobStatus
  workerId : Option ℕ
  command : Option String
  createdAfterMs : Option ℤ
  createdBeforeMs : Option ℤ
deriving DecidableEq

def containsStr (s pattern : String) : Bool :=
  s.toList.tails.any fun rest => pattern.toList.isPrefixOf rest

section Filter

variable (lib : WireLib) (toLowercase : String → String)

def JobFilter.acceptsRest (filter : JobFilter) (job : Job) : Bool :=
  (filter.status.all fun status => job.status = status) &&
    (filter.workerId.all fun workerId =>
      job.assignedWorker = some workerId || job.executedBy = some workerId) &&
    (filter.command.map toLowercase).all fun lower => containsStr (toLowercase job.command) lower

/-- A bound that `chrono` cannot represent is no bound. -/
def JobFilter.acceptsTime (filter : JobFilter) (createdAt : DateTime) : Bool :=
  ((filter.createdAfterMs.bind lib.timestampMillisOpt).all fun after => after.le createdAt) &&
    (filter.createdBeforeMs.bind lib.timestampMillisOpt).all fun before => createdAt.le before

def JobFilter.accepts (filter : JobFilter) (job : Job) : Bool :=
  filter.acceptsRest toLowercase job && filter.acceptsTime lib job.createdAt

/-- The values of the map in the order in which it is iterated while it is unchanged. -/
structure JobQueue.Iteration (q : JobQueue) where
  values : List Job
  entries_eq : ((values.map fun job => (⟨job.id, job⟩ : (_ : Uuid) × Job) : List _) :
    Multiset _) = q.jobs.entries

namespace JobQueue.Iteration

variable {q : JobQueue} (it : q.Iteration)

def filteredJobs (filter : JobFilter) : List Job :=
  (it.values.filter (filter.accepts lib toLowercase)).insertionSort fun a b =>
    a.createdAt.le b.createdAt

theorem perm_filteredJobs (filter : JobFilter) :
    (it.filteredJobs lib toLowercase filter).Perm
      (it.values.filter (filter.accepts lib toLowercase)) :=
  List.perm_insertionSort _ _

theorem mem_filteredJobs_iff (filter : JobFilter) (job : Job) :
    job ∈ it.filteredJobs lib toLowercase filter ↔
      q.getJob job.id = some job ∧ filter.accepts lib toLowercase job = true := by
  rw [(it.perm_filteredJobs lib toLowercase filter).mem_iff, List.mem_filter]
  refine and_congr_left fun _ => ?_
  exact ⟨fun hmem => (lookup_eq_some_iff_mem it.entries_eq).mpr ⟨rfl, hmem⟩,
    fun hget => ((lookup_eq_some_iff_mem it.entries_eq).mp hget).2⟩

theorem mem_ids_filteredJobs_iff (filter : JobFilter) (id : Uuid) :
    id ∈ (it.filteredJobs lib toLowercase filter).map Job.id ↔
      (q.getJob id).any (filter.accepts lib toLowercase) = true := by
  rw [List.mem_map, Option.any_eq_true]
  constructor
  · rintro ⟨job, hmem, rfl⟩
    exact ⟨job, (it.mem_filteredJobs_iff lib toLowercase filter job).mp hmem⟩
  · rintro ⟨job, hget, haccepts⟩
    have hid : job.id = id := q.id_eq id job hget
    exact ⟨job, (it.mem_filteredJobs_iff lib toLowercase filter job).mpr ⟨hid ▸ hget, haccepts⟩,
      hid⟩

theorem nodup_filteredJobs (filter : JobFilter) :
    ((it.filteredJobs lib toLowercase filter).map Job.id).Nodup := by
  have hvalues := nodup_ids_of_entries it.entries_eq
  have hfilter := (List.filter_sublist (p := filter.accepts lib toLowercase)
    (l := it.values)).map Job.id
  exact ((it.perm_filteredJobs lib toLowercase filter).map Job.id).nodup_iff.mpr
    (hfilter.nodup hvalues)

end JobQueue.Iteration
end Filter

/-! ### The RPC -/

structure ListJobsRequest where
  pageSize : ℕ
  pageToken : String
  statusFilter : ℤ
  workerIdFilter : ℕ
  commandFilter : String
  createdAfterMs : ℤ
  createdBeforeMs : ℤ
deriving DecidableEq

structure JobInfo where
  jobId : String
  command : String
  status : ℤ
  assignedWorker : ℕ
  createdAtMs : ℤ
  completedAtMs : Option ℤ
deriving DecidableEq

structure ListJobsResponse where
  jobs : List JobInfo
  nextPageToken : String
  totalCount : ℕ
deriving DecidableEq

def statusToProto (status : JobStatus) : Proto.JobStatus := internalStatusToProto status

/-- The branch for `Unspecified` is `unreachable!`. -/
def protoToStatus : (status : Proto.JobStatus) → status ≠ .unspecified → JobStatus
  | .pending, _ => .pending
  | .running, _ => .running
  | .completed, _ => .completed
  | .failed, _ => .failed
  | .cancelled, _ => .cancelled
  | .unspecified, h => absurd rfl h

def Job.info (lib : WireLib) (job : Job) : JobInfo where
  jobId := lib.uuidToString job.id
  command := job.command
  status := (statusToProto job.status).toI32
  assignedWorker := job.assignedWorker.getD 0
  createdAtMs := job.createdAt.timestampMillis
  completedAtMs := job.completedAt.map DateTime.timestampMillis

namespace ListJobsRequest

def effectivePageSize (req : ListJobsRequest) : ℕ :=
  if req.pageSize = 0 then 100 else min req.pageSize 1000

def offset (req : ListJobsRequest) : Except Status ℕ :=
  if req.pageToken = "" then .ok 0
  else match fromStr u64 req.pageToken with
    | some offset => .ok offset
    | none => .error ⟨.invalidArgument, "Invalid page token"⟩

/-- Zero, the empty string and an unknown status stand for no filter. -/
def filter (req : ListJobsRequest) : JobFilter where
  status :=
    if h : Proto.JobStatus.ofI32 req.statusFilter = .unspecified then none
    else some (protoToStatus (.ofI32 req.statusFilter) h)
  workerId := if req.workerIdFilter ≠ 0 then some req.workerIdFilter else none
  command := if req.commandFilter ≠ "" then some req.commandFilter else none
  createdAfterMs := if req.createdAfterMs ≠ 0 then some req.createdAfterMs else none
  createdBeforeMs := if req.createdBeforeMs ≠ 0 then some req.createdBeforeMs else none

theorem effectivePageSize_pos (req : ListJobsRequest) : 0 < req.effectivePageSize := by
  rw [effectivePageSize]
  split_ifs <;> omega

end ListJobsRequest

section Listing

variable (lib : WireLib) (toLowercase : String → String) {q : JobQueue} (it : q.Iteration)

/-- What `list_jobs` answers from `offset` on. Beyond the matching jobs the page is empty, so that
the next offset is a `usize` in any case. -/
def JobQueue.Iteration.page (req : ListJobsRequest) (offset : ℕ) : ListJobsResponse :=
  let matching := it.filteredJobs lib toLowercase req.filter
  let totalCount := matching.length % u32
  let jobs := ((matching.drop offset).take req.effectivePageSize).map (Job.info lib)
  let nextOffset := offset + jobs.length
  ⟨jobs, if nextOffset < totalCount then nextOffset.repr else "", totalCount⟩

def JobQueue.Iteration.listJobs (req : ListJobsRequest) : Except Status ListJobsResponse :=
  req.offset.map (it.page lib toLowercase req)

def ListJobsResponse.next (resp : ListJobsResponse) : Option String :=
  if resp.nextPageToken = "" then none else some resp.nextPageToken

/-- The loop of the `list` command with `--all`, for at most `fuel` requests. -/
def JobQueue.Iteration.listAll (req : ListJobsRequest) (fuel : ℕ) :
    Option (Except Status (List ListJobsResponse)) :=
  CursorPaging.follow ListJobsResponse.next
    (fun pageToken => it.listJobs lib toLowercase { req with pageToken := pageToken }) fuel ""

/-! ### Following the tokens -/

theorem ListJobsRequest.offset_repr (req : ListJobsRequest) {n : ℕ} (h : n < u64) :
    { req with pageToken := n.repr }.offset = .ok n := by
  rw [offset, if_neg (repr_ne_empty n), fromStr_repr u64 h]

theorem JobQueue.Iteration.length_page_jobs (req : ListJobsRequest) (offset : ℕ) :
    (it.page lib toLowercase req offset).jobs.length =
      min req.effectivePageSize ((it.filteredJobs lib toLowercase req.filter).length - offset) := by
  rw [page, List.length_map, List.length_take, List.length_drop]

theorem JobQueue.Iteration.page_next {req : ListJobsRequest}
    (hsmall : (it.filteredJobs lib toLowercase req.filter).length < u32) (offset : ℕ) :
    (it.page lib toLowercase req offset).next =
      if offset + req.effectivePageSize < (it.filteredJobs lib toLowercase req.filter).length then
        some (offset + req.effectivePageSize).repr
      else none := by
  have hlength := it.length_page_jobs lib toLowercase req offset
  have htoken : (it.page lib toLowercase req offset).nextPageToken =
      if offset + (it.page lib toLowercase req offset).jobs.length <
          (it.filteredJobs lib toLowercase req.filter).length then
        (offset + (it.page lib toLowercase req offset).jobs.length).repr
      else "" := by
    rw [← Nat.mod_eq_of_lt hsmall]
    rfl
  rw [ListJobsResponse.next, htoken, hlength]
  by_cases hrest : offset + req.effectivePageSize <
      (it.filteredJobs lib toLowercase req.filter).length
  · rw [min_eq_left (by omega), if_pos hrest, if_pos hrest, if_neg (repr_ne_empty _)]
  · have hend : ¬ offset + min req.effectivePageSize
        ((it.filteredJobs lib toLowercase req.filter).length - offset) <
          (it.filteredJobs lib toLowercase req.filter).length := by omega
    rw [if_neg hend, if_neg hrest, if_pos rfl]

/-- The tokens stand for offsets into the matching jobs, as long as their number is a `u32`. -/
theorem JobQueue.Iteration.slices_listJobs (req : ListJobsRequest)
    (hsmall : (it.filteredJobs lib toLowercase req.filter).length < u32) :
    CursorPaging.Slices ListJobsResponse.next
      (fun pageToken => it.listJobs lib toLowercase { req with pageToken := pageToken })
      ListJobsResponse.jobs ((it.filteredJobs lib toLowercase req.filter).map (Job.info lib))
      req.effectivePageSize
      (fun pageToken offset => { req with pageToken := pageToken }.offset = .ok offset)
      (fun resp => resp.totalCount = (it.filteredJobs lib toLowercase req.filter).length) where
  pos := req.effectivePageSize_pos
  serves {pageToken offset} hoffset := by
    have hnext := it.page_next lib toLowercase hsmall offset
    rw [List.length_map]
    refine ⟨it.page lib toLowercase req offset, ?_, Nat.mod_eq_of_lt hsmall, ?_, fun hend => ?_,
      fun hrest => ?_⟩
    · rw [listJobs, hoffset]
      rfl
    · rw [page, List.map_take, List.map_drop]
    · rw [hnext, if_neg (not_lt.mpr hend)]
    · refine ⟨_, hnext.trans (if_pos hrest), req.offset_repr ?_⟩
      have hu32 : u32 < u64 := by decide
      omega

/-- Following the tokens ends, and the pages are the matching jobs in their order, each once. -/
theorem paging_visits_every_job_once (req : ListJobsRequest)
    (hsmall : (it.filteredJobs lib toLowercase req.filter).length < 2 ^ 32) :
    ∃ pages : List ListJobsResponse,
      (∀ fuel, (it.filteredJobs lib toLowercase req.filter).length / req.effectivePageSize < fuel →
        it.listAll lib toLowercase req fuel = some (.ok pages)) ∧
      pages.flatMap ListJobsResponse.jobs =
        (it.filteredJobs lib toLowercase req.filter).map (Job.info lib) ∧
      ((pages.flatMap ListJobsResponse.jobs).map JobInfo.jobId).Nodup ∧
      ∀ page ∈ pages,
        page.totalCount = (it.filteredJobs lib toLowercase req.filter).length := by
  have hslices := it.slices_listJobs lib toLowercase req hsmall
  set matching := it.filteredJobs lib toLowercase req.filter with hmatching
  have hpos := req.effectivePageSize_pos
  have henough : (matching.map (Job.info lib)).length - 0 <
      (matching.length / req.effectivePageSize + 1) * req.effectivePageSize := by
    rw [List.length_map, Nat.sub_zero, Nat.add_mul, one_mul]
    exact Nat.lt_div_mul_add hpos
  have hstart : { req with pageToken := "" }.offset = .ok 0 := if_pos rfl
  obtain ⟨pages, hpages, hflat, htotal⟩ := hslices.follow hstart henough
  rw [List.drop_zero] at hflat
  refine ⟨pages, fun fuel hfuel => CursorPaging.follow_mono hfuel hpages, hflat, ?_, htotal⟩
  have hids : (pages.flatMap ListJobsResponse.jobs).map JobInfo.jobId =
      (matching.map Job.id).map lib.uuidToString := by
    rw [hflat, List.map_map, List.map_map]
    rfl
  rw [hids]
  exact (it.nodup_filteredJobs lib toLowercase req.filter).map lib.uuidToString_injective

end Listing

def threeJobs : List Job :=
  [.withId 1 "a" (.ofMillis 2000), .withId 2 "b" (.ofMillis 3000), .withId 3 "c" (.ofMillis 1000)]

def threeListed : JobQueue.Iteration (threeJobs.foldl JobQueue.insertJob .new) where
  values := threeJobs
  entries_eq := by decide +kernel

theorem three_jobs_paged_by_two :
    ∃ pages : List ListJobsResponse,
      threeListed.listAll .standard String.toLower ⟨2, "", 0, 0, "", 0, 0⟩ 2 = some (.ok pages) ∧
      pages.flatMap ListJobsResponse.jobs =
        [Job.withId 3 "c" (.ofMillis 1000), .withId 1 "a" (.ofMillis 2000),
          .withId 2 "b" (.ofMillis 3000)].map (Job.info .standard) := by
  obtain ⟨pages, hends, hjobs, -, -⟩ :=
    paging_visits_every_job_once .standard String.toLower threeListed ⟨2, "", 0, 0, "", 0, 0⟩
      (by decide +kernel)
  exact ⟨pages, hends 2 (by decide +kernel), hjobs⟩

end NomadLite
