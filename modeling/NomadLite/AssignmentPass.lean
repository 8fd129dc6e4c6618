import NomadLite.CompletionReports
import NomadLite.GreedyLoad
import NomadLite.LoadCounter

/-!
# One pass over the pending jobs

The branch for new jobs picks a pending job and a least loaded worker, marks the job,
counts it and sends the assignment, until no job is pending. The mailbox of the raft
loop holds a bounded number of messages, so a long pass needs the raft loop to take some
of them. Nothing else runs during the pass: what the branch writes is then a fold over
its picks, and the picks are a greedy run over the loads.
-/

namespace NomadLite

open Runs

/-! ### Pending jobs and available workers -/

namespace JobQueue

def pendingIds (q : JobQueue) : Finset Uuid :=
  ((q.jobs.entries.filter fun entry => entry.2.status = .pending).map Sigma.fst).toFinset

theorem mem_pendingIds {q : JobQueue} {id : Uuid} :
    id ∈ q.pendingIds ↔ (q.getJob id).map Job.status = some .pending := by
  simp only [pendingIds, Multiset.mem_toFinset, Multiset.mem_map, Multiset.mem_filter,
    Option.map_eq_some_iff]
  constructor
  · rintro ⟨⟨id', job⟩, ⟨hmem, hpending⟩, rfl⟩
    exact ⟨job, Finmap.lookup_eq_some_iff.mpr hmem, hpending⟩
  · rintro ⟨job, hjob, hpending⟩
    exact ⟨⟨id, job⟩, ⟨Finmap.lookup_eq_some_iff.mp hjob, hpending⟩, rfl⟩

theorem pendingIds_eq_empty {q : JobQueue} : q.pendingIds = ∅ ↔ q.NonePending := by
  simp only [pendingIds, Multiset.toFinset_eq_empty, Multiset.map_eq_zero,
    Multiset.filter_eq_nil, NonePending, ne_eq]

theorem pendingIds_assignJob (q : JobQueue) (id : Uuid) (w : ℕ) :
    (q.assignJob id w).1.pendingIds = q.pendingIds.erase id := by
  ext id'
  rw [Finset.mem_erase, mem_pendingIds, mem_pendingIds, getJob_assignJob, Option.map_map]
  cases hjob : q.getJob id' with
  | none => simp
  | some job =>
    have hid : job.id = id' := id_of_getJob hjob
    by_cases heq : id' = id
    · simp [hid, heq]
    · simp [hid, heq]

def assignAll (q : JobQueue) (picks : List (Uuid × ℕ)) : JobQueue :=
  picks.foldl (fun q p => (q.assignJob p.1 p.2).1) q

theorem assignAll_concat (q : JobQueue) (picks : List (Uuid × ℕ)) (id : Uuid) (w : ℕ) :
    q.assignAll (picks ++ [(id, w)]) = ((q.assignAll picks).assignJob id w).1 :=
  List.foldl_concat ..

theorem pendingIds_assignAll (q : JobQueue) (picks : List (Uuid × ℕ)) :
    (q.assignAll picks).pendingIds = q.pendingIds \ (picks.map Prod.fst).toFinset := by
  induction picks using List.reverseRecOn with
  | nil => simp [assignAll]
  | append_singleton picks p ih =>
    rw [assignAll_concat, pendingIds_assignJob, ih]
    ext id
    simp only [Finset.mem_erase, Finset.mem_sdiff, List.mem_toFinset, List.map_append,
      List.mem_append, List.map_cons, List.map_nil, List.mem_singleton, not_or]
    tauto

theorem getJob_assignAll_of_not_mem (q : JobQueue) {picks : List (Uuid × ℕ)} {id : Uuid}
    (h : id ∉ picks.map Prod.fst) : (q.assignAll picks).getJob id = q.getJob id := by
  induction picks using List.reverseRecOn with
  | nil => rfl
  | append_singleton picks p ih =>
    simp only [List.map_append, List.mem_append, List.map_cons, List.map_nil,
      List.mem_singleton, not_or] at h
    rw [assignAll_concat, getJob_assignJob, ih h.1]
    refine (Option.map_congr fun job hjob => ?_).trans Option.map_id'
    exact if_neg fun heq => h.2 ((id_of_getJob hjob).symm.trans heq)

theorem getJob_assignAll_of_mem (q : JobQueue) {picks : List (Uuid × ℕ)}
    (hnodup : (picks.map Prod.fst).Nodup) {id : Uuid} {w : ℕ} (h : (id, w) ∈ picks) :
    (q.assignAll picks).getJob id = (q.getJob id).map fun job =>
      { job with assignedWorker := some w, status := .running } := by
  induction picks using List.reverseRecOn with
  | nil => cases h
  | append_singleton picks p ih =>
    obtain ⟨id', w'⟩ := p
    rw [List.map_append, List.nodup_append] at hnodup
    rw [assignAll_concat, getJob_assignJob]
    rcases List.mem_append.mp h with hold | hnew
    · have hne : id ≠ id' := fun heq =>
        hnodup.2.2 id (List.mem_map_of_mem hold) id' (List.mem_singleton_self _) heq
      rw [ih hnodup.1 hold, Option.map_map]
      refine Option.map_congr fun job hjob => ?_
      exact if_neg fun heq => hne ((id_of_getJob hjob).symm.trans heq)
    · obtain ⟨rfl, rfl⟩ := Prod.mk.inj (List.mem_singleton.mp hnew)
      have hnot : id ∉ picks.map Prod.fst := fun hmem =>
        hnodup.2.2 id hmem id (List.mem_singleton_self _) rfl
      rw [getJob_assignAll_of_not_mem q hnot]
      refine Option.map_congr fun job hjob => ?_
      exact if_pos (id_of_getJob hjob)

end JobQueue

namespace JobAssigner

def availableWorkers (a : JobAssigner) (now : Instant) : Finset ℕ :=
  ((a.workers.entries.filter fun entry => entry.2.isAlive now).map Sigma.fst).toFinset

theorem mem_availableWorkers {a : JobAssigner} {now : Instant} {w : ℕ} :
    w ∈ a.availableWorkers now ↔ ∃ state ∈ a.workers.lookup w, state.isAlive now = true := by
  simp only [availableWorkers, Multiset.mem_toFinset, Multiset.mem_map, Multiset.mem_filter]
  constructor
  · rintro ⟨⟨w', state⟩, ⟨hmem, halive⟩, rfl⟩
    exact ⟨state, Finmap.lookup_eq_some_iff.mpr hmem, halive⟩
  · rintro ⟨state, hstate, halive⟩
    exact ⟨⟨w, state⟩, ⟨Finmap.lookup_eq_some_iff.mp hstate, halive⟩, rfl⟩

theorem noneAvailable_iff {a : JobAssigner} {now : Instant} :
    a.NoneAvailable now ↔ a.availableWorkers now = ∅ := by
  simp only [NoneAvailable, availableWorkers, Multiset.toFinset_eq_empty, Multiset.map_eq_zero,
    Multiset.filter_eq_nil, Bool.not_eq_true]

def load (a : JobAssigner) (w : ℕ) : ℕ := ((a.runningJobs w).map Finset.card).getD 0

theorem load_of_lookup {a : JobAssigner} {w : ℕ} {state : WorkerState}
    (h : a.workers.lookup w = some state) : a.load w = state.runningJobs.card := by
  rw [load, runningJobs, h]
  rfl

theorem leastLoaded_iff {a : JobAssigner} {now : Instant} {w : ℕ} : a.LeastLoaded now w ↔
    w ∈ a.availableWorkers now ∧ ∀ w' ∈ a.availableWorkers now, a.load w ≤ a.load w' := by
  constructor
  · rintro ⟨state, hstate, halive, hleast⟩
    refine ⟨mem_availableWorkers.mpr ⟨state, hstate, halive⟩, fun w' hw' => ?_⟩
    obtain ⟨state', hstate', halive'⟩ := mem_availableWorkers.mp hw'
    rw [load_of_lookup hstate, load_of_lookup hstate']
    exact hleast ⟨w', state'⟩ (Finmap.lookup_eq_some_iff.mp hstate') halive'
  · rintro ⟨hw, hleast⟩
    obtain ⟨state, hstate, halive⟩ := mem_availableWorkers.mp hw
    refine ⟨state, hstate, halive, fun entry hentry halive' => ?_⟩
    have hstate' : a.workers.lookup entry.1 = some entry.2 :=
      Finmap.lookup_eq_some_iff.mpr hentry
    have hle := hleast entry.1 (mem_availableWorkers.mpr ⟨entry.2, hstate', halive'⟩)
    rwa [load_of_lookup hstate, load_of_lookup hstate'] at hle

theorem exists_leastLoaded {a : JobAssigner} {now : Instant}
    (h : (a.availableWorkers now).Nonempty) : ∃ w, a.LeastLoaded now w := by
  obtain ⟨w, hw, hleast⟩ := Finset.exists_min_image (a.availableWorkers now) a.load h
  exact ⟨w, leastLoaded_iff.mpr ⟨hw, hleast⟩⟩

theorem availableWorkers_countJob (a : JobAssigner) (w : ℕ) (id : Uuid) (now : Instant) :
    (a.countJob w id).availableWorkers now = a.availableWorkers now := by
  ext w'
  rw [mem_availableWorkers, mem_availableWorkers, countJob, lookup_modifyWorker]
  cases a.workers.lookup w' with
  | none => simp
  | some state =>
    simp only [Option.map_some, Option.mem_def, Option.some.injEq, exists_eq_left']
    split_ifs <;> rfl

theorem load_countJob {a : JobAssigner} {w : ℕ} {keys : Finset Uuid}
    (hw : a.runningJobs w = some keys) {id : Uuid} (hid : id ∉ keys) :
    (a.countJob w id).load = Function.update a.load w (a.load w + 1) := by
  funext w'
  rw [load, countJob, runningJobs_modifyWorker]
  by_cases heq : w' = w
  · rw [heq, Function.update_self, Function.update_self, load, hw]
    simp [Finset.card_insert_of_notMem hid]
  · rw [Function.update_of_ne heq, Function.update_of_ne heq, load]

def countAll (a : JobAssigner) (picks : List (Uuid × ℕ)) : JobAssigner :=
  picks.foldl (fun a p => a.countJob p.2 p.1) a

theorem countAll_concat (a : JobAssigner) (picks : List (Uuid × ℕ)) (id : Uuid) (w : ℕ) :
    a.countAll (picks ++ [(id, w)]) = (a.countAll picks).countJob w id := List.foldl_concat ..

theorem availableWorkers_countAll (a : JobAssigner) (picks : List (Uuid × ℕ)) (now : Instant) :
    (a.countAll picks).availableWorkers now = a.availableWorkers now := by
  induction picks using List.reverseRecOn with
  | nil => rfl
  | append_singleton picks p ih => rw [countAll_concat, availableWorkers_countJob, ih]

/-- A worker keeps its jobs and gets some of those that are counted. -/
theorem runningJobs_countAll (a : JobAssigner) (picks : List (Uuid × ℕ)) {w : ℕ}
    {keys : Finset Uuid} (hw : a.runningJobs w = some keys) :
    ∃ keys', (a.countAll picks).runningJobs w = some keys' ∧
      ∀ id ∈ keys', id ∈ keys ∨ id ∈ picks.map Prod.fst := by
  induction picks using List.reverseRecOn with
  | nil => exact ⟨keys, hw, fun id hid => .inl hid⟩
  | append_singleton picks p ih =>
    obtain ⟨keys', hkeys', hmem⟩ := ih
    have hold : ∀ id ∈ keys', id ∈ keys ∨ id ∈ (picks ++ [p]).map Prod.fst := by
      intro id hid
      exact (hmem id hid).imp_right fun h => by simp [h]
    rw [countAll_concat, countJob, runningJobs_modifyWorker]
    by_cases heq : w = p.2
    · rw [← heq, Function.update_self, hkeys']
      refine ⟨_, rfl, fun id hid => ?_⟩
      rcases Finset.mem_insert.mp hid with rfl | hid
      · exact .inr (by simp)
      · exact hold id hid
    · rw [Function.update_of_ne heq]
      exact ⟨keys', hkeys', hold⟩

end JobAssigner

/-! ### The picks of a pass -/

/-- Picks one after the other: each takes a job that is pending when it is made, and a member of
`A` that has the fewest jobs then. -/
inductive Picked (A : Finset ℕ) (q : JobQueue) (a : JobAssigner) : List (Uuid × ℕ) → Prop where
  | nil : Picked A q a []
  | concat {picks : List (Uuid × ℕ)} {id : Uuid} {w : ℕ} (h : Picked A q a picks)
      (hpending : id ∈ (q.assignAll picks).pendingIds) (hw : w ∈ A)
      (hleast : ∀ w' ∈ A, (a.countAll picks).load w ≤ (a.countAll picks).load w') :
      Picked A q a (picks ++ [(id, w)])

structure CompletePass (A : Finset ℕ) (q : JobQueue) (picks : List (Uuid × ℕ)) (q' : JobQueue)
    (a' : JobAssigner) : Prop where
  nodup : (picks.map Prod.fst).Nodup
  ids : ∀ id, id ∈ picks.map Prod.fst ↔ (q.getJob id).map Job.status = some .pending
  none_pending : q'.NonePending
  marked : ∀ p ∈ picks, q'.getJob p.1 = (q.getJob p.1).map fun job =>
    { job with assignedWorker := some p.2, status := .running }
  others : ∀ id, (q.getJob id).map Job.status ≠ some .pending → q'.getJob id = q.getJob id
  level : ∀ p ∈ picks, p.2 ∈ A ∧ ∀ w ∈ A, a'.load p.2 ≤ a'.load w + 1

namespace Picked

variable {A : Finset ℕ} {q : JobQueue} {a : JobAssigner} {picks : List (Uuid × ℕ)}

theorem ids (h : Picked A q a picks) :
    (picks.map Prod.fst).Nodup ∧ ∀ id ∈ picks.map Prod.fst, id ∈ q.pendingIds := by
  induction h with
  | nil => simp
  | @concat picks id w _ hpending _ _ ih =>
    rw [JobQueue.pendingIds_assignAll, Finset.mem_sdiff, List.mem_toFinset] at hpending
    rw [List.map_append, List.nodup_append]
    refine ⟨⟨ih.1, List.nodup_singleton _, ?_⟩, ?_⟩
    · rintro id' hold id'' hnew rfl
      rw [List.mem_singleton.mp hnew] at hold
      exact hpending.2 hold
    · intro id' hid'
      rcases List.mem_append.mp hid' with hold | hnew
      · exact ih.2 id' hold
      · rw [List.mem_singleton.mp hnew]
        exact hpending.1

theorem length_le (h : Picked A q a picks) : picks.length ≤ q.pendingIds.card := by
  obtain ⟨hnodup, hsub⟩ := h.ids
  calc picks.length = (picks.map Prod.fst).toFinset.card := by
        rw [List.toFinset_card_of_nodup hnodup, List.length_map]
    _ ≤ q.pendingIds.card :=
        Finset.card_le_card fun id hid => hsub id (List.mem_toFinset.mp hid)

/-- The loads grow by one with each pick: no pending job has been counted before. -/
theorem greedy (h : Picked A q a picks) (hA : ∀ w ∈ A, ∃ keys, a.runningJobs w = some keys)
    (hnew : ∀ id ∈ q.pendingIds, ∀ w keys, a.runningJobs w = some keys → id ∉ keys) :
    GreedyLoad.Run A a.load (picks.map Prod.snd) (a.countAll picks).load := by
  induction h with
  | nil => exact .nil
  | @concat picks id w _ hpending hw hleast ih =>
    obtain ⟨keys, hkeys⟩ := hA w hw
    obtain ⟨keys', hkeys', hmem⟩ := a.runningJobs_countAll picks hkeys
    rw [JobQueue.pendingIds_assignAll, Finset.mem_sdiff, List.mem_toFinset] at hpending
    have hid : id ∉ keys' := fun hin =>
      (hmem id hin).elim (hnew id hpending.1 w keys hkeys) hpending.2
    rw [JobAssigner.countAll_concat, JobAssigner.load_countJob hkeys' hid, List.map_append]
    exact ih.concat hw hleast

theorem complete (h : Picked A q a picks) (hA : ∀ w ∈ A, ∃ keys, a.runningJobs w = some keys)
    (hnew : ∀ id ∈ q.pendingIds, ∀ w keys, a.runningJobs w = some keys → id ∉ keys)
    (hnone : (q.assignAll picks).pendingIds = ∅) :
    CompletePass A q picks (q.assignAll picks) (a.countAll picks) := by
  obtain ⟨hnodup, hsub⟩ := h.ids
  have hrun := h.greedy hA hnew
  have hids : ∀ id, id ∈ picks.map Prod.fst ↔ id ∈ q.pendingIds := by
    intro id
    refine ⟨hsub id, fun hid => ?_⟩
    rw [JobQueue.pendingIds_assignAll, Finset.sdiff_eq_empty_iff_subset] at hnone
    exact List.mem_toFinset.mp (hnone hid)
  refine ⟨hnodup, fun id => (hids id).trans JobQueue.mem_pendingIds,
    JobQueue.pendingIds_eq_empty.mp hnone, ?_, ?_, ?_⟩
  · rintro ⟨id, w⟩ hp
    exact q.getJob_assignAll_of_mem hnodup hp
  · intro id hid
    exact q.getJob_assignAll_of_not_mem fun hmem =>
      hid (JobQueue.mem_pendingIds.mp ((hids id).mp hmem))
  · intro p hp
    have hpick : p.2 ∈ picks.map Prod.snd := List.mem_map_of_mem hp
    exact ⟨hrun.mem _ hpick, hrun.level _ hpick⟩

end Picked

/-! ### The pass in the system -/

def DrainStage.countedJob : DrainStage → Option (Uuid × ℕ)
  | .counted jobId workerId => some (jobId, workerId)
  | _ => none

def DrainStage.pieces : DrainStage → ℕ
  | .choosing => 0
  | .chosen .. | .idle => 1
  | .marked .. => 2
  | .counted .. => 3

def DrainStage.Stands (A : Finset ℕ) (q : JobQueue) (a : JobAssigner) (sent : List (Uuid × ℕ))
    (queue : JobQueue) (assigner : JobAssigner) : DrainStage → Prop
  | .choosing =>
    Picked A q a sent ∧ queue = q.assignAll sent ∧ assigner = a.countAll sent
  | .chosen id w =>
    Picked A q a (sent ++ [(id, w)]) ∧ queue = q.assignAll sent ∧ assigner = a.countAll sent
  | .marked id w =>
    Picked A q a (sent ++ [(id, w)]) ∧ queue = q.assignAll (sent ++ [(id, w)]) ∧
      assigner = a.countAll sent
  | .counted id w =>
    Picked A q a (sent ++ [(id, w)]) ∧ queue = q.assignAll (sent ++ [(id, w)]) ∧
      assigner = a.countAll (sent ++ [(id, w)])
  | .idle =>
    Picked A q a sent ∧ queue = q.assignAll sent ∧ assigner = a.countAll sent ∧
      queue.pendingIds = ∅

namespace DrainStage.Stands

variable {A : Finset ℕ} {q queue : JobQueue} {a assigner : JobAssigner} {sent : List (Uuid × ℕ)}
  {id : Uuid} {w : ℕ} {now : Instant}

theorem choose (h : Stands A q a sent queue assigner .choosing)
    (hpending : (queue.getJob id).map Job.status = some .pending)
    (hworker : assigner.LeastLoaded now w) (hA : assigner.availableWorkers now = A) :
    Stands A q a sent queue assigner (.chosen id w) := by
  obtain ⟨hpicked, rfl, rfl⟩ := h
  obtain ⟨hw, hleast⟩ := JobAssigner.leastLoaded_iff.mp hworker
  rw [hA] at hw hleast
  exact ⟨hpicked.concat (JobQueue.mem_pendingIds.mpr hpending) hw hleast, rfl, rfl⟩

/-- Some worker is available, so the branch ends because no job is pending. -/
theorem chooseNone (h : Stands A q a sent queue assigner .choosing)
    (hnone : queue.NonePending ∨ assigner.NoneAvailable now)
    (hA : assigner.availableWorkers now = A) (hne : A.Nonempty) :
    Stands A q a sent queue assigner .idle := by
  obtain ⟨hpicked, hqueue, hassigner⟩ := h
  refine ⟨hpicked, hqueue, hassigner, ?_⟩
  rcases hnone with hnone | hnone
  · exact JobQueue.pendingIds_eq_empty.mpr hnone
  · rw [JobAssigner.noneAvailable_iff, hA] at hnone
    exact absurd hnone hne.ne_empty

theorem mark (h : Stands A q a sent queue assigner (.chosen id w)) :
    Stands A q a sent (queue.assignJob id w).1 assigner (.marked id w) := by
  obtain ⟨hpicked, rfl, hassigner⟩ := h
  exact ⟨hpicked, (q.assignAll_concat sent id w).symm, hassigner⟩

theorem count (h : Stands A q a sent queue assigner (.marked id w)) :
    Stands A q a sent queue (assigner.countJob w id) (.counted id w) := by
  obtain ⟨hpicked, hqueue, rfl⟩ := h
  exact ⟨hpicked, hqueue, (a.countAll_concat sent id w).symm⟩

theorem length_le {drain : DrainStage} (h : drain.Stands A q a sent queue assigner) :
    5 * sent.length + drain.pieces ≤ 5 * q.pendingIds.card + 1 := by
  cases drain with
  | idle | choosing =>
    have hlength := h.1.length_le
    simp only [pieces]
    omega
  | chosen id w | marked id w | counted id w =>
    have hlength := h.1.length_le
    rw [List.length_append, List.length_singleton] at hlength
    simp only [pieces]
    omega

end DrainStage.Stands

namespace JobCluster

def proposedAt (jc : JobCluster) (x : ℕ) : List Command :=
  (jc.appended.filter fun p => p.1 = x).map (fun p => p.2.command) ++
    (jc.host x).mailbox.filterMap RaftMessage.command

/-- A piece of the branch on node `x`, which finds the workers in `A` available, or the raft loop
taking a message. -/
def inPass (jc : JobCluster) (x : ℕ) (A : Finset ℕ) : JobEvent → Bool
  | .drain y (.choose _ _ now) | .drain y (.chooseNone now) =>
    y = x && (jc.sites x).assigner.availableWorkers now = A
  | .drain y .mark | .drain y .count | .drain y .send => y = x
  | .service (.handleMessage y) => y = x
  | _ => false

def proposing (jc : JobCluster) (x : ℕ) : JobEvent → List (Uuid × ℕ)
  | .drain y .send => if y = x then (jc.sites x).drain.countedJob.toList else []
  | _ => []

def passStep (lib : WireLib) (ids : List ℕ) (x : ℕ) (s : JobCluster × List (Uuid × ℕ))
    (ev : JobEvent) : Option (JobCluster × List (Uuid × ℕ)) :=
  (s.1.step lib ids ev).map fun jc => (jc, s.2 ++ s.1.proposing x ev)

def assignments (picks : List (Uuid × ℕ)) : List Command :=
  picks.map fun p => .assignJob p.1 p.2

structure OnPass (A : Finset ℕ) (jc₀ : JobCluster) (x n : ℕ) (jc : JobCluster)
    (sent : List (Uuid × ℕ)) : Prop where
  leader : (jc.node x).isLeader = true
  running : (jc.host x).running = (jc₀.host x).running
  proposed : (jc₀.host x).running = true →
    jc.proposedAt x = jc₀.proposedAt x ++ assignments sent
  stands : (jc.sites x).drain.Stands A (jc₀.queue x) (jc₀.sites x).assigner sent (jc.queue x)
    (jc.sites x).assigner
  steps : n + (jc.host x).mailbox.length ≤
    (jc₀.host x).mailbox.length + 5 * sent.length + (jc.sites x).drain.pieces

variable {lib : WireLib} {ids : List ℕ} {jc₀ jc jc' : JobCluster} {ev : JobEvent} {x n : ℕ}
  {A : Finset ℕ} {sent : List (Uuid × ℕ)} {now : Instant}

theorem onPass_start (hleader : (jc.node x).isLeader = true)
    (hdrain : (jc.sites x).drain = .choosing) : OnPass A jc x 0 jc [] where
  leader := hleader
  running := rfl
  proposed _ := (List.append_nil _).symm
  stands := by
    rw [hdrain]
    exact ⟨.nil, rfl, rfl⟩
  steps := by omega

namespace OnPass

theorem handleMessage (h : OnPass A jc₀ x n jc sent)
    (hstep : jc.step lib ids (.service (.handleMessage x)) = some jc') :
    OnPass A jc₀ x (n + 1) jc' sent := by
  obtain ⟨svc, hsvc, rfl⟩ := Option.map_eq_some_iff.mp hstep
  have hrole : (jc.node x).state.role = .leader := of_decide_eq_true h.leader
  obtain ⟨message, rest, hmailbox, hhosts, -⟩ := Service.handleMessage_cases hsvc
  replace hmailbox : (jc.host x).mailbox = message :: rest := hmailbox
  have hhost : (jc.serve (.handleMessage x) svc).host x = { jc.host x with mailbox := rest } := by
    change svc.hosts x = _
    rw [hhosts, Service.hosts_setHost, if_pos rfl]
    rfl
  have hqueue : (jc.serve (.handleMessage x) svc).queue x = jc.queue x := by
    rw [queue, hhost]
    rfl
  have hproposed : (jc.serve (.handleMessage x) svc).proposedAt x = jc.proposedAt x := by
    change ((jc.appended ++ jc.handled x).filter _).map _ ++ _ = _
    cases message with
    | transferLeadership targetId =>
      simp [hhost, proposedAt, handled, hmailbox, List.filterMap_cons, RaftMessage.command]
    | appendCommand command caller =>
      simp [hhost, proposedAt, handled, hmailbox, hrole, RaftMessage.command, RaftState.newEntry]
  refine ⟨decide_eq_true (Service.leader_of_handleMessage hrole hsvc), ?_, ?_, ?_, ?_⟩
  · rw [hhost]
    exact h.running
  · rw [hproposed]
    exact h.proposed
  · rw [hqueue]
    exact h.stands
  · have hsteps := h.steps
    rw [hmailbox, List.length_cons] at hsteps
    rw [hhost]
    change n + 1 + rest.length ≤ _ + (jc.sites x).drain.pieces
    omega

theorem set (h : OnPass A jc₀ x n jc sent) (new : List (Uuid × ℕ)) {host : Host} {site : Site}
    (hrunning : host.running = (jc.host x).running)
    (hmailbox : (jc.host x).running = true → host.mailbox.filterMap RaftMessage.command =
      (jc.host x).mailbox.filterMap RaftMessage.command ++ assignments new)
    (hstands : site.drain.Stands A (jc₀.queue x) (jc₀.sites x).assigner (sent ++ new) host.queue
      site.assigner)
    (hsteps : host.mailbox.length + 1 + (jc.sites x).drain.pieces ≤
      (jc.host x).mailbox.length + 5 * new.length + site.drain.pieces) :
    OnPass A jc₀ x (n + 1) (jc.set x (host, site)) (sent ++ new) := by
  have hhost : (jc.set x (host, site)).host x = host := Function.update_self ..
  have hsite : (jc.set x (host, site)).sites x = site := Function.update_self ..
  have hqueue : (jc.set x (host, site)).queue x = host.queue := congrArg Host.queue hhost
  refine ⟨h.leader, ?_, fun hr => ?_, ?_, ?_⟩
  · rw [hhost, hrunning, h.running]
  · have hold := h.proposed hr
    rw [proposedAt] at hold
    rw [proposedAt, hhost, hmailbox (h.running.trans hr), ← List.append_assoc]
    change ((jc.appended.filter _).map _ ++ _) ++ _ = _
    rw [hold, assignments, assignments, assignments, List.map_append, List.append_assoc]
  · rw [hqueue, hsite]
    exact hstands
  · have hold := h.steps
    rw [hhost, hsite, List.length_append]
    omega

theorem move (h : OnPass A jc₀ x n jc sent) {host : Host} {site : Site}
    (hrunning : host.running = (jc.host x).running)
    (hmailbox : host.mailbox = (jc.host x).mailbox)
    (hstands : site.drain.Stands A (jc₀.queue x) (jc₀.sites x).assigner sent host.queue
      site.assigner)
    (hpieces : site.drain.pieces = (jc.sites x).drain.pieces + 1) :
    OnPass A jc₀ x (n + 1) (jc.set x (host, site)) sent := by
  rw [← List.append_nil sent] at hstands ⊢
  refine h.set [] hrunning (fun _ => ?_) hstands ?_
  · rw [hmailbox]
    exact (List.append_nil _).symm
  · rw [hmailbox, hpieces, List.length_nil]
    omega

theorem drain (h : OnPass A jc₀ x n jc sent) (hne : A.Nonempty) {dev : DrainEvent}
    (hpass : jc.inPass x A (.drain x dev) = true)
    (hstep : jc.step lib ids (.drain x dev) = some jc') :
    OnPass A jc₀ x (n + 1) jc' (sent ++ jc.proposing x (.drain x dev)) := by
  rw [step] at hstep
  split_ifs at hstep
  obtain ⟨⟨host, site⟩, hdrain, rfl⟩ := Option.map_eq_some_iff.mp hstep
  have hstands := h.stands
  have hquiet : sent ++ [] = sent := List.append_nil sent
  cases Site.drainMove_of_drainStep hdrain with
  | leaderChecked => cases hpass
  | @chosen id w now hstage hpending hworker =>
    rw [hstage] at hstands
    have hA : (jc.sites x).assigner.availableWorkers now = A := by simpa [inPass] using hpass
    rw [show jc.proposing x _ = [] from rfl, hquiet]
    refine h.move rfl rfl (hstands.choose hpending hworker hA) ?_
    rw [hstage]
    rfl
  | @chosenNone now hstage hnone =>
    rw [hstage] at hstands
    have hA : (jc.sites x).assigner.availableWorkers now = A := by simpa [inPass] using hpass
    rw [show jc.proposing x _ = [] from rfl, hquiet]
    refine h.move rfl rfl (hstands.chooseNone hnone hA hne) ?_
    rw [hstage]
    rfl
  | marked hstage =>
    rw [hstage] at hstands
    rw [show jc.proposing x _ = [] from rfl, hquiet]
    refine h.move rfl rfl hstands.mark ?_
    rw [hstage]
    rfl
  | counted hstage =>
    rw [hstage] at hstands
    rw [show jc.proposing x _ = [] from rfl, hquiet]
    refine h.move rfl rfl hstands.count ?_
    rw [hstage]
    rfl
  | @sent id w host' hstage hsend =>
    rw [hstage] at hstands
    have hnew : jc.proposing x (.drain x .send) = [(id, w)] := by
      simp [proposing, hstage, DrainStage.countedJob]
    rw [hnew]
    rcases Host.send_cases hsend with ⟨hstopped, rfl⟩ | ⟨hrunning, rfl⟩
    · refine h.set [(id, w)] rfl (fun hr => ?_) hstands ?_
      · rw [hstopped] at hr
        cases hr
      · rw [hstage]
        simp [DrainStage.pieces]
    · refine h.set [(id, w)] rfl (fun _ => ?_) hstands ?_
      · simp [Host.push, RaftMessage.command, assignments]
      · rw [hstage]
        simp [DrainStage.pieces, Host.push]

theorem step (h : OnPass A jc₀ x n jc sent) (hne : A.Nonempty) (hpass : jc.inPass x A ev = true)
    (hstep : jc.step lib ids ev = some jc') :
    OnPass A jc₀ x (n + 1) jc' (sent ++ jc.proposing x ev) := by
  cases ev with
  | drain y dev =>
    obtain rfl : y = x := by
      cases dev with
      | checkLeader => cases hpass
      | choose id w now => exact of_decide_eq_true (Bool.and_eq_true_iff.mp hpass).1
      | chooseNone now => exact of_decide_eq_true (Bool.and_eq_true_iff.mp hpass).1
      | mark | count | send => exact of_decide_eq_true hpass
    exact h.drain hne hpass hstep
  | service sev =>
    cases sev with
    | handleMessage y =>
      obtain rfl : y = x := of_decide_eq_true hpass
      rw [show jc.proposing y _ = [] from rfl, List.append_nil]
      exact h.handleMessage hstep
    | _ => cases hpass
  | _ => cases hpass

/-- Either the assignment can be sent, or the raft loop can take a message. -/
theorem exists_send_step (h : OnPass A jc₀ x n jc sent) (lib : WireLib) (hx : x ∈ ids) {id : Uuid}
    {w : ℕ} (hstage : (jc.sites x).drain = .counted id w) :
    ∃ ev jc', jc.inPass x A ev = true ∧ jc.step lib ids ev = some jc' := by
  by_cases hroom : (jc.host x).running = true ∧ (jc.host x).hasRoom = false
  · have hmailbox : (jc.service.hosts x).mailbox ≠ [] := by
      intro hnil
      have hfull : (jc.host x).hasRoom = true := by
        rw [Host.hasRoom, show (jc.host x).mailbox = [] from hnil]
        rfl
      rw [hfull] at hroom
      cases hroom.2
    obtain ⟨svc, hsvc⟩ := Service.exists_handleMessage lib hx (of_decide_eq_true h.leader) hmailbox
    refine ⟨.service (.handleMessage x), jc.serve (.handleMessage x) svc, by simp [inPass], ?_⟩
    exact congrArg (Option.map _) hsvc
  · have hsend : ∃ host, (jc.host x).send (.assignJob id w) = some host := by
      rw [Host.send]
      split_ifs with hstopped hroomy
      · exact ⟨_, rfl⟩
      · exact ⟨_, rfl⟩
      · exact absurd ⟨Bool.not_eq_false _ ▸ hstopped, Bool.not_eq_true _ ▸ hroomy⟩ hroom
    obtain ⟨host, hsend⟩ := hsend
    refine ⟨.drain x .send, jc.set x (host, { jc.sites x with drain := .choosing }),
      by simp [inPass], ?_⟩
    simp only [JobCluster.step, if_pos hx, Site.drainStep, hstage, hsend, Option.map_some]

/-- The branch can always go on, after the raft loop has made room if it has to. -/
theorem exists_step (h : OnPass A jc₀ x n jc sent) (lib : WireLib) (hx : x ∈ ids)
    (hA : (jc₀.sites x).assigner.availableWorkers now = A) (hne : A.Nonempty)
    (hbusy : (jc.sites x).drain ≠ .idle) :
    ∃ ev jc', jc.inPass x A ev = true ∧ jc.step lib ids ev = some jc' := by
  have hdrain : ∀ dev : DrainEvent, jc.inPass x A (.drain x dev) = true →
      ((jc.sites x).drainStep (jc.node x) (jc.host x) dev).isSome = true →
      ∃ ev jc', jc.inPass x A ev = true ∧ jc.step lib ids ev = some jc' := by
    intro dev hpass hsome
    obtain ⟨r, hr⟩ := Option.isSome_iff_exists.mp hsome
    refine ⟨.drain x dev, jc.set x r, hpass, ?_⟩
    rw [JobCluster.step, if_pos hx, hr, Option.map_some]
  have hstands := h.stands
  cases hstage : (jc.sites x).drain with
  | idle => exact absurd hstage hbusy
  | choosing =>
    rw [hstage] at hstands
    have havailable : (jc.sites x).assigner.availableWorkers now = A := by
      rw [hstands.2.2, JobAssigner.availableWorkers_countAll, hA]
    rcases Finset.eq_empty_or_nonempty (jc.queue x).pendingIds with hnone | ⟨id, hid⟩
    · have hpending : (jc.host x).queue.NonePending := JobQueue.pendingIds_eq_empty.mp hnone
      apply hdrain (.chooseNone now)
      · simp [inPass, havailable]
      · simp [Site.drainStep, hstage, hpending]
    · obtain ⟨w, hworker⟩ := JobAssigner.exists_leastLoaded (havailable ▸ hne)
      have hguard : ((jc.host x).queue.getJob id).map Job.status = some .pending ∧
          (jc.sites x).assigner.LeastLoaded now w := ⟨JobQueue.mem_pendingIds.mp hid, hworker⟩
      apply hdrain (.choose id w now)
      · simp [inPass, havailable]
      · simp only [Site.drainStep, hstage, if_pos hguard, Option.isSome_some]
  | chosen id w =>
    apply hdrain .mark
    · simp [inPass]
    · simp only [Site.drainStep, hstage, Option.isSome_some]
  | marked id w =>
    apply hdrain .count
    · simp [inPass]
    · simp only [Site.drainStep, hstage, Option.isSome_some]
  | counted id w => exact h.exists_send_step lib hx hstage

theorem length_le (h : OnPass A jc₀ x n jc sent) :
    n ≤ (jc₀.host x).mailbox.length + 5 * (jc₀.queue x).pendingIds.card + 1 := by
  have hsteps := h.steps
  have hpicks := h.stands.length_le
  omega

end OnPass

def twoPending : List JobEvent :=
  [.workerHeartbeat 1 1 0, .workerHeartbeat 1 2 0] ++ raftSteps (Cluster.electedBy 1 2 1 0 0) ++
    submission 1 0 7 ++ submission 1 1 8 ++ [.drain 1 .checkLeader]

def twoAssigned : List JobEvent :=
  [.drain 1 (.choose 7 1 0), .drain 1 .mark, .drain 1 .count, .drain 1 .send,
    .drain 1 (.choose 8 2 0), .drain 1 .mark, .service (.handleMessage 1), .drain 1 .count,
    .drain 1 .send, .drain 1 (.chooseNone 0)]

end JobCluster
end NomadLite
