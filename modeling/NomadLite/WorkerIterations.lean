import NomadLite.JobSteps
import NomadLite.Runs

/-!
# Iterations of the worker loop

An iteration executes the jobs that the queue assigns to the node and buffers an update
for each one that was not cancelled meanwhile. `Iterations` follows a run and keeps
the jobs of the iterations under way and of those that have ended. Whatever the run,
the buffer that an iteration drops has an update for each of its jobs.
-/

namespace NomadLite

open Runs

def WorkerStage.buffer : WorkerStage → List JobStatusUpdate
  | .running batch | .executing _ batch | .releasing _ batch | .storing _ _ batch => batch.updates
  | .stored update batch => batch.updates ++ [update]
  | .sending updates | .forwarding _ updates | .awaiting _ updates | .ending updates => updates
  | .starting | .registered | .waiting | .polling => []

def WorkerStage.result : WorkerStage → Option (Uuid × ExecutionResult)
  | .storing job result _ => some (job.id, result)
  | _ => none

def JobStatusUpdate.Tells (u : JobStatusUpdate) (x : ℕ) (done : Uuid × ExecutionResult) : Prop :=
  u.jobId = done.1 ∧ u.status = done.2.status ∧ u.executedBy = x ∧ u.exitCode = done.2.exitCode

def WorkerStage.Covers (stage : WorkerStage) (x : ℕ) (done : Uuid × ExecutionResult) : Prop :=
  stage.result = some done ∨ ∃ u ∈ stage.buffer, u.Tells x done

theorem JobStatusUpdate.Tells.onWire {u : JobStatusUpdate} {x : ℕ} {done : Uuid × ExecutionResult}
    (h : u.Tells x done) (lib : WireLib) : (u.onWire lib).Tells x done := h

namespace JobCluster

def finishing (jc : JobCluster) (x : ℕ) (result : ExecutionResult) :
    List (Uuid × ExecutionResult) :=
  match (jc.sites x).worker with
  | .executing job _ =>
    if ((jc.queue x).getJob job.id).map Job.status = some .cancelled then []
    else [(job.id, result)]
  | _ => []

end JobCluster

/-- A cluster with the jobs that the worker loops have executed and not found cancelled: those of
the current iterations, and those of the iterations that have ended. -/
structure Iterations where
  cluster : JobCluster
  finished : ℕ → List (Uuid × ExecutionResult)
  ended : List (ℕ × Uuid × ExecutionResult)

namespace Iterations

def start (ids : List ℕ) (peers : ℕ → List PeerConfig) : Iterations where
  cluster := .start ids peers
  finished _ := []
  ended := []

def close (it : Iterations) (x : ℕ) (jc : JobCluster) : Iterations where
  cluster := jc
  finished := Function.update it.finished x []
  ended := it.ended ++ (it.finished x).map (x, ·)

/-- An iteration ends when it drops its buffer, or with nothing to flush. -/
def next (it : Iterations) (ev : JobEvent) (jc : JobCluster) : Iterations :=
  match ev with
  | .work x (.finish result) =>
    { it with
      cluster := jc
      finished := Function.update it.finished x
        (it.finished x ++ it.cluster.finishing x result) }
  | .work x .flush =>
    if (it.cluster.sites x).worker.buffer = [] then it.close x jc else { it with cluster := jc }
  | .work x .endIteration => it.close x jc
  | _ => { it with cluster := jc }

def step (lib : WireLib) (ids : List ℕ) (it : Iterations) (ev : JobEvent) : Option Iterations :=
  (it.cluster.step lib ids ev).map (it.next ev)

structure Buffered (it : Iterations) : Prop where
  current : ∀ x, ∀ done ∈ it.finished x, (it.cluster.sites x).worker.Covers x done
  ended : ∀ p ∈ it.ended, ∃ updates, (p.1, updates) ∈ it.cluster.reported ∧
    ∃ u ∈ updates, u.Tells p.1 p.2

variable {lib : WireLib} {ids : List ℕ} {it it' : Iterations} {ev : JobEvent} {jc : JobCluster}

theorem cluster_next (it : Iterations) (ev : JobEvent) (jc : JobCluster) :
    (it.next ev jc).cluster = jc := by
  unfold next
  split
  · rfl
  · split_ifs <;> rfl
  · rfl
  · rfl

theorem buffered_start (ids : List ℕ) (peers : ℕ → List PeerConfig) :
    (start ids peers).Buffered where
  current _ _ hdone := absurd hdone List.not_mem_nil
  ended _ hp := absurd hp List.not_mem_nil

namespace Buffered

theorem advance (h : it.Buffered) (x : ℕ) (hreported : it.cluster.reported ⊆ it'.cluster.reported)
    (hothers : ∀ y, y ≠ x → it'.finished y = it.finished y ∧
      (it'.cluster.sites y).worker = (it.cluster.sites y).worker)
    (hx : ∀ done ∈ it'.finished x, (it'.cluster.sites x).worker.Covers x done)
    (hended : ∀ p ∈ it'.ended, p ∈ it.ended ∨ ∃ updates,
      (p.1, updates) ∈ it'.cluster.reported ∧ ∃ u ∈ updates, u.Tells p.1 p.2) : it'.Buffered where
  current y done hdone := by
    by_cases hy : y = x
    · subst hy
      exact hx done hdone
    · obtain ⟨hfinished, hworker⟩ := hothers y hy
      rw [hworker]
      exact h.current y done (hfinished ▸ hdone)
  ended p hp := by
    rcases hended p hp with hold | hnew
    · obtain ⟨updates, hupdates, hu⟩ := h.ended p hold
      exact ⟨updates, hreported hupdates, hu⟩
    · exact hnew

section Work

variable {x : ℕ} {wev : WorkerEvent} {host : Host} {site : Site}

theorem quiet (h : it.Buffered)
    (hnext : ∀ jc, it.next (.work x wev) jc = { it with cluster := jc })
    (hsite : ∀ done, (it.cluster.sites x).worker.Covers x done → site.worker.Covers x done) :
    (it.next (.work x wev) (it.cluster.work lib x wev (host, site))).Buffered := by
  rw [hnext]
  refine h.advance x (List.subset_append_left ..)
    (fun y hy => ⟨rfl, JobCluster.worker_work_other hy⟩) (fun done hdone => ?_) fun p hp => .inl hp
  rw [JobCluster.worker_work_self]
  exact hsite done (h.current x done hdone)

theorem finish (h : it.Buffered) {result : ExecutionResult}
    (hold : ∀ done, (it.cluster.sites x).worker.Covers x done → site.worker.Covers x done)
    (hnew : ∀ done ∈ it.cluster.finishing x result, site.worker.Covers x done) :
    (it.next (.work x (.finish result))
      (it.cluster.work lib x (.finish result) (host, site))).Buffered := by
  refine h.advance x (List.subset_append_left ..)
    (fun y hy => ⟨Function.update_of_ne hy .., JobCluster.worker_work_other hy⟩)
    (fun done hdone => ?_) fun p hp => .inl hp
  change done ∈ Function.update it.finished x _ x at hdone
  rw [Function.update_self] at hdone
  rw [cluster_next, JobCluster.worker_work_self]
  rcases List.mem_append.mp hdone with hcurrent | hfinishing
  · exact hold done (h.current x done hcurrent)
  · exact hnew done hfinishing

theorem close (h : it.Buffered)
    (hnext : ∀ jc, it.next (.work x wev) jc = it.close x jc)
    (hdropped : ∀ done, (it.cluster.sites x).worker.Covers x done → ∃ updates,
      (x, updates) ∈ it.cluster.dropping x wev ∧ ∃ u ∈ updates, u.Tells x done) :
    (it.next (.work x wev) (it.cluster.work lib x wev (host, site))).Buffered := by
  rw [hnext]
  refine h.advance x (List.subset_append_left ..)
    (fun y hy => ⟨Function.update_of_ne hy .., JobCluster.worker_work_other hy⟩)
    (fun done hdone => ?_) fun p hp => ?_
  · change done ∈ Function.update it.finished x [] x at hdone
    rw [Function.update_self] at hdone
    exact absurd hdone List.not_mem_nil
  · rcases List.mem_append.mp hp with hold | hnew
    · exact .inl hold
    · obtain ⟨done, hdone, rfl⟩ := List.mem_map.mp hnew
      obtain ⟨updates, hupdates, hu⟩ := hdropped done (h.current x done hdone)
      exact .inr ⟨updates, List.mem_append_right _ hupdates, hu⟩

theorem work (h : it.Buffered) (hworked : Site.Worked x (it.cluster.node x) it.cluster.forwards
      (it.cluster.host x) (it.cluster.sites x) wev host site) :
    (it.next (.work x wev) (it.cluster.work lib x wev (host, site))).Buffered := by
  cases hworked with
  | @cancelled result job batch hworker hended hstatus =>
    have hnone : it.cluster.finishing x result = [] := by
      simp only [JobCluster.finishing, hworker]
      exact if_pos hstatus
    refine h.finish (fun done hdone => ?_) fun done hdone => ?_
    · rw [hworker] at hdone
      exact hdone
    · rw [hnone] at hdone
      exact absurd hdone List.not_mem_nil
  | @finish result job batch hworker hended hstatus =>
    have hone : it.cluster.finishing x result = [(job.id, result)] := by
      simp only [JobCluster.finishing, hworker]
      exact if_neg hstatus
    refine h.finish (fun done hdone => ?_) fun done hdone => ?_
    · rw [hworker] at hdone
      exact .inr (hdone.resolve_left (Option.some_ne_none _).symm)
    · rw [hone] at hdone
      exact .inl (congrArg some (List.mem_singleton.mp hdone).symm)
  | storeResult hworker =>
    refine h.quiet (fun _ => rfl) fun done hdone => .inr ?_
    rw [hworker] at hdone
    rcases hdone with hresult | ⟨u, hu, htells⟩
    · obtain rfl := Option.some.inj hresult
      exact ⟨_, List.mem_append_right _ (List.mem_singleton_self _), rfl, rfl, rfl, rfl⟩
    · exact ⟨u, List.mem_append_left _ hu, htells⟩
  | flushNothing hworker =>
    refine h.close (fun _ => ?_) fun done hdone => ?_
    · simp only [next, hworker]
      exact if_pos rfl
    · rw [hworker] at hdone
      rcases hdone with hresult | ⟨u, hu, -⟩
      · cases hresult
      · exact absurd hu List.not_mem_nil
  | flushHere hworker hne | flushThere hworker hne | flushNowhere hworker hne =>
    refine h.quiet (fun _ => ?_) fun done hdone => ?_
    · simp only [next, hworker]
      exact if_neg hne
    · rw [hworker] at hdone
      exact hdone
  | @endIteration updates hworker =>
    refine h.close (fun _ => rfl) fun done hdone => ⟨updates, ?_, ?_⟩
    · simp only [JobCluster.dropping, hworker, List.mem_singleton]
    · rw [hworker] at hdone
      exact hdone.resolve_left (Option.some_ne_none _).symm
  | register hworker | sendRegister hworker | heartbeat hworker | poll hworker | execute hworker
  | release hworker | completeJob hworker | send hworker | forward hworker
  | forwardReturned hworker | forwardFailed hworker =>
    refine h.quiet (fun _ => rfl) fun done hdone => ?_
    rw [hworker] at hdone
    exact hdone

end Work

theorem step (h : it.Buffered) (hstep : it.step lib ids ev = some it') : it'.Buffered := by
  obtain ⟨jc, hjc, rfl⟩ := Option.map_eq_some_iff.mp hstep
  have hstepped := JobCluster.stepped_of_step hjc
  by_cases hwork : ∃ x wev, ev = .work x wev
  · obtain ⟨x, wev, rfl⟩ := hwork
    cases hstepped with
    | work hworked => exact h.work hworked
  · have hev : ∀ x wev, ev ≠ .work x wev := fun x wev heq => hwork ⟨x, wev, heq⟩
    have hnext : it.next ev jc = { it with cluster := jc } := by
      cases ev with
      | work x wev => exact absurd rfl (hev x wev)
      | _ => rfl
    rw [hnext]
    refine ⟨fun x done hdone => ?_, fun p hp => ?_⟩
    · rw [hstepped.worker_eq (hev x)]
      exact h.current x done hdone
    · rw [hstepped.reported_eq hev]
      exact h.ended p hp

end Buffered
end Iterations
end NomadLite
