import NomadLite.AtMostOnce
import NomadLite.NodeTasks

/-!
# A cancelled job stays cancelled

No committed command changes a job that is cancelled, and the branch for new jobs does
not mark one: it chooses a pending job, and commits are not applied until it has marked
it. The worker loop looks at the status of a job under one lock and stores its result
under another. A cancellation that is applied in between is overwritten.
-/

namespace NomadLite

open Runs

theorem Job.applyCommand_of_cancelled {job : Job} (h : job.status = .cancelled) (now : DateTime)
    (command : Command) : job.applyCommand now command = job := by
  refine applyCommand_induction (P := fun job' => job' = job) rfl ?_ ?_ ?_
  · rintro u - job' rfl
    exact if_neg fun hu => hu.2 h
  · intro jobId workerId _ hpending
    rw [h] at hpending
    cases hpending
  · intro hactive
    rw [h] at hactive
    cases hactive

def JobQueue.Holds (q : JobQueue) (id : Uuid) (p : Job → Prop) : Prop := ∀ job ∈ q.getJob id, p job

namespace JobQueue.Holds

variable {q : JobQueue} {id : Uuid} {p : Job → Prop}

theorem addJob (h : q.Holds id p) {job : Job} (hjob : job.id = id → q.isFull = true ∨ p job) :
    (q.addJob job).1.Holds id p := by
  intro job' hjob'
  rw [Option.mem_def, getJob_addJob] at hjob'
  split_ifs at hjob' with hadded
  · obtain rfl := Option.some.inj hjob'
    rcases hjob hadded.2.symm with hfull | hp
    · rw [hfull] at hadded
      cases hadded.1
    · exact hp
  · exact h job' hjob'

theorem modifyJob (h : q.Holds id p) {jobId : Uuid} {f : Job → Job}
    (hid : ∀ job, (f job).id = job.id)
    (hf : jobId = id → ∀ job ∈ q.getJob id, p job → p (f job)) :
    (q.modifyJob jobId f).1.Holds id p := by
  intro job' hjob'
  rw [Option.mem_def, getJob_modifyJob q id jobId hid] at hjob'
  obtain ⟨job, hjob, rfl⟩ := Option.map_eq_some_iff.mp hjob'
  split_ifs with heq
  · exact hf (heq.symm.trans (id_of_getJob hjob)) job hjob (h job hjob)
  · exact h job hjob

theorem applyCommand (h : q.Holds id p) (now : DateTime) {command : Command}
    (hcommand : command.submitted = some id → (q.getJob id).isSome = true)
    (hp : ∀ job, p job → p (job.applyCommand now command)) :
    (q.applyCommand now command).Holds id p := by
  intro job' hjob'
  by_cases hsubmitted : command.submitted = some id
  · cases command with
    | submitJob jobId text createdAt image =>
      obtain rfl : jobId = id := Option.some.inj hsubmitted
      have hne : q.getJob jobId ≠ none := Option.isSome_iff_ne_none.mp (hcommand hsubmitted)
      rw [JobQueue.applyCommand, if_neg hne] at hjob'
      exact h job' hjob'
    | _ => cases hsubmitted
  · rw [Option.mem_def, getJob_applyCommand_of_ne q now id hsubmitted] at hjob'
    obtain ⟨job, hjob, rfl⟩ := Option.map_eq_some_iff.mp hjob'
    exact hp job (h job hjob)

theorem rebuildFromSnapshot (q : JobQueue) {snapshot : Snapshot}
    (h : ∀ job ∈ snapshot.jobs, job.id = id → p (.fromSnapshot job)) :
    (q.rebuildFromSnapshot snapshot).Holds id p := by
  intro job hjob
  obtain ⟨job', hmem, rfl⟩ := mem_of_getJob_rebuildFromSnapshot hjob
  exact h job' hmem (id_of_getJob hjob)

theorem retain (h : q.Holds id p) (keep : Job → Bool) : (q.retain keep).Holds id p := by
  intro job hjob
  rw [Option.mem_def, getJob_retain] at hjob
  exact h job (Option.filter_eq_some_iff.mp hjob).1

end JobQueue.Holds

def NodeView.SparesOthers (v : NodeView) : Prop :=
  ∀ id ∈ v.drain.chosenJob,
    v.queue.Holds id fun job => job.status ≠ .cancelled ∧ job.status ≠ .running

namespace JobCluster

/-- The event may show job `id` on node `x` with another status than `cancelled`, after it was
cancelled there: the worker loop stores a result for it, `submit_job` adds it late, a second
submission of it is applied after it was cleaned up, or a snapshot has it with another status. -/
def revives (jc : JobCluster) (x : ℕ) (id : Uuid) : JobEvent → Bool
  | .work y (.storeResult _) =>
    y = x && (jc.sites x).worker.storingJob = some id &&
      ((jc.queue x).getJob id).map Job.status = some .cancelled
  | .service (.call c .addJob) =>
    (jc.service.calls[c]?).any fun call => call.node = x &&
      (call.stage.job.any fun job => job.id = id) && !(jc.queue x).isFull
  | .schedule y (.applyEntry _) =>
    y = x && ((jc.sites x).phase.next.any fun e => e.command.submitted = some id) &&
      ((jc.queue x).getJob id).isNone
  | .schedule y (.rebuildFromSnapshot _) =>
    y = x && (jc.sites x).phase.snapshot.any fun snapshot =>
      snapshot.jobs.any fun job => job.id = id && job.status ≠ .cancelled
  | _ => false

variable {lib : WireLib} {ids : List ℕ} {jc jc' : JobCluster} {ev : JobEvent} {x : ℕ} {id : Uuid}
  {v : NodeView}

theorem ViewStep.sparesOthers (h : ViewStep jc x ev v) (hfresh : jc.service.Fresh)
    (hs : (jc.view x).Steady) (hspares : (jc.view x).SparesOthers) : v.SparesOthers := by
  have hidle : (jc.sites x).drain = .idle → ∀ id, (jc.sites x).drain.chosenJob ≠ some id := by
    intro hidle id hid
    rw [hidle] at hid
    cases hid
  have hbusy : (jc.sites x).phase ≠ .waiting → (jc.sites x).drain = .idle :=
    fun hne => not_not.mp fun hdrain => hne (hs.waiting hdrain)
  intro id hid
  cases h with
  | @added c call job hcall hnode hstage =>
    have hnew := hfresh call (List.mem_of_getElem? hcall) job (by rw [hstage]; rfl)
    have hpending : job.status = .pending := congrArg JobCore.status hnew.1
    refine (hspares id hid).addJob fun _ => .inr ?_
    simp [hpending]
  | rebuilt hphase => exact absurd hid (hidle (hbusy (by rw [hphase]; simp)) id)
  | applied hphase => exact absurd hid (hidle (hbusy (by rw [hphase]; simp)) id)
  | cleaned hdrain => exact (hspares id hid).retain _
  | chosen hdrain hpending hworker =>
    obtain rfl := Option.some.inj hid
    intro job hjob
    rw [show (jc.queue x).getJob _ = some job from hjob] at hpending
    simp [Option.some.inj hpending]
  | leaderChecked hold hphase hdrain =>
    rcases hdrain with rfl | rfl <;> cases hid
  | chosenNone | marked | counted | sent => cases hid
  | stored hworker =>
    have hended := hs.ended
    change (jc.sites x).worker.Ended at hended
    rw [hworker] at hended
    refine (hspares id hid).modifyJob (fun _ => rfl) fun _ job _ _ => ?_
    rcases hended with hcompleted | hfailed
    · simp [hcompleted]
    · simp [hfailed]
  | _ => exact hspares id hid

theorem ViewStep.holds_cancelled (h : ViewStep jc x ev v)
    (hspares : (jc.view x).SparesOthers) (hrevives : jc.revives x id ev = false)
    (hcancelled : (jc.queue x).Holds id fun job => job.status = .cancelled) :
    v.queue.Holds id fun job => job.status = .cancelled := by
  cases h with
  | added hcall hnode hstage =>
    refine hcancelled.addJob fun hid => .inl ?_
    simpa [revives, hcall, hnode, hstage, Stage.job, hid] using hrevives
  | @rebuilt now snapshot hphase =>
    refine .rebuildFromSnapshot _ fun job hjob hid => ?_
    have hall : ∀ job ∈ snapshot.jobs, job.id = id → job.status = .cancelled := by
      simpa [revives, hphase, Phase.snapshot] using hrevives
    exact hall job hjob hid
  | applied hphase =>
    refine hcancelled.applyCommand _ (fun hsubmitted => ?_) fun job hjob => ?_
    · simpa [revives, hphase, Phase.next, hsubmitted, Option.isSome_iff_ne_none] using hrevives
    · rw [Job.applyCommand_of_cancelled hjob]
      exact hjob
  | cleaned hdrain => exact hcancelled.retain _
  | marked hdrain =>
    refine hcancelled.modifyJob (fun _ => rfl) fun hid job hjob heq => ?_
    refine absurd heq (hspares id ?_ job hjob).1
    change (jc.sites x).drain.chosenJob = some id
    rw [hdrain, hid]
    rfl
  | stored hworker =>
    refine hcancelled.modifyJob (fun _ => rfl) fun hid job hjob heq => ?_
    have hstatus : ((jc.queue x).getJob id).map Job.status = some .cancelled := by
      rw [hjob, Option.map_some, heq]
    simp [revives, hworker, WorkerStage.storingJob, hid, hstatus] at hrevives
  | _ => exact hcancelled

structure Careful (jc : JobCluster) (x : ℕ) : Prop where
  fresh : jc.service.Fresh
  steady : (jc.view x).Steady
  spares : (jc.view x).SparesOthers

theorem careful_start (ids : List ℕ) (peers : ℕ → List PeerConfig) (x : ℕ) :
    (start ids peers).Careful x where
  fresh _ hcall := absurd hcall List.not_mem_nil
  steady := steady_start ids peers x
  spares _ hid := by cases hid

theorem Careful.step (h : jc.Careful x) (hstep : jc.step lib ids ev = some jc') :
    jc'.Careful x where
  fresh := fresh_of_step hstep h.fresh
  steady := (viewStep_of_step hstep x).steady h.steady
  spares := (viewStep_of_step hstep x).sparesOthers h.fresh h.steady h.spares

/-- Once a node shows a job as cancelled, no run shows the job there with another status, unless a
result is stored over it or the job is put back by a late insertion, a second submission or a
snapshot. -/
theorem cancelled_is_final {peers : ℕ → List PeerConfig}
    (h : Reach (step lib ids) (fun _ _ => True) (start ids peers) jc)
    (hcancelled : ((jc.queue x).getJob id).map Job.status = some .cancelled)
    (h' : Reach (step lib ids) (fun jc ev => jc.revives x id ev = false) jc jc') :
    ∀ job ∈ (jc'.queue x).getJob id, job.status = .cancelled := by
  have hcareful : jc.Careful x := h.invariant (P := fun jc => jc.Careful x)
    (careful_start ids peers x) fun hs _ hstep => hs.step hstep
  have hshown : (jc.queue x).Holds id fun job => job.status = .cancelled := by
    intro job hjob
    rw [show (jc.queue x).getJob id = some job from hjob] at hcancelled
    exact Option.some.inj hcancelled
  have hkept : jc'.Careful x ∧ (jc'.queue x).Holds id fun job => job.status = .cancelled := by
    refine h'.invariant (P := fun jc => jc.Careful x ∧
      (jc.queue x).Holds id fun job => job.status = .cancelled) ⟨hcareful, hshown⟩ ?_
    rintro s s' ev ⟨hs, hheld⟩ hrevives hstep
    exact ⟨hs.step hstep,
      (viewStep_of_step hstep x).holds_cancelled hs.spares hrevives hheld⟩
  exact hkept.2

def executionStarted : List JobEvent :=
  registration 1 ++ raftSteps (Cluster.electedBy 1 2 1 0 0) ++ submission 1 0 7 ++ marking 1 7 ++
    [.drain 1 .send, .service (.handleMessage 1), .drain 1 (.chooseNone 0)] ++ execution 1 7

def cancellation (x c : ℕ) (id : Uuid) : List JobEvent :=
  [.service (.cancelJob x ⟨WireLib.standard.uuidToString id⟩), .service (.call c .checkLeader),
    .service (.call c (.checkQueue id .epoch)), .service (.call c .send),
    .service (.handleMessage x)]

def cancellationApplied : List JobEvent :=
  cancellation 1 1 7 ++
    replication 1 2 1 [submitEntry 1 7, ⟨1, 2, .assignJob 7 1⟩, ⟨1, 3, .cancelJob 7⟩] ++
    application 1 ++
    [.schedule 1 (.applyEntry ⟨.epoch, 0⟩), .schedule 1 (.applyEntry ⟨.epoch, 0⟩)]

def success : ExecutionResult := ⟨.completed, some 0, some "", none⟩

theorem early_cancel_kept : ∃ jc jc',
    Reach (step .standard [1, 2]) (fun _ _ => True) (start [1, 2] fun _ => []) jc ∧
      ((jc.queue 1).getJob 7).map Job.status = some .cancelled ∧
      Reach (step .standard [1, 2]) (fun jc ev => jc.revives 1 7 ev = false) jc jc' ∧
      (jc'.sites 1).worker = .running ⟨[], []⟩ ∧
      ∀ job ∈ (jc'.queue 1).getJob 7, job.status = .cancelled := by
  obtain ⟨jc, hreach, hstatus, hrun⟩ := exists_reach_of_guardedRun (step .standard [1, 2])
    (fun _ _ => True)
    (fun jc => ((jc.queue 1).getJob 7).map Job.status = some .cancelled ∧
      (guardedRun (step .standard [1, 2]) (fun jc ev => jc.revives 1 7 ev = false) jc
        [.work 1 (.finish success), .work 1 .release]).any
          (fun jc' => decide ((jc'.sites 1).worker = .running ⟨[], []⟩)) = true)
    (start [1, 2] fun _ => []) (executionStarted ++ cancellationApplied) (by decide +kernel)
  obtain ⟨jc', hreach', hworker⟩ := exists_reach_of_guardedRun (step .standard [1, 2])
    (fun jc ev => jc.revives 1 7 ev = false)
    (fun jc' => (jc'.sites 1).worker = .running ⟨[], []⟩) jc _ hrun
  exact ⟨jc, jc', hreach, hstatus, hreach', hworker, cancelled_is_final hreach hstatus hreach'⟩

/-- The cancellation is applied after the worker loop has looked at the status and before it stores
the result. -/
theorem stored_result_hides_cancel : ∃ jc jc',
    Reach (step .standard [1, 2]) (fun _ _ => True) (start [1, 2] fun _ => []) jc ∧
      ((jc.queue 1).getJob 7).map Job.status = some .cancelled ∧
      Reach (step .standard [1, 2]) (fun _ _ => True) jc jc' ∧
      ((jc'.queue 1).getJob 7).map Job.status = some .completed := by
  obtain ⟨jc, hreach, hstatus, hrun⟩ := exists_reach_of_guardedRun (step .standard [1, 2])
    (fun _ _ => True)
    (fun jc => ((jc.queue 1).getJob 7).map Job.status = some .cancelled ∧
      (guardedRun (step .standard [1, 2]) (fun _ _ => True) jc
        [.work 1 (.storeResult .epoch)]).any
          (fun jc' => decide (((jc'.queue 1).getJob 7).map Job.status = some .completed)) = true)
    (start [1, 2] fun _ => [])
    (executionStarted ++ [.work 1 (.finish success)] ++ cancellationApplied) (by decide +kernel)
  obtain ⟨jc', hreach', hshown⟩ := exists_reach_of_guardedRun (step .standard [1, 2])
    (fun _ _ => True) (fun jc' => ((jc'.queue 1).getJob 7).map Job.status = some .completed) jc _
    hrun
  exact ⟨jc, jc', hreach, hstatus, hreach', hshown⟩

end JobCluster
end NomadLite
