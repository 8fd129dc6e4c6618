import NomadLite.JobAccounts

/-!
# The tasks of one node

`NodeView` is what the scheduler loop, the assignment branch and the worker loop of a
node share, and where each of them stands. `ViewStep` lists what a step of the cluster
can make of the view of a node, with the guards that the step has passed: an invariant
of one node is proved by cases on it.
-/

namespace NomadLite

structure NodeView where
  queue : JobQueue
  assigner : JobAssigner
  phase : Phase
  drain : DrainStage
  worker : WorkerStage

def WorkerStage.Plain : WorkerStage → Prop
  | .releasing .. | .storing .. | .stored .. => False
  | _ => True

namespace JobCluster

def view (jc : JobCluster) (x : ℕ) : NodeView where
  queue := jc.queue x
  assigner := (jc.sites x).assigner
  phase := (jc.sites x).phase
  drain := (jc.sites x).drain
  worker := (jc.sites x).worker

inductive ViewStep (jc : JobCluster) (x : ℕ) : JobEvent → NodeView → Prop where
  | same {ev : JobEvent} : ViewStep jc x ev (jc.view x)
  | added {c : ℕ} {call : ClientCall} {job : Job} (hcall : jc.service.calls[c]? = some call)
      (hnode : call.node = x) (hstage : call.stage = .adding job) :
      ViewStep jc x (.service (.call c .addJob))
        { jc.view x with queue := ((jc.queue x).addJob job).1 }
  | woken (hdrain : (jc.sites x).drain = .idle) :
      ViewStep jc x (.schedule x .changed) { jc.view x with phase := .woken }
  | moved {ev : SchedulerEvent} (phase : Phase) (hphase : (jc.sites x).phase ≠ .waiting) :
      ViewStep jc x (.schedule x ev) { jc.view x with phase := phase }
  | rebuilt {now : Clock} {snapshot : Snapshot}
      (hphase : (jc.sites x).phase = .rebuilding snapshot) :
      ViewStep jc x (.schedule x (.rebuildFromSnapshot now))
        { jc.view x with
          queue := (jc.queue x).rebuildFromSnapshot snapshot
          assigner := .rebuildFromSnapshot now.instant snapshot
          phase := .waiting }
  | applied {now : Clock} {e : LogEntry} {rest : List LogEntry}
      (hphase : (jc.sites x).phase = .applying (e :: rest)) :
      ViewStep jc x (.schedule x (.applyEntry now))
        { jc.view x with
          queue := (jc.queue x).applyCommand now.utc e.command
          assigner := (jc.sites x).assigner.applyCommand now.instant (jc.queue x) e.command
          phase := .applying rest }
  | cleaned {now : DateTime} (hdrain : (jc.sites x).drain = .idle) :
      ViewStep jc x (.cleanup x now) { jc.view x with
        queue := ((jc.queue x).cleanupFinishedJobs now jobHistoryRetentionSecs).1 }
  | leaderChecked {drain : DrainStage} (hidle : (jc.sites x).drain = .idle)
      (hphase : (jc.sites x).phase = .waiting) (hdrain : drain = .choosing ∨ drain = .idle) :
      ViewStep jc x (.drain x .checkLeader) { jc.view x with drain := drain }
  | chosen {jobId : Uuid} {workerId : ℕ} {now : Instant}
      (hdrain : (jc.sites x).drain = .choosing)
      (hpending : ((jc.queue x).getJob jobId).map Job.status = some .pending)
      (hworker : (jc.sites x).assigner.LeastLoaded now workerId) :
      ViewStep jc x (.drain x (.choose jobId workerId now))
        { jc.view x with drain := .chosen jobId workerId }
  | chosenNone {now : Instant} (hdrain : (jc.sites x).drain = .choosing) :
      ViewStep jc x (.drain x (.chooseNone now)) { jc.view x with drain := .idle }
  | marked {jobId : Uuid} {workerId : ℕ} (hdrain : (jc.sites x).drain = .chosen jobId workerId) :
      ViewStep jc x (.drain x .mark)
        { jc.view x with
          queue := ((jc.queue x).assignJob jobId workerId).1
          drain := .marked jobId workerId }
  | counted {jobId : Uuid} {workerId : ℕ} (hdrain : (jc.sites x).drain = .marked jobId workerId) :
      ViewStep jc x (.drain x .count)
        { jc.view x with
          assigner := (jc.sites x).assigner.countJob workerId jobId
          drain := .counted jobId workerId }
  | sent {jobId : Uuid} {workerId : ℕ} (hdrain : (jc.sites x).drain = .counted jobId workerId) :
      ViewStep jc x (.drain x .send) { jc.view x with drain := .choosing }
  | registered {now : Instant} (hworker : (jc.sites x).worker.Plain) :
      ViewStep jc x (.work x (.register now))
        { jc.view x with
          assigner := (jc.sites x).assigner.registerWorker now x
          worker := .registered }
  | beaten {connected : Bool} {now : Instant} {assigner : JobAssigner}
      (hworker : (jc.sites x).worker.Plain)
      (hassigner : assigner = if (jc.node x).isLeader then
        (jc.sites x).assigner.workerHeartbeat now x else (jc.sites x).assigner) :
      ViewStep jc x (.work x (.heartbeat connected now))
        { jc.view x with assigner := assigner, worker := .polling }
  | worked {ev : WorkerEvent} {worker : WorkerStage} (hold : (jc.sites x).worker.Plain)
      (hnew : worker.Plain) : ViewStep jc x (.work x ev) { jc.view x with worker := worker }
  | foundCancelled {result : ExecutionResult} {job : JobToRun} {batch : Batch}
      (hworker : (jc.sites x).worker = .executing job batch)
      (hstatus : ((jc.queue x).getJob job.id).map Job.status = some .cancelled) :
      ViewStep jc x (.work x (.finish result))
        { jc.view x with worker := .releasing job batch }
  | finished {result : ExecutionResult} {job : JobToRun} {batch : Batch}
      (hworker : (jc.sites x).worker = .executing job batch) (hended : result.Ended) :
      ViewStep jc x (.work x (.finish result))
        { jc.view x with worker := .storing job result batch }
  | released {job : JobToRun} {batch : Batch}
      (hworker : (jc.sites x).worker = .releasing job batch) :
      ViewStep jc x (.work x .release)
        { jc.view x with
          assigner := (jc.sites x).assigner.jobCompleted x job.id
          worker := .running batch }
  | stored {now : DateTime} {job : JobToRun} {result : ExecutionResult} {batch : Batch}
      (hworker : (jc.sites x).worker = .storing job result batch) :
      ViewStep jc x (.work x (.storeResult now))
        { jc.view x with
          queue := ((jc.queue x).updateJobResult job.id result x now).1
          worker := .stored ⟨job.id, result.status, x, result.exitCode, some now⟩ batch }
  | completed {update : JobStatusUpdate} {batch : Batch}
      (hworker : (jc.sites x).worker = .stored update batch) :
      ViewStep jc x (.work x .completeJob)
        { jc.view x with
          assigner := (jc.sites x).assigner.jobCompleted x update.jobId
          worker := .running ⟨batch.todo, batch.updates ++ [update]⟩ }
  | heard {workerId : ℕ} {now : Instant} :
      ViewStep jc x (.workerHeartbeat x workerId now)
        { jc.view x with assigner := (jc.sites x).assigner.workerHeartbeat now workerId }

variable {lib : WireLib} {ids : List ℕ} {jc jc' : JobCluster} {ev : JobEvent}

theorem view_set_self (jc : JobCluster) (x : ℕ) (host : Host) (site : Site) :
    (jc.set x (host, site)).view x =
      ⟨host.queue, site.assigner, site.phase, site.drain, site.worker⟩ := by
  simp only [view, set, queue, JobCluster.host, Service.setHost, Function.update_self]

theorem view_set_other (jc : JobCluster) {x y : ℕ} (hy : y ≠ x) (host : Host) (site : Site) :
    (jc.set x (host, site)).view y = jc.view y := by
  simp only [view, set, queue, JobCluster.host, Service.setHost, Function.update_of_ne hy]

theorem view_schedule_other (lib : WireLib) (jc : JobCluster) {x y : ℕ} (hy : y ≠ x)
    (ev : SchedulerEvent) (sc : Scheduler) : (jc.schedule lib x ev sc).view y = jc.view y := by
  simp only [view, schedule, queue, JobCluster.host, Function.update_of_ne hy]

theorem view_schedule_self (lib : WireLib) (jc : JobCluster) (x : ℕ) (ev : SchedulerEvent)
    (sc : Scheduler) : (jc.schedule lib x ev sc).view x =
      ⟨sc.queue, sc.assigner, sc.phase, (jc.sites x).drain, (jc.sites x).worker⟩ := by
  simp only [view, schedule, queue, JobCluster.host, Function.update_self]
  unfold scheduled
  split <;> rfl

theorem view_serve (jc : JobCluster) (ev : ServiceEvent) (svc : Service) (y : ℕ) :
    (jc.serve ev svc).view y = { jc.view y with queue := (svc.hosts y).queue } := by
  by_cases hadd : ∃ c, ev = .call c .addJob
  · obtain ⟨c, rfl⟩ := hadd
    have hsites : (jc.serve (.call c .addJob) svc).sites = jc.submitting c := rfl
    rcases jc.submitting_eq c with heq | ⟨x, id, w, found, heq⟩
    · rw [view, hsites, heq]
      rfl
    · rw [view, hsites, heq]
      by_cases hy : y = x
      · subst hy
        simp only [Function.update_self]
        rfl
      · simp only [Function.update_of_ne hy]
        rfl
  · rw [view, serve_sites fun c hc => hadd ⟨c, hc⟩]
    rfl

theorem viewStep_service {sev : ServiceEvent} {svc : Service} (hev : sev.isServices = true)
    (hsvc : jc.service.step lib ids sev = some svc) (x : ℕ) :
    ViewStep jc x (.service sev) ((jc.serve sev svc).view x) := by
  have hchange := Service.hostChange_of_step hsvc hev x
  rw [view_serve]
  generalize svc.hosts x = host at hchange
  cases hchange with
  | added hcall hnode hstage => exact .added hcall hnode hstage
  | _ => exact .same

theorem viewStep_schedule {x : ℕ} {sev : SchedulerEvent} {sc : Scheduler}
    (hloops : sev.isLoops (jc.sites x).drain = true)
    (hsc : (jc.scheduler x).step lib sev = some sc) :
    ViewStep jc x (.schedule x sev) ((jc.schedule lib x sev sc).view x) := by
  have hne : ∀ {phase : Phase}, (jc.scheduler x).phase = phase → phase ≠ .waiting →
      (jc.sites x).phase ≠ .waiting := fun hphase hne heq => hne (hphase.symm.trans heq)
  rw [view_schedule_self]
  cases Scheduler.stepped_of_step hsc with
  | appendEntries | installSnapshot => cases hloops
  | changed hphase hunseen => exact .woken (of_decide_eq_true hloops)
  | takePendingSnapshot hphase =>
    rw [Scheduler.takePendingSnapshot]
    split <;> exact .moved _ (hne hphase (by decide))
  | rebuildFromSnapshot hphase now => exact .rebuilt hphase
  | getCommittedEntries hphase => exact .moved _ (hne hphase (by decide))
  | applyEntry hphase now => exact .applied hphase
  | beginCompaction hphase =>
    rw [Scheduler.beginCompaction]
    split <;> exact .moved _ (hne hphase (by decide))
  | finishCompaction hphase => exact .moved _ (hne hphase (by decide))

theorem viewStep_drain {x : ℕ} {dev : DrainEvent} {host : Host} {site : Site}
    (h : (jc.sites x).drainStep (jc.node x) (jc.host x) dev = some (host, site)) :
    ViewStep jc x (.drain x dev) ((jc.set x (host, site)).view x) := by
  rw [view_set_self]
  cases Site.drainMove_of_drainStep h with
  | leaderChecked hidle hphase =>
    refine .leaderChecked hidle hphase ?_
    dsimp only
    split_ifs
    · exact .inl rfl
    · exact .inr rfl
  | chosen hdrain hpending hworker => exact .chosen hdrain hpending hworker
  | chosenNone hdrain hnone => exact .chosenNone hdrain
  | marked hdrain => exact .marked hdrain
  | counted hdrain => exact .counted hdrain
  | sent hdrain hsend =>
    rw [Host.queue_of_send hsend]
    exact .sent hdrain

theorem assigner_of_heartbeat {x : ℕ} {nd : RaftNode} {calls : List ForwardCall}
    {host host' : Host} {site site' : Site} {connected : Bool} {now : Instant}
    (h : site.workStep x nd calls host (.heartbeat connected now) = some (host', site')) :
    site'.assigner =
      if nd.isLeader then site.assigner.workerHeartbeat now x else site.assigner := by
  cases hworker : site.worker with
  | waiting =>
    simp only [Site.workStep, hworker] at h
    obtain ⟨-, rfl⟩ := Prod.mk.inj (Option.some.inj h)
    split_ifs <;> rfl
  | _ =>
    simp only [Site.workStep, hworker] at h
    cases h

theorem viewStep_work {x : ℕ} {wev : WorkerEvent} {host : Host} {site : Site}
    (h : (jc.sites x).workStep x (jc.node x) jc.forwards (jc.host x) wev = some (host, site)) :
    ViewStep jc x (.work x wev) ((jc.set x (host, site)).view x) := by
  have hplain : ∀ {stage : WorkerStage}, (jc.sites x).worker = stage → stage.Plain →
      (jc.sites x).worker.Plain := fun heq hstage => heq ▸ hstage
  rw [view_set_self]
  cases Site.worked_of_workStep h with
  | register hworker => exact .registered (hplain hworker trivial)
  | sendRegister hworker hsend | send hworker hsend =>
    rw [Host.queue_of_send hsend]
    exact .worked (hplain hworker trivial) trivial
  | heartbeat hworker assigner =>
    exact .beaten (hplain hworker trivial) (assigner_of_heartbeat h)
  | cancelled hworker hended hstatus => exact .foundCancelled hworker hstatus
  | finish hworker hended hstatus => exact .finished hworker hended
  | release hworker => exact .released hworker
  | storeResult hworker => exact .stored hworker
  | completeJob hworker => exact .completed hworker
  | poll hworker | execute hworker | flushNothing hworker | flushHere hworker
  | flushThere hworker | flushNowhere hworker | forward hworker | forwardReturned hworker
  | forwardFailed hworker | endIteration hworker =>
    exact .worked (hplain hworker trivial) trivial

/-- A step that changes node `y` alone is a step of that node. -/
theorem viewStep_set {y : ℕ} {r : Host × Site} (h : ViewStep jc y ev ((jc.set y r).view y))
    (x : ℕ) : ViewStep jc x ev ((jc.set y r).view x) := by
  by_cases hx : x = y
  · subst hx
    exact h
  · rw [view_set_other jc hx]
    exact .same

theorem viewStep_of_step (h : jc.step lib ids ev = some jc') (x : ℕ) :
    ViewStep jc x ev (jc'.view x) := by
  cases ev with
  | service sev =>
    rw [step] at h
    split_ifs at h with hev
    obtain ⟨svc, hsvc, rfl⟩ := Option.map_eq_some_iff.mp h
    exact viewStep_service hev hsvc x
  | schedule y sev =>
    rw [step] at h
    split_ifs at h with hguard
    obtain ⟨sc, hsc, rfl⟩ := Option.map_eq_some_iff.mp h
    by_cases hx : x = y
    · subst hx
      exact viewStep_schedule hguard.2 hsc
    · rw [view_schedule_other lib jc hx]
      exact .same
  | cleanup y now =>
    rw [step] at h
    split_ifs at h with hguard
    obtain rfl := Option.some.inj h
    apply viewStep_set
    rw [view_set_self]
    exact .cleaned hguard.2.2
  | drain y dev =>
    rw [step] at h
    split_ifs at h
    obtain ⟨⟨host, site⟩, hdrain, rfl⟩ := Option.map_eq_some_iff.mp h
    exact viewStep_set (viewStep_drain hdrain) x
  | work y wev =>
    rw [step] at h
    split_ifs at h
    obtain ⟨⟨host, site⟩, hwork, rfl⟩ := Option.map_eq_some_iff.mp h
    exact viewStep_set (viewStep_work hwork) x
  | workerHeartbeat y workerId now =>
    obtain rfl := Option.some.inj h
    apply viewStep_set
    rw [view_set_self]
    exact .heard
  | forwardJobStatus y updates =>
    obtain rfl := Option.some.inj h
    exact .same
  | forward c =>
    rw [step] at h
    split at h
    · next call hcall =>
      obtain ⟨⟨host, call'⟩, hforward, rfl⟩ := Option.map_eq_some_iff.mp h
      have hqueue : host.queue = (jc.host call.receiver).queue := by
        cases ForwardCall.forwarded_of_step hforward <;> rfl
      have hself : ViewStep jc call.receiver (.forward c)
          ((jc.set call.receiver (host, jc.sites call.receiver)).view call.receiver) := by
        rw [view_set_self, hqueue]
        exact .same
      exact viewStep_set hself x
    · cases h

end JobCluster

/-! ### The branch for new jobs and the scheduler loop are one task -/

/-- The branch for new jobs runs only while the scheduler loop waits for a commit, and a result
that waits to be stored is one that `execute` returns. -/
structure NodeView.Steady (v : NodeView) : Prop where
  waiting : v.drain ≠ .idle → v.phase = .waiting
  ended : v.worker.Ended

namespace JobCluster

variable {lib : WireLib} {ids : List ℕ} {jc jc' : JobCluster} {ev : JobEvent} {x : ℕ}
  {v : NodeView}

theorem ViewStep.steady (h : ViewStep jc x ev v) (hs : (jc.view x).Steady) : v.Steady := by
  have hother : ∀ {stage : DrainStage}, (jc.sites x).drain = stage → stage ≠ .idle →
      (jc.sites x).phase = .waiting := fun heq hne => hs.waiting fun hidle => hne (heq ▸ hidle)
  have hended : ∀ {stage : WorkerStage}, stage.Plain → stage.Ended := by
    intro stage hplain
    cases stage with
    | storing => cases hplain
    | _ => trivial
  cases h with
  | same | added | cleaned | heard => exact ⟨hs.waiting, hs.ended⟩
  | woken hdrain => exact ⟨fun hne => absurd hdrain hne, hs.ended⟩
  | moved phase hphase => exact ⟨fun hne => absurd (hs.waiting hne) hphase, hs.ended⟩
  | rebuilt hphase => exact ⟨fun _ => rfl, hs.ended⟩
  | applied hphase =>
    exact ⟨fun hne => absurd (hphase.symm.trans (hs.waiting hne)) (by simp), hs.ended⟩
  | leaderChecked hidle hphase hdrain => exact ⟨fun _ => hphase, hs.ended⟩
  | chosenNone => exact ⟨fun hne => absurd rfl hne, hs.ended⟩
  | chosen hdrain | marked hdrain | counted hdrain | sent hdrain =>
    exact ⟨fun _ => hother hdrain (by simp), hs.ended⟩
  | registered | beaten | foundCancelled | released | stored | completed =>
    exact ⟨hs.waiting, trivial⟩
  | worked hold hnew => exact ⟨hs.waiting, hended hnew⟩
  | finished hworker hresult => exact ⟨hs.waiting, hresult⟩

theorem steady_start (ids : List ℕ) (peers : ℕ → List PeerConfig) (x : ℕ) :
    ((start ids peers).view x).Steady := ⟨fun _ => rfl, trivial⟩

theorem fresh_of_step (h : jc.step lib ids ev = some jc') (hfresh : jc.service.Fresh) :
    jc'.service.Fresh := by
  cases stepped_of_step h with
  | service hev hsvc => exact Service.fresh_of_step hsvc hfresh
  | _ => exact hfresh

end JobCluster
end NomadLite
