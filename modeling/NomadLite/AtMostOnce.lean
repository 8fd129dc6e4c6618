import NomadLite.JobExecutions
import NomadLite.SettledQueues

/-!
# At most one execution

The worker loop starts what its own queue shows as running on its node. Where the queue
says no more than the log, no job is started twice. The queue of a leader does say more:
a job that is marked there, and whose assignment is never committed, is started there
and then again by the worker that the next leader chooses.
-/

namespace NomadLite

open Optimistic Runs

def DirectWrite.isFinished : DirectWrite → Bool
  | .finished _ => true
  | _ => false

namespace JobCluster

/-- The worker loop polls jobs to which no direct write is outstanding, and the queue is not
rebuilt from a snapshot that is behind it or that has a job active whose result it stores. -/
def Exclusive (jc : JobCluster) : JobEvent → Prop
  | .work x (.poll jobs) => ∀ job ∈ jobs, (jc.sites x).writesOn job.id = []
  | .schedule x (.rebuildFromSnapshot _) => ∀ snap ∈ (jc.sites x).phase.snapshot,
      (jc.sites x).applied ≤ snap.lastIncludedIndex ∧
        ∀ p ∈ (jc.sites x).outstanding, p.2.isFinished = true →
          ∀ core ∈ snap.core p.1, core.status.isActive = false
  | _ => True

instance (jc : JobCluster) : (ev : JobEvent) → Decidable (jc.Exclusive ev)
  | .work _ (.poll jobs) => inferInstanceAs (Decidable (∀ job ∈ jobs, _))
  | .schedule x (.rebuildFromSnapshot _) =>
    inferInstanceAs (Decidable (∀ snap ∈ (jc.sites x).phase.snapshot,
      _ ∧ ∀ p ∈ (jc.sites x).outstanding, _))
  | .service _ | .schedule _ (.applyEntry _) | .schedule _ (.finishCompaction _ _)
  | .schedule _ (.appendEntries ..) | .schedule _ (.installSnapshot ..)
  | .schedule _ .changed | .schedule _ .takePendingSnapshot
  | .schedule _ .getCommittedEntries | .schedule _ .beginCompaction | .cleanup .. | .drain ..
  | .work _ (.storeResult _) | .work _ (.register _) | .work _ .sendRegister
  | .work _ (.heartbeat ..) | .work _ .execute | .work _ (.finish _) | .work _ .release
  | .work _ .completeJob | .work _ .flush | .work _ .send | .work _ .forward
  | .work _ .forwardReturned | .work _ .forwardFailed | .work _ .endIteration
  | .workerHeartbeat .. | .forwardJobStatus .. | .forward _ => isTrue trivial

structure Once (jc : JobCluster) : Prop where
  nodup : (jc.executed.map Prod.snd).Nodup
  sites : ∀ x, (jc.sites x).Once jc.committed jc.executed x

variable {lib : WireLib} {ids : List ℕ} {jc jc' : JobCluster}

theorem once_start (ids : List ℕ) (peers : ℕ → List PeerConfig) : (start ids peers).Once where
  nodup := List.nodup_nil
  sites := .new _

theorem assigned_unique (hrep : ∀ c ∈ jc.committed, c.Reports) {x y : ℕ} {site site' : Site}
    {id : Uuid} (h : site.Assigned jc.committed x id) (h' : site'.Assigned jc.committed y id) :
    x = y := by
  obtain ⟨core, hcore, hassigned⟩ := h
  obtain ⟨core', hcore', hassigned'⟩ := h'
  rcases le_total site.applied site'.applied with hle | hle
  · obtain ⟨core'', hcore'', hassigned'', -⟩ := replay_assigned hrep hle hcore hassigned
    rw [Option.some.inj (hcore''.symm.trans hcore')] at hassigned''
    exact Option.some.inj (hassigned''.1.symm.trans hassigned'.1)
  · obtain ⟨core'', hcore'', hassigned'', -⟩ := replay_assigned hrep hle hcore' hassigned'
    rw [Option.some.inj (hcore''.symm.trans hcore)] at hassigned''
    exact Option.some.inj (hassigned.1.symm.trans hassigned''.1)

namespace Once

theorem advance (h : jc.Once) (hexecuted : jc'.executed = jc.executed)
    (hsites : ∀ y, Site.Advances jc.committed jc'.committed (jc.sites y) (jc'.sites y) ∧
      (jc'.sites y).worker = (jc.sites y).worker) : jc'.Once where
  nodup := hexecuted ▸ h.nodup
  sites y := by
    rw [hexecuted]
    exact (h.sites y).advance (hsites y).1 (hsites y).2

/-- A step that changes the site of one node, and at most its record of direct writes. -/
theorem advance_one (h : jc.Once) (hexecuted : jc'.executed = jc.executed)
    (hcommitted : jc'.committed = jc.committed) {x : ℕ} {site : Site}
    (hsites : jc'.sites = Function.update jc.sites x site)
    (hadvances : Site.Advances jc.committed jc.committed (jc.sites x) site)
    (hworker : site.worker = (jc.sites x).worker) : jc'.Once := by
  refine h.advance hexecuted fun y => ?_
  rw [hcommitted, hsites]
  by_cases hy : y = x
  · rw [hy, Function.update_self]
    exact ⟨hadvances, hworker⟩
  · rw [Function.update_of_ne hy]
    exact ⟨.refl _ _, rfl⟩

theorem serve (h : jc.Once) (ev : ServiceEvent) (svc : Service) : (jc.serve ev svc).Once := by
  by_cases hadd : ∃ c, ev = .call c .addJob
  · obtain ⟨c, rfl⟩ := hadd
    have hsites : (jc.serve (.call c .addJob) svc).sites = jc.submitting c := rfl
    rcases jc.submitting_eq c with heq | ⟨x, id, w, found, heq⟩
    · refine h.advance rfl fun y => ?_
      rw [hsites, heq]
      exact ⟨.refl _ _, rfl⟩
    · exact h.advance_one rfl rfl (hsites.trans heq) (.record ..) rfl
  · refine h.advance rfl fun y => ?_
    rw [serve_sites fun c hc => hadd ⟨c, hc⟩]
    exact ⟨.refl _ _, rfl⟩

/-! ### The scheduler loop -/

theorem schedule (hacc : jc.Accounted lib) (h : jc.Once) {x : ℕ} {ev : SchedulerEvent}
    {sc : Scheduler} {committed : List Command}
    (hcommitting : jc.committing lib (jc.sites x) ev = committed)
    (hgrows : committed = jc.committed ∨ ∃ c, committed = jc.committed ++ [c])
    (hadvances : Site.Advances committed committed (jc.sites x)
      (scheduled lib (jc.sites x) sc ev)) : (jc.schedule lib x ev sc).Once := by
  have hothers : ∀ y, Site.Advances jc.committed committed (jc.sites y) (jc.sites y) := by
    rcases hgrows with rfl | ⟨c, rfl⟩
    · exact fun y => .refl _ _
    · exact fun y => .concat (hacc.tracks y).applied c
  subst hcommitting
  refine h.advance rfl fun y => ?_
  change Site.Advances jc.committed _ (jc.sites y) (Function.update jc.sites x _ y) ∧
    (Function.update jc.sites x _ y).worker = _
  by_cases hy : y = x
  · rw [hy, Function.update_self]
    exact ⟨(hothers x).trans hadvances, scheduled_worker ..⟩
  · rw [Function.update_of_ne hy]
    exact ⟨hothers y, rfl⟩

theorem applyEntry (hacc : jc.Accounted lib) (h : jc.Once) {x : ℕ} {e : LogEntry}
    {rest : List LogEntry} (now : Clock) (hphase : (jc.sites x).phase = .applying (e :: rest))
    (hmay : (jc.sites x).MayApply lib jc.committed (jc.queue x) e) (sc : Scheduler) :
    (jc.schedule lib x (.applyEntry now) sc).Once := by
  obtain ⟨happlied, houtstanding⟩ := scheduled_applyEntry lib hphase sc now
  have hcommands : ∀ c ∈ jc.committed, c.Reports := fun c hc => (hacc.commands c hc).2
  obtain ⟨-, hagrees, hrep, -⟩ := hmay
  rcases committing_applyEntry hphase (hacc.tracks x).applied hagrees now with
    ⟨heq, hget⟩ | ⟨heq, hlength⟩
  · exact schedule hacc h heq (.inl rfl)
      (.applyEntry hcommands hrep hget happlied houtstanding)
  · refine schedule hacc h heq (.inr ⟨_, rfl⟩)
      (.applyEntry ?_ hrep ?_ happlied houtstanding)
    · exact List.forall_mem_append.mpr ⟨hcommands,
        List.forall_mem_singleton.mpr (Command.onWire_reports hrep)⟩
    · rw [hlength, List.getElem?_concat_length]

theorem rebuildFromSnapshot (hacc : jc.Accounted lib) (h : jc.Once) {x : ℕ} {snap : Snapshot}
    (now : Clock) (hphase : (jc.sites x).phase = .rebuilding snap)
    (hexcl : jc.Exclusive (.schedule x (.rebuildFromSnapshot now))) (sc : Scheduler) :
    (jc.schedule lib x (.rebuildFromSnapshot now) sc).Once := by
  have hsnap : (jc.sites x).phase.snapshot = some snap := by
    rw [hphase]
    rfl
  obtain ⟨hle, hfinished⟩ := hexcl snap hsnap
  refine schedule hacc h rfl (.inl rfl) (.rebuild (fun c hc => (hacc.commands c hc).2)
    (hacc.phases x snap hsnap) hle (by simp only [scheduled, hphase]) fun id u hu => ?_)
  obtain ⟨p, hp, hwrite⟩ := List.mem_map.mp hu
  obtain ⟨hp, hid⟩ := List.mem_filter.mp hp
  rw [← of_decide_eq_true hid]
  exact hfinished p hp (by rw [hwrite]; rfl)

theorem schedule_step (hacc : jc.Accounted lib) (h : jc.Once) {x : ℕ} {ev : SchedulerEvent}
    {sc : Scheduler} (hord : jc.Orderly lib (.schedule x ev))
    (hexcl : jc.Exclusive (.schedule x ev)) (hstep : (jc.scheduler x).step lib ev = some sc) :
    (jc.schedule lib x ev sc).Once := by
  cases Scheduler.stepped_of_step hstep with
  | rebuildFromSnapshot hphase now => exact rebuildFromSnapshot hacc h now hphase hexcl _
  | applyEntry hphase now =>
    exact applyEntry hacc h now hphase (hord _ (congrArg Phase.next hphase)) _
  | _ => exact schedule hacc h rfl (.inl rfl) (.congr rfl rfl)

/-! ### The worker loop -/

theorem work_quiet (h : jc.Once) {x : ℕ} {ev : WorkerEvent} {host : Host} {site : Site}
    (hstarting : jc.starting x ev = []) (hsite : site.Once jc.committed jc.executed x) :
    (jc.work lib x ev (host, site)).Once := by
  have hexecuted : (jc.work lib x ev (host, site)).executed = jc.executed := by
    change jc.executed ++ jc.starting x ev = _
    rw [hstarting, List.append_nil]
  refine ⟨hexecuted ▸ h.nodup, fun y => ?_⟩
  rw [hexecuted]
  change (Function.update jc.sites x site y).Once jc.committed jc.executed y
  by_cases hy : y = x
  · rw [hy, Function.update_self]
    exact hsite
  · rw [Function.update_of_ne hy]
    exact h.sites y

/-- Nobody has started the job before: it would be assigned to them. -/
theorem work_execute (hacc : jc.Accounted lib) (h : jc.Once) {x : ℕ} {host : Host}
    {job : JobToRun} {todo : List JobToRun} {updates : List JobStatusUpdate}
    (hworker : (jc.sites x).worker = .running ⟨job :: todo, updates⟩) :
    (jc.work lib x .execute
      (host, { jc.sites x with worker := .executing job ⟨todo, updates⟩ })).Once := by
  have hexecuted : ∀ site, (jc.work lib x .execute (host, site)).executed =
      jc.executed ++ [(x, job.id)] := by
    intro site
    simp only [JobCluster.work, starting, hworker]
  have htodo := (h.sites x).todo
  rw [hworker] at htodo
  obtain ⟨hassigned, hnew⟩ := htodo job (List.mem_cons_self ..)
  refine ⟨?_, fun y => ?_⟩
  · rw [hexecuted, List.map_append, List.nodup_append]
    refine ⟨h.nodup, List.nodup_singleton _, fun id hid id' hid' heq => ?_⟩
    obtain ⟨⟨y, id''⟩, hmem, hid''⟩ := List.mem_map.mp hid
    obtain rfl : id'' = job.id := hid''.trans (heq.trans (List.mem_singleton.mp hid'))
    have hxy := assigned_unique (fun c hc => (hacc.commands c hc).2)
      ((h.sites y).assigned _ hmem) hassigned
    exact hnew (hxy ▸ hmem)
  · rw [hexecuted]
    change (Function.update jc.sites x _ y).Once jc.committed _ y
    by_cases hy : y = x
    · rw [hy, Function.update_self]
      exact (h.sites x).execute hworker
    · rw [Function.update_of_ne hy]
      exact (h.sites y).execute_other hy job.id

/-- The loop goes on; nothing it has started is left behind. -/
theorem work_move (h : jc.Once) {x : ℕ} {ev : WorkerEvent} {host : Host} {site : Site}
    (hstarting : jc.starting x ev = []) (happlied : site.applied = (jc.sites x).applied)
    (houtstanding : site.outstanding = (jc.sites x).outstanding)
    (htodo : site.worker.todo = (jc.sites x).worker.todo)
    (hcurrent : (jc.sites x).worker.current = none ∨
      site.worker.current = (jc.sites x).worker.current) :
    (jc.work lib x ev (host, site)).Once := by
  refine h.work_quiet hstarting ((h.sites x).move (.congr happlied houtstanding) htodo
    fun id hid _ => ?_)
  rcases hcurrent with hnone | hsame
  · rw [hnone] at hid
    cases hid
  · exact .inl (hsame.trans hid)

theorem work (hacc : jc.Accounted lib) (h : jc.Once) {x : ℕ} {ev : WorkerEvent} {host : Host}
    {site : Site} (hexcl : jc.Exclusive (.work x ev))
    (hworked : Site.Worked x (jc.node x) jc.forwards (jc.host x) (jc.sites x) ev host site) :
    (jc.work lib x ev (host, site)).Once := by
  have htracks := hacc.tracks x
  cases hworked with
  | poll hworker hjobs =>
    exact h.work_quiet rfl
      ((h.sites x).poll htracks (congrArg WorkerStage.current hworker) hjobs hexcl)
  | execute hworker => exact work_execute hacc h hworker
  | @cancelled result job batch hworker hended hstatus =>
    refine h.work_quiet rfl ((h.sites x).move (.congr rfl rfl)
      (congrArg WorkerStage.todo hworker).symm fun id hid hassigned => .inr ?_)
    obtain rfl : job.id = id :=
      Option.some.inj ((congrArg WorkerStage.current hworker).symm.trans hid)
    refine htracks.closed hassigned fun core hcore => ?_
    obtain ⟨job', hjob', rfl⟩ := Option.map_eq_some_iff.mp hcore
    rw [show (jc.host x).queue.getJob job.id = some job' from hjob'] at hstatus
    rw [show job'.core.status = .cancelled from Option.some.inj hstatus]
    rfl
  | finish hworker hended hstatus =>
    exact h.work_move rfl rfl rfl (congrArg WorkerStage.todo hworker).symm
      (.inr (congrArg WorkerStage.current hworker).symm)
  | @storeResult now job result batch hworker =>
    refine h.work_quiet rfl ((h.sites x).move ((Site.Advances.record ..).trans (.congr rfl rfl))
      (congrArg WorkerStage.todo hworker).symm fun id hid hassigned => .inr ?_)
    obtain rfl : job.id = id :=
      Option.some.inj ((congrArg WorkerStage.current hworker).symm.trans hid)
    exact htracks.closed_record hassigned _
  | register hworker | sendRegister hworker hsend | heartbeat hworker | release hworker
  | completeJob hworker | flushNothing hworker | flushHere hworker hne hleader
  | flushThere hworker hne hleader hcached | flushNowhere hworker hne hleader hcached
  | send hworker hsend | forward hworker | forwardReturned hworker hcall | forwardFailed hworker
  | endIteration hworker =>
    exact h.work_move rfl rfl rfl (congrArg WorkerStage.todo hworker).symm
      (.inl (congrArg WorkerStage.current hworker))

/-! ### Whole runs -/

theorem step (hacc : jc.Accounted lib) (h : jc.Once) {ev : JobEvent} (hord : jc.Orderly lib ev)
    (hexcl : jc.Exclusive ev) (hstep : jc.step lib ids ev = some jc') : jc'.Once := by
  cases stepped_of_step hstep with
  | @service ev svc => exact h.serve ev svc
  | schedule hloops hsc => exact schedule_step hacc h hord hexcl hsc
  | cleanup x now => exact h.advance_one rfl rfl rfl (.refl _ _) rfl
  | drain hdrained =>
    cases hdrained with
    | moved drain assigner => exact h.advance_one rfl rfl rfl (.congr rfl rfl) rfl
    | marked hdrain =>
      exact h.advance_one rfl rfl rfl ((Site.Advances.record ..).trans (.congr rfl rfl)) rfl
    | sent hdrain hsend => exact h.advance_one rfl rfl rfl (.congr rfl rfl) rfl
  | work hworked => exact work hacc h hexcl hworked
  | workerHeartbeat x workerId now => exact h.advance_one rfl rfl rfl (.congr rfl rfl) rfl
  | forwardJobStatus x updates => exact ⟨h.nodup, h.sites⟩
  | forward hcall hforwarded => exact h.advance_one rfl rfl rfl (.refl _ _) rfl

end Once

/-- In runs of orderly steps whose worker loops only start what the log assigns to them, every job
is started at most once in the whole cluster. -/
theorem executed_at_most_once (lib : WireLib) (ids : List ℕ) (peers : ℕ → List PeerConfig)
    {jc : JobCluster} (h : Reach (step lib ids) (fun jc ev => jc.Orderly lib ev ∧ jc.Exclusive ev)
      (start ids peers) jc) : (jc.executed.map Prod.snd).Nodup := by
  have honce : jc.Once := h.invariant_of (accounted_of_reach fun _ _ hq => hq.1)
    (once_start ids peers) fun hacc _ honce hq hstep => Once.step hacc honce hq.1 hq.2 hstep
  exact honce.nodup

def registration (x : ℕ) : List JobEvent :=
  [.work x (.register 0), .work x .sendRegister, .service (.handleMessage x)]

def marking (x : ℕ) (id : Uuid) : List JobEvent :=
  [.drain x .checkLeader, .drain x (.choose id x 0), .drain x .mark, .drain x .count]

def execution (x : ℕ) (id : Uuid) : List JobEvent :=
  [.work x (.heartbeat false 0), .work x (.poll [⟨id, "true", none⟩]), .work x .execute]

def assignedThenExecuted : List JobEvent :=
  registration 1 ++ raftSteps (Cluster.electedBy 1 2 1 0 0) ++ submission 1 0 7 ++ marking 1 7 ++
    [.drain 1 .send, .service (.handleMessage 1), .drain 1 (.chooseNone 0)] ++
    replication 1 2 1 [submitEntry 1 7, ⟨1, 2, .assignJob 7 1⟩] ++ application 1 ++
    [.schedule 1 (.applyEntry ⟨.epoch, 0⟩)] ++ execution 1 7

theorem first_job_executed_once : ∃ jc,
    Reach (step .standard [1, 2]) (fun jc ev => jc.Orderly .standard ev ∧ jc.Exclusive ev)
      (start [1, 2] fun _ => []) jc ∧ jc.executed = [(1, 7)] ∧
      (jc.executed.map Prod.snd).Nodup := by
  obtain ⟨jc, hreach, hexecuted⟩ := exists_reach_of_guardedRun (step .standard [1, 2])
    (fun jc ev => jc.Orderly .standard ev ∧ jc.Exclusive ev) (fun jc => jc.executed = [(1, 7)])
    (start [1, 2] fun _ => []) assignedThenExecuted (by decide +kernel)
  exact ⟨jc, hreach, hexecuted, executed_at_most_once _ _ _ hreach⟩

def executedTwice : List JobEvent :=
  registration 1 ++ registration 2 ++ bothApplied ++ marking 1 7 ++ execution 1 7 ++
    raftSteps (Cluster.electedBy 2 1 2 1 1) ++ marking 2 7 ++ execution 2 7

theorem job_executed_twice : ∃ jc,
    Reach (step .standard [1, 2]) (fun _ _ => True) (start [1, 2] fun _ => []) jc ∧
      jc.executed = [(1, 7), (2, 7)] :=
  exists_reach_of_guardedRun (step .standard [1, 2]) (fun _ _ => True)
    (fun jc => jc.executed = [(1, 7), (2, 7)]) (start [1, 2] fun _ => []) executedTwice
    (by decide +kernel)

end JobCluster
end NomadLite
