import NomadLite.JobSteps
import NomadLite.QueueTracking
import NomadLite.SnapshotFlow

/-!
# Queues and snapshots in the whole system

`Orderly` says in which states the pieces that write to a queue, and the one that
takes a snapshot, do what the log says. In runs of such steps every queue tracks the
log and every snapshot records it.
-/

namespace NomadLite

open Runs

def Phase.next : Phase → Option LogEntry
  | .applying (e :: _) => some e
  | _ => none

def Phase.snapshot : Phase → Option Snapshot
  | .rebuilding snapshot => some snapshot
  | _ => none

def DrainStage.chosenJob : DrainStage → Option Uuid
  | .chosen jobId _ => some jobId
  | _ => none

def WorkerStage.storingJob : WorkerStage → Option Uuid
  | .storing job _ _ => some job.id
  | _ => none

def WorkerStage.Ended : WorkerStage → Prop
  | .storing _ result _ => result.Ended
  | _ => True

namespace JobCluster

/-- `submit_job` does not overwrite a job that has moved on, the loop marks a job that is still
pending and stores the result of one that is still running, the entries come in the order of the
log and do not cross a direct write, and a snapshot is taken when no direct write is outstanding. -/
def Orderly (lib : WireLib) (jc : JobCluster) : JobEvent → Prop
  | .service (.call c .addJob) =>
    ∀ call ∈ jc.service.calls[c]?, ∀ job ∈ call.stage.job,
      (jc.sites call.node).MayAdd jc.committed (jc.queue call.node) job
  | .schedule x (.applyEntry _) =>
    ∀ e ∈ (jc.sites x).phase.next, (jc.sites x).MayApply lib jc.committed (jc.queue x) e
  | .schedule x (.finishCompaction _ _) =>
    ∀ c ∈ (jc.node x).compaction, c.lastApplied ≤ (jc.node x).state.logOffset ∨
      c.lastApplied = (jc.sites x).applied ∧ (jc.sites x).outstanding = []
  | .drain x .mark =>
    ∀ id ∈ (jc.sites x).drain.chosenJob, ∀ core ∈ (jc.queue x).core id, core.status = .pending
  | .work x (.storeResult _) =>
    ∀ id ∈ (jc.sites x).worker.storingJob, ∀ core ∈ (jc.queue x).core id, core.status = .running
  | _ => True

instance (lib : WireLib) (jc : JobCluster) : (ev : JobEvent) → Decidable (jc.Orderly lib ev)
  | .service (.call c .addJob) =>
    inferInstanceAs (Decidable (∀ call ∈ jc.service.calls[c]?, ∀ job ∈ call.stage.job, _))
  | .schedule x (.applyEntry _) => inferInstanceAs (Decidable (∀ e ∈ (jc.sites x).phase.next, _))
  | .schedule x (.finishCompaction _ _) =>
    inferInstanceAs (Decidable (∀ c ∈ (jc.node x).compaction, _))
  | .drain x .mark =>
    Option.decidableForallMem (p := fun id => ∀ core ∈ (jc.queue x).core id, core.status = .pending) _
  | .work x (.storeResult _) =>
    Option.decidableForallMem (p := fun id => ∀ core ∈ (jc.queue x).core id, core.status = .running) _
  | .service (.call _ .checkLeader) | .service (.call _ .notLeaderStatus)
  | .service (.call _ (.checkQueue ..)) | .service (.call _ .send) | .service (.call _ .receive)
  | .service (.call _ .timeout) | .service (.call _ .senderDropped) | .service (.raft _)
  | .service (.sendMessage ..) | .service (.handleMessage _) | .service (.stopLoop _)
  | .service (.changeQueue ..) | .service (.setDraining ..) | .service (.submitJob ..)
  | .service (.cancelJob ..) | .schedule _ (.appendEntries ..) | .schedule _ (.installSnapshot ..)
  | .schedule _ .changed | .schedule _ .takePendingSnapshot | .schedule _ (.rebuildFromSnapshot _)
  | .schedule _ .getCommittedEntries | .schedule _ .beginCompaction | .cleanup ..
  | .drain _ .checkLeader | .drain _ (.choose ..) | .drain _ (.chooseNone _) | .drain _ .count
  | .drain _ .send | .work _ (.register _) | .work _ .sendRegister | .work _ (.heartbeat ..)
  | .work _ (.poll _) | .work _ .execute | .work _ (.finish _) | .work _ .release
  | .work _ .completeJob | .work _ .flush | .work _ .send | .work _ .forward
  | .work _ .forwardReturned | .work _ .forwardFailed | .work _ .endIteration
  | .workerHeartbeat .. | .forwardJobStatus .. | .forward _ => isTrue trivial

structure Accounted (lib : WireLib) (jc : JobCluster) : Prop where
  commands : ∀ c ∈ jc.committed, c.Portable ∧ c.Reports
  fresh : jc.service.Fresh
  ended : ∀ x, (jc.sites x).worker.Ended
  tracks : ∀ x, (jc.sites x).Tracks jc.committed (jc.queue x)
  snapshots : jc.service.cluster.Keeps lib (Snapshot.Records jc.committed)
  phases : ∀ x, ∀ snap ∈ (jc.sites x).phase.snapshot, snap.Records jc.committed

variable {lib : WireLib} {ids : List ℕ} {jc jc' : JobCluster}

theorem accounted_start (lib : WireLib) (ids : List ℕ) (peers : ℕ → List PeerConfig) :
    (start ids peers).Accounted lib where
  commands _ hc := absurd hc List.not_mem_nil
  fresh _ hcall := absurd hcall List.not_mem_nil
  ended _ := trivial
  tracks _ := .new _
  snapshots := ⟨fun _ => ⟨forall_mem_none, forall_mem_none⟩, fun _ hp => absurd hp List.not_mem_nil⟩
  phases _ := forall_mem_none

namespace Accounted

theorem records_onWire (h : jc.Accounted lib) (snap : Snapshot) (term leaderId : ℕ)
    (hsnap : snap.Records jc.committed) :
    ((snap.toRequest lib term leaderId).toSnapshot lib).Records jc.committed :=
  hsnap.onWire lib (fun c hc => (h.commands c hc).1) term leaderId

theorem set (h : jc.Accounted lib) {x : ℕ} {host : Host} {site : Site}
    (htracks : site.Tracks jc.committed host.queue) (hended : site.worker.Ended)
    (hphase : site.phase = (jc.sites x).phase) : (jc.set x (host, site)).Accounted lib where
  commands := h.commands
  fresh := h.fresh
  ended y := by
    by_cases hy : y = x
    · subst hy
      simpa only [JobCluster.set, Function.update_self] using hended
    · simpa only [JobCluster.set, Function.update_of_ne hy] using h.ended y
  tracks y := by
    by_cases hy : y = x
    · subst hy
      simpa only [JobCluster.set, queue, JobCluster.host, Service.setHost, Function.update_self]
        using htracks
    · simpa only [JobCluster.set, queue, JobCluster.host, Service.setHost,
        Function.update_of_ne hy] using h.tracks y
  snapshots := h.snapshots
  phases y := by
    by_cases hy : y = x
    · subst hy
      simpa only [JobCluster.set, Function.update_self, hphase] using h.phases y
    · simpa only [JobCluster.set, Function.update_of_ne hy] using h.phases y

/-! ### Client calls and the raft loop -/

theorem serve_other (h : jc.Accounted lib) {ev : ServiceEvent} (hev : ev.isServices = true)
    (hadd : ∀ c, ev ≠ .call c .addJob) {svc : Service}
    (hstep : jc.service.step lib ids ev = some svc) : (jc.serve ev svc).Accounted lib where
  commands := h.commands
  fresh := Service.fresh_of_step hstep h.fresh
  ended := by
    rw [serve_sites hadd]
    exact h.ended
  tracks y := by
    rw [serve_sites hadd]
    have hqueue : (svc.hosts y).queue = (jc.service.hosts y).queue := by
      have hchange := Service.hostChange_of_step hstep hev y
      generalize svc.hosts y = host at hchange
      cases hchange with
      | added hcall hnode hstage => exact absurd rfl (hadd _)
      | _ => rfl
    change (jc.sites y).Tracks jc.committed (svc.hosts y).queue
    rw [hqueue]
    exact h.tracks y
  snapshots := by
    rcases Service.cluster_of_step hstep hev with heq | ⟨a, ha, hcl⟩
    · change svc.cluster.Keeps lib _
      rw [heq]
      exact h.snapshots
    · exact h.snapshots.step h.records_onWire ha hcl
  phases := by
    rw [serve_sites hadd]
    exact h.phases

theorem serve_addJob (h : jc.Accounted lib) {c : ℕ}
    (hord : jc.Orderly lib (.service (.call c .addJob))) {svc : Service}
    (hstep : jc.service.step lib ids (.call c .addJob) = some svc) :
    (jc.serve (.call c .addJob) svc).Accounted lib := by
  have hfresh := Service.fresh_of_step hstep h.fresh
  cases Service.stepped_of_step hstep with
  | @call _ _ call call' host hcall hmove =>
    obtain ⟨job, hstage, hhost⟩ := ClientCall.addJob_of_step hmove
    have hjob : job ∈ call.stage.job := by
      rw [hstage]
      rfl
    have hsites : jc.submitting c = Function.update jc.sites call.node
        ((jc.sites call.node).record job.id (.submitted job)
          (!(jc.queue call.node).isFull && ((jc.queue call.node).getJob job.id).isNone)) := by
      simp only [submitting, hcall, hstage]
    have hnew := h.fresh call (List.mem_of_getElem? hcall) job hjob
    have htracks := (h.tracks call.node).addJob (hord call hcall job hjob) hnew.1 hnew.2
    have hqueue : host.queue = ((jc.queue call.node).addJob job).1 := by
      rw [hhost]
      rfl
    rw [← hqueue] at htracks
    have hset := h.set htracks (h.ended call.node) rfl
    refine ⟨h.commands, hfresh, ?_, ?_, h.snapshots, ?_⟩
    · intro y
      change (jc.submitting c y).worker.Ended
      rw [hsites]
      exact hset.ended y
    · intro y
      change (jc.submitting c y).Tracks _ _
      rw [hsites]
      exact hset.tracks y
    · intro y
      change ∀ snap ∈ (jc.submitting c y).phase.snapshot, _
      rw [hsites]
      exact hset.phases y

/-! ### The scheduler loop -/

theorem scheduled_phase (lib : WireLib) (site : Site) (sc : Scheduler) (ev : SchedulerEvent) :
    (scheduled lib site sc ev).phase = sc.phase := by
  unfold scheduled
  split <;> rfl

theorem schedule (h : jc.Accounted lib) {x : ℕ} {ev : SchedulerEvent} {sc : Scheduler}
    {committed : List Command} (hcommitting : jc.committing lib (jc.sites x) ev = committed)
    (hgrows : committed = jc.committed ∨
      ∃ c : Command, (c.Portable ∧ c.Reports) ∧ committed = jc.committed ++ [c])
    (hnode : sc.node.Keeps (Snapshot.Records committed))
    (hphase : ∀ snap ∈ sc.phase.snapshot, snap.Records committed)
    (htracks : (scheduled lib (jc.sites x) sc ev).Tracks committed sc.queue) :
    (jc.schedule lib x ev sc).Accounted lib := by
  have hcommands : ∀ c ∈ committed, c.Portable ∧ c.Reports := by
    rcases hgrows with rfl | ⟨c, hc, rfl⟩
    · exact h.commands
    · exact List.forall_mem_append.mpr ⟨h.commands, List.forall_mem_singleton.mpr hc⟩
  have hrecords : ∀ snap : Snapshot, snap.Records jc.committed → snap.Records committed := by
    rcases hgrows with rfl | ⟨c, -, rfl⟩
    · exact fun _ hsnap => hsnap
    · exact fun _ hsnap => hsnap.append [c]
  have hothers : ∀ y, (jc.sites y).Tracks committed (jc.queue y) := by
    rcases hgrows with rfl | ⟨c, -, rfl⟩
    · exact h.tracks
    · exact fun y => (h.tracks y).concat c
  have hcarries : ∀ msg : Message, msg.Carries lib (Snapshot.Records jc.committed) →
      msg.Carries lib (Snapshot.Records committed) := by
    intro msg hmsg
    cases msg with
    | installSnapshot req => exact hrecords _ hmsg
    | _ => trivial
  subst hcommitting
  refine ⟨hcommands, h.fresh, fun y => ?_, fun y => ?_, ⟨fun y => ?_, ?_⟩, fun y => ?_⟩
  · change (Function.update jc.sites x _ y).worker.Ended
    by_cases hy : y = x
    · rw [hy, Function.update_self, scheduled_worker]
      exact h.ended x
    · rw [Function.update_of_ne hy]
      exact h.ended y
  · change (Function.update jc.sites x _ y).Tracks _
      (Function.update jc.service.hosts x { jc.host x with queue := sc.queue } y).queue
    by_cases hy : y = x
    · rw [hy, Function.update_self, Function.update_self]
      exact htracks
    · rw [Function.update_of_ne hy, Function.update_of_ne hy]
      exact hothers y
  · change RaftNode.Keeps _ (Function.update jc.service.cluster.nodes x sc.node y)
    by_cases hy : y = x
    · rw [hy, Function.update_self]
      exact hnode
    · rw [Function.update_of_ne hy]
      exact (h.snapshots.node y).imp (fun hs snap hsnap => hrecords snap (hs snap hsnap))
        fun hs snap hsnap => hrecords snap (hs snap hsnap)
  · exact fun p hp => hcarries p.msg (h.snapshots.network p hp)
  · change ∀ snap ∈ (Function.update jc.sites x _ y).phase.snapshot, _
    by_cases hy : y = x
    · rw [hy, Function.update_self, scheduled_phase]
      exact hphase
    · rw [Function.update_of_ne hy]
      exact fun snap hsnap => hrecords snap (h.phases y snap hsnap)

/-- The loop only looks at its Raft node, and its queue stays as it is. -/
theorem schedule_quiet (h : jc.Accounted lib) {x : ℕ} {ev : SchedulerEvent} {sc : Scheduler}
    (hcommitting : jc.committing lib (jc.sites x) ev = jc.committed)
    (hsite : scheduled lib (jc.sites x) sc ev =
      { jc.sites x with assigner := sc.assigner, phase := sc.phase, seen := sc.seen })
    (hqueue : sc.queue = jc.queue x) (hnode : sc.node.Keeps (Snapshot.Records jc.committed))
    (hphase : ∀ snap ∈ sc.phase.snapshot, snap.Records jc.committed) :
    (jc.schedule lib x ev sc).Accounted lib := by
  refine h.schedule hcommitting (.inl rfl) hnode hphase ?_
  rw [hsite, hqueue]
  exact (h.tracks x).congr rfl rfl

theorem takePendingSnapshot (h : jc.Accounted lib) (x : ℕ) :
    (jc.schedule lib x .takePendingSnapshot (jc.scheduler x).takePendingSnapshot).Accounted lib := by
  have hkeeps := h.snapshots.node x
  cases hpending : (jc.node x).pendingSnapshot with
  | some snap =>
    have hsc : (jc.scheduler x).takePendingSnapshot = { jc.scheduler x with
        node := { jc.node x with pendingSnapshot := none }, phase := .rebuilding snap } := by
      simp only [Scheduler.takePendingSnapshot, RaftNode.takePendingSnapshot, scheduler, hpending]
    rw [hsc]
    refine h.schedule_quiet rfl rfl rfl ⟨hkeeps.1, forall_mem_none⟩ fun snap' hsnap' => ?_
    exact Option.some.inj hsnap' ▸ hkeeps.2 snap hpending
  | none =>
    have hsc : (jc.scheduler x).takePendingSnapshot = { jc.scheduler x with
        node := { jc.node x with pendingSnapshot := none }, phase := .fetching } := by
      simp only [Scheduler.takePendingSnapshot, RaftNode.takePendingSnapshot, scheduler, hpending]
    rw [hsc]
    exact h.schedule_quiet rfl rfl rfl ⟨hkeeps.1, forall_mem_none⟩ forall_mem_none

theorem rebuildFromSnapshot (h : jc.Accounted lib) {x : ℕ} {snap : Snapshot} (now : Clock)
    (hphase : (jc.sites x).phase = .rebuilding snap) :
    (jc.schedule lib x (.rebuildFromSnapshot now)
      ((jc.scheduler x).rebuildFromSnapshot now snap)).Accounted lib := by
  refine h.schedule rfl (.inl rfl) (h.snapshots.node x) forall_mem_none ?_
  have hrecords := h.phases x snap (by rw [hphase]; rfl)
  refine Site.Tracks.rebuild (h.tracks x).maxJobs hrecords (fun c hc => (h.commands c hc).2) ?_ ?_
  · simp only [scheduled, hphase]
  · simp only [scheduled, hphase]

theorem applyEntry (h : jc.Accounted lib) {x : ℕ} {e : LogEntry} {rest : List LogEntry}
    (now : Clock) (hphase : (jc.sites x).phase = .applying (e :: rest))
    (hmay : (jc.sites x).MayApply lib jc.committed (jc.queue x) e) :
    (jc.schedule lib x (.applyEntry now)
      ((jc.scheduler x).applyEntry now e rest)).Accounted lib := by
  have hle := (h.tracks x).applied
  obtain ⟨happlied, houtstanding⟩ :=
    scheduled_applyEntry lib hphase ((jc.scheduler x).applyEntry now e rest) now
  have hkeeps := h.snapshots.node x
  have hagrees := hmay.2.1
  have hrep := hmay.2.2.1
  have hport := hmay.2.2.2.1
  rcases committing_applyEntry hphase hle hagrees now with ⟨heq, hget⟩ | ⟨heq, hlength⟩
  · exact h.schedule heq (.inl rfl) hkeeps forall_mem_none
      ((h.tracks x).applyEntry hmay now.utc rfl hget happlied houtstanding)
  · have hkeeps' : (jc.node x).Keeps (Snapshot.Records (jc.committed ++ [e.command.onWire lib])) :=
      hkeeps.imp (fun hs snap hsnap => (hs snap hsnap).append _)
        fun hs snap hsnap => (hs snap hsnap).append _
    refine h.schedule heq (.inr ⟨_, ⟨Command.onWire_portable hport, Command.onWire_reports hrep⟩,
      rfl⟩) hkeeps' forall_mem_none ?_
    refine (h.tracks x).applyEntry hmay now.utc (List.take_append_of_le_length hle) ?_ happlied
      houtstanding
    rw [hlength, List.getElem?_concat_length]

theorem finishCompaction (h : jc.Accounted lib) {x : ℕ} {jobs : List Job} {workers : List ℕ}
    {c : Compaction} (hc : (jc.node x).compaction = some c)
    (hjobs : (jc.queue x).AllJobs jobs)
    (hord : jc.Orderly lib (.schedule x (.finishCompaction jobs workers))) :
    RaftNode.Keeps (Snapshot.Records jc.committed) { jc.node x with
      state := (jc.node x).state.compactLog
        ⟨c.lastApplied, c.lastAppliedTerm, jobs.map Job.toSnapshot, workers⟩
      compaction := none } := by
  refine (h.snapshots.node x).compactLog (fun hlt => ?_) none
  rcases hord c hc with hle | ⟨happlied, houtstanding⟩
  · exact absurd hlt (not_lt.mpr hle)
  · have htracks := h.tracks x
    rw [happlied]
    refine Snapshot.Records.of_allJobs hjobs htracks.applied (fun c hc => (h.commands c hc).1)
      (fun id => ?_) _ _
    have hfollows := (htracks.rebased id).follows
    rwa [Site.writesOn, houtstanding] at hfollows

theorem schedule_step (h : jc.Accounted lib) {x : ℕ} {ev : SchedulerEvent} {sc : Scheduler}
    (hord : jc.Orderly lib (.schedule x ev)) (hloops : ev.isLoops (jc.sites x).drain = true)
    (hstep : (jc.scheduler x).step lib ev = some sc) : (jc.schedule lib x ev sc).Accounted lib := by
  have hkeeps := h.snapshots.node x
  cases Scheduler.stepped_of_step hstep with
  | appendEntries | installSnapshot => cases hloops
  | changed | getCommittedEntries => exact h.schedule_quiet rfl rfl rfl hkeeps forall_mem_none
  | takePendingSnapshot => exact h.takePendingSnapshot x
  | rebuildFromSnapshot hphase now => exact h.rebuildFromSnapshot now hphase
  | applyEntry hphase now =>
    exact h.applyEntry now hphase (hord _ (congrArg Phase.next hphase))
  | beginCompaction =>
    rw [Scheduler.beginCompaction]
    split
    · next eff heff =>
      rw [RaftNode.beginCompaction] at heff
      split_ifs at heff
      obtain rfl := Option.some.inj heff
      exact h.schedule_quiet rfl rfl rfl hkeeps forall_mem_none
    · exact h.schedule_quiet rfl rfl rfl hkeeps forall_mem_none
  | finishCompaction hphase hjobs heff =>
    obtain ⟨c, hc, rfl⟩ := Option.map_eq_some_iff.mp heff
    exact h.schedule_quiet rfl rfl rfl (h.finishCompaction hc hjobs hord) forall_mem_none

/-! ### The loops that write directly -/

theorem drain (h : jc.Accounted lib) {x : ℕ} {ev : DrainEvent} {host : Host} {site : Site}
    (hord : jc.Orderly lib (.drain x ev))
    (hdrained : Site.Drained (jc.host x) (jc.sites x) ev host site) :
    (jc.set x (host, site)).Accounted lib := by
  have htracks := h.tracks x
  cases hdrained with
  | moved drain assigner => exact h.set (htracks.congr rfl rfl) (h.ended x) rfl
  | @marked jobId workerId hdrain =>
    have hpending := hord jobId (by rw [hdrain]; rfl)
    exact h.set ((htracks.assignJob workerId hpending).congr rfl rfl) (h.ended x) rfl
  | sent hdrain hsend =>
    refine h.set ?_ (h.ended x) rfl
    rw [Host.queue_of_send hsend]
    exact htracks.congr rfl rfl

theorem work (h : jc.Accounted lib) {x : ℕ} {ev : WorkerEvent} {host : Host} {site : Site}
    (hord : jc.Orderly lib (.work x ev))
    (hworked : Site.Worked x (jc.node x) jc.forwards (jc.host x) (jc.sites x) ev host site) :
    (jc.set x (host, site)).Accounted lib := by
  have htracks := h.tracks x
  cases hworked with
  | sendRegister hworker hsend | send hworker hsend =>
    refine h.set ?_ trivial rfl
    rw [Host.queue_of_send hsend]
    exact htracks.congr rfl rfl
  | finish hworker hended hstatus => exact h.set (htracks.congr rfl rfl) hended rfl
  | @storeResult now job result batch hworker =>
    have hended := h.ended x
    rw [hworker] at hended
    have hrunning := hord job.id (by rw [hworker]; rfl)
    exact h.set ((htracks.updateJobResult x now hended hrunning).congr rfl rfl) trivial rfl
  | _ => exact h.set (htracks.congr rfl rfl) trivial rfl

theorem step (h : jc.Accounted lib) {ev : JobEvent} (hord : jc.Orderly lib ev)
    (hstep : jc.step lib ids ev = some jc') : jc'.Accounted lib := by
  cases stepped_of_step hstep with
  | @service ev svc hev hsvc =>
    by_cases hadd : ∃ c, ev = .call c .addJob
    · obtain ⟨c, rfl⟩ := hadd
      exact h.serve_addJob hord hsvc
    · exact h.serve_other hev (fun c hc => hadd ⟨c, hc⟩) hsvc
  | schedule hloops hsc => exact h.schedule_step hord hloops hsc
  | cleanup x now => exact h.set ((h.tracks x).cleanup now _) (h.ended x) rfl
  | drain hdrained => exact h.drain hord hdrained
  | work hworked =>
    have hset := h.work hord hworked
    exact ⟨hset.commands, hset.fresh, hset.ended, hset.tracks, hset.snapshots, hset.phases⟩
  | workerHeartbeat x workerId now => exact h.set ((h.tracks x).congr rfl rfl) (h.ended x) rfl
  | forwardJobStatus x updates =>
    exact ⟨h.commands, h.fresh, h.ended, h.tracks, h.snapshots, h.phases⟩
  | @forward c call call' host hcall hforwarded =>
    have hqueue : host.queue = jc.queue call.receiver := by cases hforwarded <;> rfl
    have hset := h.set (hqueue ▸ h.tracks call.receiver) (h.ended call.receiver) rfl
    exact ⟨hset.commands, hset.fresh, hset.ended, hset.tracks, hset.snapshots, hset.phases⟩

end Accounted

/-- Every run of orderly steps is accounted for, whatever else its steps meet. -/
theorem accounted_of_reach {Q : JobCluster → JobEvent → Prop} {peers : ℕ → List PeerConfig}
    (hQ : ∀ jc ev, Q jc ev → jc.Orderly lib ev) (h : Reach (step lib ids) Q (start ids peers) jc) :
    jc.Accounted lib :=
  h.invariant (accounted_start lib ids peers) fun hacc hq hstep => hacc.step (hQ _ _ hq) hstep

end JobCluster
end NomadLite
