import NomadLite.ServiceSteps
import NomadLite.WorkerSteps

/-!
# What a step of the cluster with all its loops does

`Stepped` lists the outcomes of `JobCluster.step`, with what is known of the piece that
was taken, so that the invariants are proved by cases on it. A mailbox only loses
messages when its raft loop takes one or stops, and a worker loop only moves by its
own pieces.
-/

namespace NomadLite

/-! ### Mailboxes -/

namespace Host

theorem mailbox_subset_push (host : Host) (message : RaftMessage) :
    host.mailbox ⊆ (host.push message).mailbox :=
  List.subset_append_left ..

theorem mailbox_subset_send {host host' : Host} {command : Command}
    (h : host.send command = some host') : host.mailbox ⊆ host'.mailbox := by
  rcases send_cases h with ⟨-, rfl⟩ | ⟨-, rfl⟩
  · exact List.Subset.refl _
  · exact mailbox_subset_push ..

end Host

theorem Site.Drained.mailbox_subset {host host' : Host} {site site' : Site} {ev : DrainEvent}
    (h : Drained host site ev host' site') : host.mailbox ⊆ host'.mailbox := by
  cases h with
  | moved | marked => exact List.Subset.refl _
  | sent hdrain hsend => exact Host.mailbox_subset_send hsend

theorem Site.Worked.mailbox_subset {x : ℕ} {nd : RaftNode} {calls : List ForwardCall}
    {host host' : Host} {site site' : Site} {ev : WorkerEvent}
    (h : Worked x nd calls host site ev host' site') : host.mailbox ⊆ host'.mailbox := by
  cases h with
  | sendRegister hworker hsend | send hworker hsend => exact Host.mailbox_subset_send hsend
  | _ => exact List.Subset.refl _

theorem ForwardCall.Forwarded.mailbox_subset {lib : WireLib} {host host' : Host}
    {call call' : ForwardCall} (h : Forwarded lib host call host' call') :
    host.mailbox ⊆ host'.mailbox := by
  cases h with
  | sent => exact Host.mailbox_subset_push ..
  | nothing | refused | answered => exact List.Subset.refl _

theorem Service.HostChange.mailbox_subset {svc : Service} {y : ℕ} {ev : ServiceEvent} {host : Host}
    (h : HostChange svc y ev host) (htaken : ev ≠ .handleMessage y) (hstopped : ev ≠ .stopLoop y) :
    (svc.hosts y).mailbox ⊆ host.mailbox := by
  cases h with
  | stopped => exact absurd rfl hstopped
  | taken => exact absurd rfl htaken
  | transferring | proposed => exact Host.mailbox_subset_push ..
  | same | draining | added => exact List.Subset.refl _

namespace JobCluster

variable {lib : WireLib} {ids : List ℕ} {jc jc' : JobCluster} {ev : JobEvent}

/-! ### The outcomes -/

inductive Stepped (lib : WireLib) (ids : List ℕ) (jc : JobCluster) :
    JobEvent → JobCluster → Prop where
  | service {ev : ServiceEvent} {svc : Service} (hev : ev.isServices = true)
      (hsvc : jc.service.step lib ids ev = some svc) :
      Stepped lib ids jc (.service ev) (jc.serve ev svc)
  | schedule {x : ℕ} {ev : SchedulerEvent} {sc : Scheduler}
      (hloops : ev.isLoops (jc.sites x).drain = true)
      (hsc : (jc.scheduler x).step lib ev = some sc) :
      Stepped lib ids jc (.schedule x ev) (jc.schedule lib x ev sc)
  | cleanup (x : ℕ) (now : DateTime) :
      Stepped lib ids jc (.cleanup x now) (jc.set x ({ jc.host x with
        queue := ((jc.queue x).cleanupFinishedJobs now jobHistoryRetentionSecs).1 }, jc.sites x))
  | drain {x : ℕ} {ev : DrainEvent} {host : Host} {site : Site}
      (hdrained : Site.Drained (jc.host x) (jc.sites x) ev host site) :
      Stepped lib ids jc (.drain x ev) (jc.set x (host, site))
  | work {x : ℕ} {ev : WorkerEvent} {host : Host} {site : Site}
      (hworked : Site.Worked x (jc.node x) jc.forwards (jc.host x) (jc.sites x) ev host site) :
      Stepped lib ids jc (.work x ev) (jc.work lib x ev (host, site))
  | workerHeartbeat (x workerId : ℕ) (now : Instant) :
      Stepped lib ids jc (.workerHeartbeat x workerId now) (jc.set x (jc.host x,
        { jc.sites x with assigner := (jc.sites x).assigner.workerHeartbeat now workerId }))
  | forwardJobStatus (x : ℕ) (updates : List Proto.JobStatusUpdate) :
      Stepped lib ids jc (.forwardJobStatus x updates)
        { jc with forwards := jc.forwards ++ [⟨x, updates, .received⟩] }
  | forward {c : ℕ} {call call' : ForwardCall} {host : Host} (hcall : jc.forwards[c]? = some call)
      (hforwarded : ForwardCall.Forwarded lib (jc.host call.receiver) call host call') :
      Stepped lib ids jc (.forward c)
        { jc.set call.receiver (host, jc.sites call.receiver) with
          forwards := jc.forwards.set c call' }

theorem stepped_of_step (h : jc.step lib ids ev = some jc') : Stepped lib ids jc ev jc' := by
  cases ev with
  | service ev =>
    rw [step] at h
    split_ifs at h with hev
    obtain ⟨svc, hsvc, rfl⟩ := Option.map_eq_some_iff.mp h
    exact .service hev hsvc
  | schedule x ev =>
    rw [step] at h
    split_ifs at h with hguard
    obtain ⟨sc, hsc, rfl⟩ := Option.map_eq_some_iff.mp h
    exact .schedule hguard.2 hsc
  | cleanup x now =>
    rw [step] at h
    split_ifs at h
    obtain rfl := Option.some.inj h
    exact .cleanup x now
  | drain x ev =>
    rw [step] at h
    split_ifs at h
    obtain ⟨⟨host, site⟩, hdrain, rfl⟩ := Option.map_eq_some_iff.mp h
    exact .drain (Site.drained_of_drainStep hdrain)
  | work x ev =>
    rw [step] at h
    split_ifs at h
    obtain ⟨⟨host, site⟩, hwork, rfl⟩ := Option.map_eq_some_iff.mp h
    exact .work (Site.worked_of_workStep hwork)
  | workerHeartbeat x workerId now =>
    obtain rfl := Option.some.inj h
    exact .workerHeartbeat x workerId now
  | forwardJobStatus x updates =>
    obtain rfl := Option.some.inj h
    exact .forwardJobStatus x updates
  | forward c =>
    rw [step] at h
    split at h
    · next call hcall =>
      obtain ⟨⟨host, call'⟩, hforward, rfl⟩ := Option.map_eq_some_iff.mp h
      exact .forward hcall (ForwardCall.forwarded_of_step hforward)
    · cases h

/-! ### Sites -/

theorem submitting_eq (jc : JobCluster) (c : ℕ) : jc.submitting c = jc.sites ∨
    ∃ x id w found, jc.submitting c =
      Function.update jc.sites x ((jc.sites x).record id w found) := by
  unfold submitting
  split
  · split
    · exact .inr ⟨_, _, _, _, rfl⟩
    · exact .inl rfl
  · exact .inl rfl

theorem serve_sites {ev : ServiceEvent} (hev : ∀ c, ev ≠ .call c .addJob) (svc : Service) :
    (jc.serve ev svc).sites = jc.sites := by
  cases ev with
  | call c cev =>
    cases cev with
    | addJob => exact absurd rfl (hev c)
    | _ => rfl
  | _ => rfl

theorem scheduled_worker (lib : WireLib) (site : Site) (sc : Scheduler) (ev : SchedulerEvent) :
    (scheduled lib site sc ev).worker = site.worker := by
  unfold scheduled
  split <;> rfl

theorem scheduled_applyEntry (lib : WireLib) {site : Site} {e : LogEntry} {rest : List LogEntry}
    (hphase : site.phase = .applying (e :: rest)) (sc : Scheduler) (now : Clock) :
    (scheduled lib site sc (.applyEntry now)).applied = site.applied + 1 ∧
      (scheduled lib site sc (.applyEntry now)).outstanding =
        site.outstanding.filter fun p => ¬ p.2.ConfirmedBy lib p.1 e.command := by
  constructor <;> simp only [scheduled, hphase]

/-- The command of the entry is already in the history, or it is the next one. -/
theorem committing_applyEntry {site : Site} {e : LogEntry} {rest : List LogEntry}
    (hphase : site.phase = .applying (e :: rest)) (hle : site.applied ≤ jc.committed.length)
    (hagrees : ∀ c ∈ jc.committed[site.applied]?, c = e.command.onWire lib) (now : Clock) :
    (jc.committing lib site (.applyEntry now) = jc.committed ∧
        jc.committed[site.applied]? = some (e.command.onWire lib)) ∨
      (jc.committing lib site (.applyEntry now) = jc.committed ++ [e.command.onWire lib] ∧
        site.applied = jc.committed.length) := by
  simp only [committing, hphase]
  split_ifs with hlt
  · refine .inl ⟨rfl, ?_⟩
    rw [List.getElem?_eq_getElem hlt]
    exact congrArg some (hagrees _ (List.getElem?_eq_getElem hlt))
  · exact .inr ⟨rfl, hle.antisymm (not_lt.mp hlt)⟩

theorem serve_worker (jc : JobCluster) (ev : ServiceEvent) (svc : Service) (y : ℕ) :
    ((jc.serve ev svc).sites y).worker = (jc.sites y).worker := by
  by_cases hadd : ∃ c, ev = .call c .addJob
  · obtain ⟨c, rfl⟩ := hadd
    change (jc.submitting c y).worker = _
    rcases jc.submitting_eq c with heq | ⟨x, id, w, found, heq⟩
    · rw [heq]
    · rw [heq]
      by_cases hy : y = x
      · rw [hy, Function.update_self]
        rfl
      · rw [Function.update_of_ne hy]
  · rw [serve_sites fun c hc => hadd ⟨c, hc⟩]

theorem worker_set {x : ℕ} {host : Host} {site : Site}
    (hworker : site.worker = (jc.sites x).worker) (y : ℕ) :
    ((jc.set x (host, site)).sites y).worker = (jc.sites y).worker := by
  change (Function.update jc.sites x site y).worker = _
  by_cases hy : y = x
  · rw [hy, Function.update_self, hworker]
  · rw [Function.update_of_ne hy]

theorem worker_work_self {x : ℕ} {wev : WorkerEvent} {host : Host} {site : Site} :
    ((jc.work lib x wev (host, site)).sites x).worker = site.worker :=
  congrArg Site.worker (Function.update_self ..)

theorem worker_work_other {x y : ℕ} (hy : y ≠ x) {wev : WorkerEvent} {host : Host} {site : Site} :
    ((jc.work lib x wev (host, site)).sites y).worker = (jc.sites y).worker :=
  congrArg Site.worker (Function.update_of_ne hy ..)

namespace Stepped

theorem worker_eq (h : Stepped lib ids jc ev jc') {y : ℕ} (hev : ∀ wev, ev ≠ .work y wev) :
    (jc'.sites y).worker = (jc.sites y).worker := by
  cases h with
  | service => exact serve_worker ..
  | @schedule x ev sc =>
    change (Function.update jc.sites x _ y).worker = _
    by_cases hy : y = x
    · rw [hy, Function.update_self, scheduled_worker]
    · rw [Function.update_of_ne hy]
  | cleanup | workerHeartbeat | forward =>
    refine worker_set ?_ y
    rfl
  | drain hdrained =>
    refine worker_set ?_ y
    cases hdrained <;> rfl
  | @work x ev host site =>
    have hy : y ≠ x := fun heq => hev ev (heq ▸ rfl)
    exact worker_work_other hy
  | forwardJobStatus => rfl

theorem mailbox_subset (h : Stepped lib ids jc ev jc') {y : ℕ}
    (htaken : ev ≠ .service (.handleMessage y)) (hstopped : ev ≠ .service (.stopLoop y)) :
    (jc.host y).mailbox ⊆ (jc'.host y).mailbox := by
  have hset : ∀ {x : ℕ} {host : Host}, (jc.host x).mailbox ⊆ host.mailbox →
      (jc.host y).mailbox ⊆ ((jc.service.setHost x host).hosts y).mailbox := by
    intro x host hsub
    rw [Service.hosts_setHost]
    split_ifs with hy
    · exact hy ▸ hsub
    · exact List.Subset.refl _
  cases h with
  | service hev hsvc =>
    exact (Service.hostChange_of_step hsvc hev y).mailbox_subset
      (fun heq => htaken (congrArg _ heq)) fun heq => hstopped (congrArg _ heq)
  | schedule | cleanup | workerHeartbeat => exact hset (List.Subset.refl _)
  | drain hdrained => exact hset hdrained.mailbox_subset
  | work hworked => exact hset hworked.mailbox_subset
  | forwardJobStatus => exact List.Subset.refl _
  | forward hcall hforwarded => exact hset hforwarded.mailbox_subset

theorem appended_subset (h : Stepped lib ids jc ev jc') : jc.appended ⊆ jc'.appended := by
  cases h with
  | service => exact List.subset_append_left ..
  | _ => exact List.Subset.refl _

theorem reported_eq (h : Stepped lib ids jc ev jc') (hev : ∀ x wev, ev ≠ .work x wev) :
    jc'.reported = jc.reported := by
  cases h with
  | work => exact absurd rfl (hev _ _)
  | _ => rfl

theorem exists_call (h : Stepped lib ids jc ev jc') {c : ℕ} {call : ForwardCall}
    (hcall : jc.forwards[c]? = some call) :
    ∃ call', jc'.forwards[c]? = some call' ∧ call'.updates = call.updates := by
  obtain ⟨hlt, -⟩ := List.getElem?_eq_some_iff.mp hcall
  cases h with
  | work | forwardJobStatus => exact ⟨call, (List.getElem?_append_left hlt).trans hcall, rfl⟩
  | @forward c' call₀ call' host hcall₀ hforwarded =>
    by_cases hc : c' = c
    · subst hc
      obtain rfl : call₀ = call := Option.some.inj (hcall₀.symm.trans hcall)
      refine ⟨call', List.getElem?_set_self hlt, ?_⟩
      cases hforwarded <;> rfl
    · exact ⟨call, (List.getElem?_set_ne hc).trans hcall, rfl⟩
  | _ => exact ⟨call, hcall, rfl⟩

end Stepped
end JobCluster
end NomadLite
