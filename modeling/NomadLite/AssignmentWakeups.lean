import NomadLite.SettledQueues

/-!
# What wakes the assignment of jobs

The branch of the scheduler loop that assigns jobs waits on `job_notify`. The loop itself gives
the permit, after a pass over committed entries that had a submission or a registration among
them, and a node that is not leader takes its permit and does nothing. A rebuilt snapshot, an
election or a worker's heartbeat gives none. So a leader that has jobs pending and workers alive
assigns nothing until the next submission or registration is applied on it.
-/

namespace NomadLite

/-- The commands that set `should_wake_assigner`. -/
def Command.wakes : Command → Bool
  | .submitJob .. | .registerWorker _ => true
  | _ => false

/-- `job_notify`, which stores one permit at most, and `should_wake_assigner`. -/
structure Wake where
  permit : Bool
  due : Bool
deriving DecidableEq

namespace Wake

def asleep : Wake := ⟨false, false⟩

/-- A piece of the scheduler loop, taken in `phase`: `notify_one` comes after the last entry. -/
def scheduled (phase : Phase) (w : Wake) : SchedulerEvent → Wake
  | .getCommittedEntries => { w with due := false }
  | .applyEntry _ =>
    match phase with
    | .applying (e :: _) => { w with due := w.due || e.command.wakes }
    | _ => w
  | .beginCompaction => ⟨w.permit || w.due, false⟩
  | _ => w

end Wake

structure WakingCluster where
  jobs : JobCluster
  wakes : ℕ → Wake

namespace WakingCluster

def start (ids : List ℕ) (peers : ℕ → List PeerConfig) : WakingCluster :=
  ⟨.start ids peers, fun _ => .asleep⟩

def Ready (wc : WakingCluster) : JobEvent → Prop
  | .drain x .checkLeader => (wc.wakes x).permit = true
  | _ => True

instance (wc : WakingCluster) : (ev : JobEvent) → Decidable (wc.Ready ev)
  | .drain _ .checkLeader => inferInstanceAs (Decidable (_ = _))
  | .drain _ (.choose ..) | .drain _ (.chooseNone _) | .drain _ .mark | .drain _ .count
  | .drain _ .send | .service _ | .schedule .. | .cleanup .. | .work .. | .workerHeartbeat ..
  | .forwardJobStatus .. | .forward _ => isTrue trivial

def waking (wc : WakingCluster) : JobEvent → ℕ → Wake
  | .schedule x ev => Function.update wc.wakes x
      ((wc.wakes x).scheduled (wc.jobs.sites x).phase ev)
  | .drain x .checkLeader => Function.update wc.wakes x { wc.wakes x with permit := false }
  | _ => wc.wakes

def step (lib : WireLib) (ids : List ℕ) (wc : WakingCluster) (ev : JobEvent) :
    Option WakingCluster :=
  if wc.Ready ev then (wc.jobs.step lib ids ev).map fun jc => ⟨jc, wc.waking ev⟩ else none

def Unwoken (wc : WakingCluster) : JobEvent → Prop
  | .schedule x (.applyEntry _) => ∀ e ∈ (wc.jobs.sites x).phase.next, e.command.wakes = false
  | _ => True

end WakingCluster

/-! ### Proposals of assignments -/

def RaftMessage.Assigns : RaftMessage → Prop
  | .appendCommand (.assignJob ..) _ => True
  | _ => False

instance : DecidablePred RaftMessage.Assigns
  | .appendCommand (.assignJob ..) _ => isTrue trivial
  | .appendCommand (.submitJob ..) _ | .appendCommand (.updateJobStatus ..) _
  | .appendCommand (.batchUpdateJobStatus _) _ | .appendCommand (.registerWorker _) _
  | .appendCommand (.cancelJob _) _ | .appendCommand .noop _ | .transferLeadership _ =>
    isFalse not_false

theorem not_assigns_report (updates : List JobStatusUpdate) (caller : Option ℕ) :
    ¬ (RaftMessage.appendCommand (reportCommand updates) caller).Assigns := by
  rcases updates with _ | ⟨u, _ | ⟨u', rest⟩⟩ <;> exact not_false

theorem not_assigns_proposal (p : Proposal) (caller : Option ℕ) :
    ¬ (RaftMessage.appendCommand p.command caller).Assigns := by
  cases p <;> exact not_false

namespace Host

variable {host host' : Host} {message message' : RaftMessage}

theorem mem_of_push (hnot : ¬ message.Assigns) (hm : message' ∈ (host.push message).mailbox)
    (ha : message'.Assigns) : message' ∈ host.mailbox := by
  rcases List.mem_append.mp hm with hold | hnew
  · exact hold
  · exact absurd (List.mem_singleton.mp hnew ▸ ha) hnot

theorem mem_of_send {command : Command} (h : host.send command = some host')
    (hnot : ¬ (RaftMessage.appendCommand command none).Assigns) (hm : message ∈ host'.mailbox)
    (ha : message.Assigns) : message ∈ host.mailbox := by
  rcases send_cases h with ⟨-, rfl⟩ | ⟨-, rfl⟩
  · exact hm
  · exact mem_of_push hnot hm ha

end Host

section Mailboxes

variable {message : RaftMessage} (ha : message.Assigns)
include ha

theorem Service.HostChange.mem_of_assigns {svc : Service} {y : ℕ} {ev : ServiceEvent} {host : Host}
    (h : HostChange svc y ev host) (hm : message ∈ host.mailbox) :
    message ∈ (svc.hosts y).mailbox := by
  cases h with
  | same | draining | added => exact hm
  | stopped => exact absurd hm List.not_mem_nil
  | taken hmailbox => exact hmailbox ▸ List.mem_cons_of_mem _ hm
  | transferring targetId =>
    exact Host.mem_of_push (show ¬ (RaftMessage.transferLeadership targetId).Assigns from not_false)
      hm ha
  | proposed p => exact Host.mem_of_push (not_assigns_proposal p _) hm ha

theorem Site.Worked.mem_of_assigns {x : ℕ} {nd : RaftNode} {calls : List ForwardCall}
    {host host' : Host} {site site' : Site} {ev : WorkerEvent}
    (h : Worked x nd calls host site ev host' site') (hm : message ∈ host'.mailbox) :
    message ∈ host.mailbox := by
  cases h with
  | sendRegister hworker hsend => exact Host.mem_of_send hsend not_false hm ha
  | send hworker hsend => exact Host.mem_of_send hsend (not_assigns_report _ _) hm ha
  | _ => exact hm

theorem ForwardCall.Forwarded.mem_of_assigns {lib : WireLib} {host host' : Host}
    {call call' : ForwardCall} (h : Forwarded lib host call host' call')
    (hm : message ∈ host'.mailbox) : message ∈ host.mailbox := by
  cases h with
  | sent => exact Host.mem_of_push (not_assigns_report _ _) hm ha
  | nothing | refused | answered => exact hm

end Mailboxes

namespace JobCluster

variable {lib : WireLib} {ids : List ℕ} {jc jc' : JobCluster} {ev : JobEvent}

theorem scheduled_drain (lib : WireLib) (site : Site) (sc : Scheduler) (ev : SchedulerEvent) :
    (scheduled lib site sc ev).drain = site.drain := by
  unfold scheduled
  split <;> rfl

theorem serve_drain (jc : JobCluster) (ev : ServiceEvent) (svc : Service) (y : ℕ) :
    ((jc.serve ev svc).sites y).drain = (jc.sites y).drain := by
  by_cases hadd : ∃ c, ev = .call c .addJob
  · obtain ⟨c, rfl⟩ := hadd
    change (jc.submitting c y).drain = _
    rcases jc.submitting_eq c with heq | ⟨x, id, w, found, heq⟩
    · rw [heq]
    · rw [heq]
      by_cases hy : y = x
      · rw [hy, Function.update_self]
        rfl
      · rw [Function.update_of_ne hy]
  · rw [serve_sites fun c hc => hadd ⟨c, hc⟩]

theorem drain_set {x : ℕ} {host : Host} {site : Site} (hdrain : site.drain = (jc.sites x).drain)
    (y : ℕ) : ((jc.set x (host, site)).sites y).drain = (jc.sites y).drain := by
  change (Function.update jc.sites x site y).drain = _
  by_cases hy : y = x
  · rw [hy, Function.update_self, hdrain]
  · rw [Function.update_of_ne hy]

namespace Stepped

theorem drain_eq (h : Stepped lib ids jc ev jc') {y : ℕ} (hev : ∀ dev, ev ≠ .drain y dev) :
    (jc'.sites y).drain = (jc.sites y).drain := by
  cases h with
  | service => exact serve_drain ..
  | @schedule x ev sc =>
    change (Function.update jc.sites x _ y).drain = _
    by_cases hy : y = x
    · rw [hy, Function.update_self, scheduled_drain]
    · rw [Function.update_of_ne hy]
  | cleanup | workerHeartbeat | forward =>
    refine drain_set ?_ y
    rfl
  | @drain x ev host site =>
    have hy : y ≠ x := fun heq => hev ev (heq ▸ rfl)
    exact congrArg Site.drain (Function.update_of_ne hy ..)
  | work hworked =>
    refine drain_set ?_ y
    cases hworked <;> rfl
  | forwardJobStatus => rfl

theorem mem_of_assigns (h : Stepped lib ids jc ev jc') {y : ℕ} (hev : ∀ dev, ev ≠ .drain y dev)
    {message : RaftMessage} (ha : message.Assigns) (hm : message ∈ (jc'.host y).mailbox) :
    message ∈ (jc.host y).mailbox := by
  have hset : ∀ {x : ℕ} {host : Host}, message ∈ ((jc.service.setHost x host).hosts y).mailbox →
      (y = x → message ∈ host.mailbox → message ∈ (jc.host x).mailbox) →
      message ∈ (jc.host y).mailbox := by
    intro x host hmem hsub
    rw [Service.hosts_setHost] at hmem
    split_ifs at hmem with hy
    · exact hy ▸ hsub hy hmem
    · exact hmem
  cases h with
  | service hsev hsvc => exact (Service.hostChange_of_step hsvc hsev y).mem_of_assigns ha hm
  | schedule | cleanup | workerHeartbeat => exact hset hm fun _ hold => hold
  | @drain x ev => exact hset hm fun heq => absurd (heq ▸ rfl) (hev ev)
  | work hworked => exact hset hm fun _ => hworked.mem_of_assigns ha
  | forwardJobStatus => exact hm
  | forward hcall hforwarded => exact hset hm fun _ => hforwarded.mem_of_assigns ha

theorem appended_of_mailbox (h : Stepped lib ids jc ev jc') {p : ℕ × LogEntry}
    (hp : p ∈ jc'.appended) : p ∈ jc.appended ∨
      ∃ x ∈ ids, ∃ caller, .appendCommand p.2.command caller ∈ (jc.host x).mailbox := by
  cases h with
  | @service ev svc hev hsvc =>
    refine (List.mem_append.mp hp).imp_right fun hnew => ?_
    cases ev with
    | handleMessage x =>
      have hhandled : p ∈ jc.handled x := hnew
      unfold handled at hhandled
      split at hhandled
      · next command caller rest hmailbox =>
        split_ifs at hhandled with hrole
        · have hrole' : (jc.service.cluster.nodes x).state.role = .leader := hrole
          have hmailbox' : (jc.service.hosts x).mailbox = .appendCommand command caller :: rest :=
            hmailbox
          simp only [Service.step, Service.handleMessage, hmailbox', if_pos hrole'] at hsvc
          obtain ⟨cl, hcl, -⟩ := Option.map_eq_some_iff.mp hsvc
          obtain ⟨-, hx, -⟩ := Cluster.step_eq_some hcl
          obtain rfl := List.mem_singleton.mp hhandled
          exact ⟨x, hx, caller, hmailbox ▸ List.mem_cons_self⟩
        · exact absurd hhandled List.not_mem_nil
      · exact absurd hhandled List.not_mem_nil
    | _ => exact absurd hnew List.not_mem_nil
  | _ => exact .inl hp

end Stepped
end JobCluster

namespace WakingCluster

variable {lib : WireLib} {ids : List ℕ} {wc wc' : WakingCluster}

/-- No node has a permit or is about to get one, none is assigning jobs, and no assignment waits
for a raft loop. -/
def Asleep (ids : List ℕ) (wc : WakingCluster) : Prop :=
  ∀ x ∈ ids, wc.wakes x = .asleep ∧ (wc.jobs.sites x).drain = .idle ∧
    ∀ message ∈ (wc.jobs.host x).mailbox, ¬ message.Assigns

instance (ids : List ℕ) (wc : WakingCluster) : Decidable (wc.Asleep ids) :=
  inferInstanceAs (Decidable (∀ x ∈ ids, _ ∧ _ ∧ ∀ message ∈ (wc.jobs.host x).mailbox, _))

theorem Wake.scheduled_asleep {phase : Phase} {ev : SchedulerEvent}
    (hq : ∀ now, ev = .applyEntry now → ∀ e ∈ phase.next, e.command.wakes = false) :
    Wake.asleep.scheduled phase ev = .asleep := by
  cases ev with
  | applyEntry now =>
    cases phase with
    | applying entries =>
      cases entries with
      | nil => rfl
      | cons e rest =>
        have hsleeps : e.command.wakes = false := hq now rfl e rfl
        simp only [Wake.scheduled, hsleeps]
        rfl
    | _ => rfl
  | _ => rfl

theorem Asleep.waking (h : wc.Asleep ids) {ev : JobEvent} (hq : wc.Unwoken ev) {y : ℕ}
    (hy : y ∈ ids) : wc.waking ev y = .asleep := by
  have hset : ∀ {x : ℕ} {w : Wake}, (y = x → w = .asleep) →
      Function.update wc.wakes x w y = .asleep := by
    intro x w hw
    by_cases hyx : y = x
    · subst hyx
      rw [Function.update_self, hw rfl]
    · rw [Function.update_of_ne hyx, (h y hy).1]
  cases ev with
  | schedule x ev =>
    refine hset ?_
    rintro rfl
    rw [(h y hy).1]
    refine Wake.scheduled_asleep fun now hev => ?_
    subst hev
    exact hq
  | drain x ev =>
    cases ev with
    | checkLeader =>
      refine hset ?_
      rintro rfl
      rw [(h y hy).1]
      rfl
    | _ => exact (h y hy).1
  | _ => exact (h y hy).1

theorem Asleep.ne_drain (h : wc.Asleep ids) {ev : JobEvent} (hready : wc.Ready ev)
    {jc : JobCluster} (hs : wc.jobs.step lib ids ev = some jc) (y : ℕ) (dev : DrainEvent) :
    ev ≠ .drain y dev := by
  rintro rfl
  rw [JobCluster.step] at hs
  split_ifs at hs with hy
  obtain ⟨⟨host, site⟩, hmove, -⟩ := Option.map_eq_some_iff.mp hs
  obtain ⟨hwake, hidle, -⟩ := h y hy
  cases Site.drainMove_of_drainStep hmove with
  | leaderChecked =>
    have hpermit : (wc.wakes y).permit = true := hready
    rw [hwake] at hpermit
    cases hpermit
  | chosen hdrain | chosenNone hdrain | marked hdrain | counted hdrain | sent hdrain =>
    rw [hidle] at hdrain
    cases hdrain

theorem Asleep.step (h : wc.Asleep ids) {ev : JobEvent} (hq : wc.Unwoken ev)
    (hs : wc.step lib ids ev = some wc') :
    wc'.Asleep ids ∧ ∀ p ∈ wc'.jobs.appended, p ∈ wc.jobs.appended ∨
      ∀ jobId workerId, p.2.command ≠ .assignJob jobId workerId := by
  rw [WakingCluster.step] at hs
  split_ifs at hs with hready
  obtain ⟨jc, hjc, rfl⟩ := Option.map_eq_some_iff.mp hs
  have hstepped := JobCluster.stepped_of_step hjc
  have hne := h.ne_drain hready hjc
  constructor
  · intro x hx
    obtain ⟨-, hidle, hmail⟩ := h x hx
    exact ⟨h.waking hq hx, (hstepped.drain_eq (hne x)).trans hidle,
      fun message hm ha => hmail message (hstepped.mem_of_assigns (hne x) ha hm) ha⟩
  · intro p hp
    refine (hstepped.appended_of_mailbox hp).imp_right fun hnew jobId workerId heq => ?_
    obtain ⟨x, hx, caller, hm⟩ := hnew
    refine (h x hx).2.2 _ hm ?_
    rw [heq]
    trivial

/-- From a state in which everybody is asleep, and until some node applies a submission or a
registration, no leader appends an assignment: not for jobs that are pending, whoever is elected
and whichever workers report. -/
theorem nothing_assigned_before_wake (lib : WireLib) (h : wc.Asleep ids)
    (hrun : Runs.Reach (step lib ids) Unwoken wc wc') :
    wc'.Asleep ids ∧ ∀ p ∈ wc'.jobs.appended, p ∈ wc.jobs.appended ∨
      ∀ jobId workerId, p.2.command ≠ .assignJob jobId workerId := by
  refine hrun.invariant (P := fun wc' => wc'.Asleep ids ∧ ∀ p ∈ wc'.jobs.appended,
    p ∈ wc.jobs.appended ∨ ∀ jobId workerId, p.2.command ≠ .assignJob jobId workerId)
    ⟨h, fun p hp => .inl hp⟩ fun hP hq hs => ?_
  obtain ⟨hasleep, happended⟩ := hP.1.step hq hs
  exact ⟨hasleep, fun p hp => (happended p hp).elim (hP.2 p) .inr⟩

def permitsTaken : List JobEvent :=
  JobCluster.bothApplied ++ [.drain 1 .checkLeader, .drain 1 (.chooseNone 0),
    .drain 2 .checkLeader]

def electedWithWorker : List JobEvent :=
  JobCluster.raftSteps (Cluster.electedBy 2 1 2 1 1) ++ [.workerHeartbeat 2 1 0]

def CouldAssign (wc : WakingCluster) : Prop :=
  (wc.jobs.node 2).state.role = .leader ∧
    wc.jobs.jobAt 2 7 = some (.pending, none) ∧ (wc.jobs.sites 2).assigner.LeastLoaded 0 1

instance (wc : WakingCluster) : Decidable wc.CouldAssign := inferInstanceAs (Decidable (_ ∧ _ ∧ _))

instance (wc : WakingCluster) : (ev : JobEvent) → Decidable (wc.Unwoken ev)
  | .schedule x (.applyEntry _) => decidable_of_iff
      (∀ e ∈ ((wc.jobs.sites x).phase.next).toList, e.command.wakes = false)
      (by simp only [Option.mem_toList]; rfl)
  | .schedule _ (.appendEntries ..) | .schedule _ (.installSnapshot ..) | .schedule _ .changed
  | .schedule _ .takePendingSnapshot | .schedule _ (.rebuildFromSnapshot _)
  | .schedule _ .getCommittedEntries | .schedule _ .beginCompaction
  | .schedule _ (.finishCompaction ..) | .drain .. | .service _ | .cleanup .. | .work ..
  | .workerHeartbeat .. | .forwardJobStatus .. | .forward _ => isTrue trivial

theorem pending_job_waits_for_wake : ∃ wc wc',
    Runs.Reach (step .standard [1, 2]) (fun _ _ => True) (start [1, 2] fun _ => []) wc ∧
      Runs.Reach (step .standard [1, 2]) Unwoken wc wc' ∧ wc'.CouldAssign ∧ wc'.Asleep [1, 2] ∧
      ∀ p ∈ wc'.jobs.appended, p ∈ wc.jobs.appended ∨
        ∀ jobId workerId, p.2.command ≠ .assignJob jobId workerId := by
  obtain ⟨wc, hreach, hasleep, hrun⟩ := Runs.exists_reach_of_guardedRun (step .standard [1, 2])
    (fun _ _ => True)
    (fun wc => wc.Asleep [1, 2] ∧ (Runs.guardedRun (step .standard [1, 2]) Unwoken wc
      electedWithWorker).any (fun wc' => decide wc'.CouldAssign) = true)
    (start [1, 2] fun _ => []) permitsTaken (by decide +kernel)
  obtain ⟨wc', hreach', hcould⟩ := Runs.exists_reach_of_guardedRun (step .standard [1, 2])
    Unwoken CouldAssign wc electedWithWorker hrun
  exact ⟨wc, wc', hreach, hreach', hcould, nothing_assigned_before_wake .standard hasleep hreach'⟩

end WakingCluster
end NomadLite
