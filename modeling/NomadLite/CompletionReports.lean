import NomadLite.AtMostOnce
import NomadLite.WorkerIterations

/-!
# Reports of finished jobs

A worker loop hands the updates of an iteration to the raft loop of its own node, or to
the leader it last connected to, and forgets them. Nobody waits for the raft loop: it
may refuse the command, and it may stop before it gets to it. Where every report is
taken by a leader before its sender goes on, none is lost.
-/

namespace NomadLite

open Runs

def RaftMessage.command : RaftMessage → Option Command
  | .appendCommand command _ => some command
  | .transferLeadership _ => none

def RaftMessage.updates : RaftMessage → List JobStatusUpdate
  | .appendCommand command _ => command.updates
  | .transferLeadership _ => []

def WorkerStage.call : WorkerStage → Option ℕ
  | .awaiting c _ => some c
  | _ => none

theorem updates_reportCommand (updates : List JobStatusUpdate) :
    (reportCommand updates).updates = updates := by
  cases updates with
  | nil => rfl
  | cons u us => cases us <;> rfl

theorem ForwardCall.updates_command {lib : WireLib} {call : ForwardCall} {p : Proto.JobStatusUpdate}
    {u : JobStatusUpdate} (hp : p ∈ call.updates) (hu : protoToStatusUpdate lib p = some u) :
    u ∈ (call.command lib).updates := by
  rw [command, updates_reportCommand]
  exact List.mem_filterMap.mpr ⟨p, hp, hu⟩

theorem ForwardCall.command_of_reports {lib : WireLib} {call : ForwardCall}
    {updates : List JobStatusUpdate} (h : call.updates = updates.map (statusUpdateToProto lib)) :
    call.command lib = reportCommand (updates.map (JobStatusUpdate.onWire lib)) := by
  rw [command, h, List.filterMap_map, ← List.filterMap_eq_map]
  congr 2
  exact funext (protoToStatusUpdate_statusUpdateToProto lib)

namespace JobCluster

def Waits (jc : JobCluster) (y : ℕ) (command : Command) : Prop :=
  ∃ m ∈ (jc.host y).mailbox, m.command = some command

instance (jc : JobCluster) (y : ℕ) (command : Command) : Decidable (jc.Waits y command) :=
  inferInstanceAs (Decidable (∃ m ∈ (jc.host y).mailbox, _))

def Logged (jc : JobCluster) (y : ℕ) (command : Command) : Prop :=
  ∃ e, (y, e) ∈ jc.appended ∧ e.command = command

/-- The answer that the call is about to give, or has given, is backed: nothing of it was skipped,
and the raft loop has taken the command. -/
def Taken (lib : WireLib) (jc : JobCluster) (call : ForwardCall) : Prop :=
  (∀ p ∈ call.updates, (protoToStatusUpdate lib p).isSome = true) ∧
    ¬ jc.Waits call.receiver (call.command lib)

instance (lib : WireLib) (jc : JobCluster) (call : ForwardCall) : Decidable (jc.Taken lib call) :=
  inferInstanceAs (Decidable ((∀ p ∈ call.updates, _) ∧ ¬ _))

/-- A report is only taken by a leader and not lost with its mailbox, an iteration has somebody to
report to and does not end before its report has been taken, and `ForwardJobStatus` does not answer
before. -/
def Delivers (lib : WireLib) (jc : JobCluster) : JobEvent → Prop
  | .service (.handleMessage x) => ∀ m ∈ (jc.host x).mailbox.head?, m.updates ≠ [] →
      (jc.node x).state.role = .leader
  | .service (.stopLoop x) => ∀ m ∈ (jc.host x).mailbox, m.updates = []
  | .work x .flush => (jc.sites x).worker.buffer ≠ [] →
      (jc.node x).isLeader = true ∨ (jc.sites x).cachedLeader.isSome = true
  | .work x .send => (jc.host x).running = true
  | .work x .forwardReturned => ∀ c ∈ (jc.sites x).worker.call, ∀ call ∈ jc.forwards[c]?,
      call.stage ≠ .answered false
  | .work x .forwardFailed => ∀ c ∈ (jc.sites x).worker.call, ∀ call ∈ jc.forwards[c]?,
      call.stage = .answered true ∨ call.stage = .sent ∧ jc.Taken lib call
  | .work x .endIteration => ¬ jc.Waits x (reportCommand (jc.sites x).worker.buffer)
  | .forward c => ∀ call ∈ jc.forwards[c]?, call.stage = .sent → jc.Taken lib call
  | _ => True

instance (lib : WireLib) (jc : JobCluster) : (ev : JobEvent) → Decidable (jc.Delivers lib ev)
  | .service (.handleMessage x) =>
    inferInstanceAs (Decidable (∀ m ∈ (jc.host x).mailbox.head?, _))
  | .service (.stopLoop x) => inferInstanceAs (Decidable (∀ m ∈ (jc.host x).mailbox, _))
  | .work _ .flush => inferInstanceAs (Decidable (_ → _))
  | .work _ .send => inferInstanceAs (Decidable (_ = _))
  | .work x .forwardReturned =>
    inferInstanceAs (Decidable (∀ c ∈ (jc.sites x).worker.call, ∀ call ∈ jc.forwards[c]?, _))
  | .work x .forwardFailed =>
    inferInstanceAs (Decidable (∀ c ∈ (jc.sites x).worker.call, ∀ call ∈ jc.forwards[c]?, _ ∨ _))
  | .work _ .endIteration => inferInstanceAs (Decidable (¬ _))
  | .forward c => inferInstanceAs (Decidable (∀ call ∈ jc.forwards[c]?, _))
  | .service (.raft _) | .service (.sendMessage ..) | .service (.changeQueue ..)
  | .service (.setDraining ..) | .service (.submitJob ..) | .service (.cancelJob ..)
  | .service (.call ..) | .schedule .. | .cleanup .. | .drain .. | .work _ (.register _)
  | .work _ .sendRegister | .work _ (.heartbeat ..) | .work _ (.poll _) | .work _ .execute
  | .work _ (.finish _) | .work _ .release | .work _ (.storeResult _) | .work _ .completeJob
  | .work _ .forward | .workerHeartbeat .. | .forwardJobStatus .. => isTrue trivial

variable {lib : WireLib} {ids : List ℕ} {jc jc' : JobCluster} {ev : JobEvent}

/-! ### Reports on their way -/

def Held (jc : JobCluster) (y : ℕ) (command : Command) : Prop :=
  jc.Waits y command ∨ jc.Logged y command

structure Extends (jc jc' : JobCluster) : Prop where
  held : ∀ {y command}, command.updates ≠ [] → jc.Held y command → jc'.Held y command
  appended : jc.appended ⊆ jc'.appended
  call : ∀ {c : ℕ} {call : ForwardCall}, jc.forwards[c]? = some call →
    ∃ call', jc'.forwards[c]? = some call' ∧ call'.updates = call.updates

theorem Extends.logged (h : Extends jc jc') {y : ℕ} {command : Command}
    (hlogged : jc.Logged y command) : jc'.Logged y command := by
  obtain ⟨e, he, hcommand⟩ := hlogged
  exact ⟨e, h.appended he, hcommand⟩

theorem logged_of_handleMessage {x : ℕ} {m : RaftMessage} {rest : List RaftMessage}
    (hmailbox : (jc.host x).mailbox = m :: rest)
    (hev : jc.Delivers lib (.service (.handleMessage x))) {command : Command}
    (hcommand : m.command = some command) (hne : command.updates ≠ []) (svc : Service) :
    (jc.serve (.handleMessage x) svc).Logged x command := by
  cases m with
  | transferLeadership targetId => cases hcommand
  | appendCommand command' caller =>
    obtain rfl : command' = command := Option.some.inj hcommand
    have hhead : RaftMessage.appendCommand command' caller ∈ (jc.host x).mailbox.head? := by
      rw [hmailbox]
      rfl
    have hleader : (jc.node x).state.role = .leader := hev _ hhead hne
    refine ⟨(jc.node x).state.newEntry command', List.mem_append_right _ ?_, rfl⟩
    simp only [handled, hmailbox, if_pos hleader, List.mem_singleton]

theorem held_of_step (hev : jc.Delivers lib ev) (hstepped : Stepped lib ids jc ev jc') {y : ℕ}
    {command : Command} (hne : command.updates ≠ []) (h : jc.Held y command) :
    jc'.Held y command := by
  rcases h with ⟨m, hm, hcommand⟩ | ⟨e, he, hcommand⟩
  · by_cases htaken : ev = .service (.handleMessage y)
    · subst htaken
      cases hstepped with
      | @service _ svc _ hsvc =>
        obtain ⟨message, rest, hmailbox, hhosts, -⟩ := Service.handleMessage_cases hsvc
        rw [show (jc.host y).mailbox = message :: rest from hmailbox] at hm
        rcases List.mem_cons.mp hm with rfl | hrest
        · exact .inr (logged_of_handleMessage hmailbox hev hcommand hne svc)
        · refine .inl ⟨m, ?_, hcommand⟩
          change m ∈ (svc.hosts y).mailbox
          rw [hhosts, Service.hosts_setHost, if_pos rfl]
          exact hrest
    · by_cases hstopped : ev = .service (.stopLoop y)
      · subst hstopped
        cases m with
        | transferLeadership targetId => cases hcommand
        | appendCommand command' caller =>
          obtain rfl : command' = command := Option.some.inj hcommand
          exact absurd (hev _ hm) hne
      · exact .inl ⟨m, hstepped.mailbox_subset htaken hstopped hm, hcommand⟩
  · exact .inr ⟨e, hstepped.appended_subset he, hcommand⟩

theorem extends_of_step (hev : jc.Delivers lib ev) (hstepped : Stepped lib ids jc ev jc') :
    Extends jc jc' where
  held := held_of_step hev hstepped
  appended := hstepped.appended_subset
  call := hstepped.exists_call

/-! ### What the senders may rely on -/

/-- A worker loop that goes on has its report at a raft loop; the leader it forwards to gets the
updates as they come over the wire. -/
def Sent (lib : WireLib) (jc : JobCluster) (x : ℕ) : WorkerStage → Prop
  | .sending updates | .forwarding _ updates => updates ≠ []
  | .awaiting c updates => updates ≠ [] ∧ ∃ call, jc.forwards[c]? = some call ∧
      call.updates = updates.map (statusUpdateToProto lib)
  | .ending updates => updates ≠ [] ∧ (jc.Held x (reportCommand updates) ∨
      ∃ y, jc.Logged y (reportCommand (updates.map (JobStatusUpdate.onWire lib))))
  | _ => True

structure Backed (lib : WireLib) (jc : JobCluster) (call : ForwardCall) : Prop where
  sent : call.stage = .sent → (call.command lib).updates ≠ [] →
    jc.Held call.receiver (call.command lib)
  answered : call.stage = .answered true → ∀ p ∈ call.updates,
    (protoToStatusUpdate lib p).isSome = true ∧ jc.Logged call.receiver (call.command lib)

def Recorded (lib : WireLib) (jc : JobCluster) (u : JobStatusUpdate) : Prop :=
  ∃ y e, (y, e) ∈ jc.appended ∧ (u ∈ e.command.updates ∨ u.onWire lib ∈ e.command.updates)

structure Reporting (lib : WireLib) (jc : JobCluster) : Prop where
  sites : ∀ x, jc.Sent lib x (jc.sites x).worker
  calls : ∀ call ∈ jc.forwards, jc.Backed lib call
  reported : ∀ r ∈ jc.reported, ∀ u ∈ r.2, jc.Recorded lib u

namespace Extends

theorem sent (h : Extends jc jc') {x : ℕ} {stage : WorkerStage} (hsent : jc.Sent lib x stage) :
    jc'.Sent lib x stage := by
  cases stage with
  | awaiting c updates =>
    obtain ⟨hne, call, hcall, hupdates⟩ := hsent
    obtain ⟨call', hcall', heq⟩ := h.call hcall
    exact ⟨hne, call', hcall', heq.trans hupdates⟩
  | ending updates =>
    obtain ⟨hne, hheld | ⟨y, hlogged⟩⟩ := hsent
    · refine ⟨hne, .inl (h.held ?_ hheld)⟩
      rwa [updates_reportCommand]
    · exact ⟨hne, .inr ⟨y, h.logged hlogged⟩⟩
  | _ => exact hsent

theorem backed (h : Extends jc jc') {call : ForwardCall} (hbacked : jc.Backed lib call) :
    jc'.Backed lib call where
  sent hstage hne := h.held hne (hbacked.sent hstage hne)
  answered hstage p hp := (hbacked.answered hstage p hp).imp_right h.logged

theorem recorded (h : Extends jc jc') {u : JobStatusUpdate} (hrecorded : jc.Recorded lib u) :
    jc'.Recorded lib u := by
  obtain ⟨y, e, he, hu⟩ := hrecorded
  exact ⟨y, e, h.appended he, hu⟩

/-- What is new after a step has to be shown; the rest is as before. -/
theorem reporting (h : Extends jc jc') (hrep : jc.Reporting lib)
    (hsites : ∀ y, (jc'.sites y).worker = (jc.sites y).worker ∨
      jc'.Sent lib y (jc'.sites y).worker)
    (hcalls : ∀ call ∈ jc'.forwards, call ∈ jc.forwards ∨ jc'.Backed lib call)
    (hreported : ∀ r ∈ jc'.reported, r ∈ jc.reported ∨ ∀ u ∈ r.2, jc'.Recorded lib u) :
    jc'.Reporting lib where
  sites y := by
    rcases hsites y with heq | hsent
    · rw [heq]
      exact h.sent (hrep.sites y)
    · exact hsent
  calls call hcall := (hcalls call hcall).elim (fun hold => h.backed (hrep.calls call hold)) id
  reported r hr :=
    (hreported r hr).elim (fun hold u hu => h.recorded (hrep.reported r hold u hu)) id

end Extends

theorem reporting_start (lib : WireLib) (ids : List ℕ) (peers : ℕ → List PeerConfig) :
    (start ids peers).Reporting lib where
  sites _ := trivial
  calls _ hcall := absurd hcall List.not_mem_nil
  reported _ hr := absurd hr List.not_mem_nil

theorem backed_received (jc : JobCluster) (x : ℕ) (updates : List Proto.JobStatusUpdate) :
    jc.Backed lib ⟨x, updates, .received⟩ where
  sent hstage := ForwardStage.noConfusion hstage
  answered hstage := ForwardStage.noConfusion hstage

theorem Backed.logged {call : ForwardCall} (h : jc.Backed lib call) (hstage : call.stage = .sent)
    (htaken : jc.Taken lib call) {p : Proto.JobStatusUpdate} (hp : p ∈ call.updates) :
    jc.Logged call.receiver (call.command lib) := by
  obtain ⟨u, hu⟩ := Option.isSome_iff_exists.mp (htaken.1 p hp)
  have hne := List.ne_nil_of_mem (ForwardCall.updates_command hp hu)
  exact (h.sent hstage hne).resolve_left htaken.2

theorem waits_push {host : Host} {command : Command} {caller : Option ℕ} :
    ∃ m ∈ (host.push (.appendCommand command caller)).mailbox, m.command = some command :=
  ⟨_, List.mem_append_right _ (List.mem_singleton_self _), rfl⟩

namespace Reporting

theorem forward (h : jc.Reporting lib) {c : ℕ} {call call' : ForwardCall} {host : Host}
    (hcall : jc.forwards[c]? = some call) (hev : jc.Delivers lib (.forward c))
    (hforwarded : ForwardCall.Forwarded lib (jc.host call.receiver) call host call')
    (hext : Extends jc { jc.set call.receiver (host, jc.sites call.receiver) with
      forwards := jc.forwards.set c call' }) :
    Reporting lib { jc.set call.receiver (host, jc.sites call.receiver) with
      forwards := jc.forwards.set c call' } := by
  have hbacked := h.calls call (List.mem_of_getElem? hcall)
  refine hext.reporting h (fun y => .inl (worker_set rfl y)) (fun call₁ hmem => ?_)
    fun r hr => .inl hr
  rcases List.mem_or_eq_of_mem_set hmem with hold | rfl
  · exact .inl hold
  · refine .inr ?_
    cases hforwarded with
    | nothing hstage hempty =>
      refine ⟨ForwardStage.noConfusion, fun _ p hp => ?_⟩
      exact absurd hp (hempty ▸ List.not_mem_nil)
    | refused =>
      refine ⟨ForwardStage.noConfusion, fun hstage => ?_⟩
      exact Bool.noConfusion (ForwardStage.answered.inj hstage)
    | sent =>
      refine ⟨fun _ _ => .inl ?_, ForwardStage.noConfusion⟩
      rw [Waits, JobCluster.host]
      change ∃ m ∈ ((jc.service.setHost call.receiver _).hosts call.receiver).mailbox, _
      rw [Service.hosts_setHost, if_pos rfl]
      exact waits_push
    | answered hstage =>
      refine ⟨ForwardStage.noConfusion, fun _ p hp => ?_⟩
      have htaken := hev call hcall hstage
      exact ⟨htaken.1 p hp, hext.logged (hbacked.logged hstage htaken hp)⟩

section Work

variable {x : ℕ} {wev : WorkerEvent} {host : Host} {site : Site}

theorem work_move (h : jc.Reporting lib) (hext : Extends jc (jc.work lib x wev (host, site)))
    (hsite : (jc.work lib x wev (host, site)).Sent lib x site.worker)
    (hdropped : ∀ r ∈ jc.dropping x wev, ∀ u ∈ r.2, jc.Recorded lib u) :
    (jc.work lib x wev (host, site)).Reporting lib := by
  refine hext.reporting h (fun y => ?_) (fun call hmem => ?_) fun r hr => ?_
  · by_cases hy : y = x
    · subst hy
      rw [worker_work_self]
      exact .inr hsite
    · exact .inl (worker_work_other hy)
  · rcases List.mem_append.mp hmem with hold | hnew
    · exact .inl hold
    · right
      unfold forwarding at hnew
      split at hnew
      · split at hnew
        · rw [List.mem_singleton.mp hnew]
          exact backed_received ..
        · exact absurd hnew List.not_mem_nil
      · exact absurd hnew List.not_mem_nil
  · rcases List.mem_append.mp hr with hold | hnew
    · exact .inl hold
    · exact .inr fun u hu => hext.recorded (hdropped r hnew u hu)

theorem logged_of_awaiting (h : jc.Reporting lib) {c : ℕ} {updates : List JobStatusUpdate}
    (hworker : (jc.sites x).worker = .awaiting c updates)
    (hstage : ∀ call ∈ jc.forwards[c]?,
      call.stage = .answered true ∨ call.stage = .sent ∧ jc.Taken lib call) :
    updates ≠ [] ∧ ∃ y, jc.Logged y (reportCommand (updates.map (JobStatusUpdate.onWire lib))) := by
  have hsent := h.sites x
  rw [hworker] at hsent
  obtain ⟨hne, call, hcall, hupdates⟩ := hsent
  have hbacked := h.calls call (List.mem_of_getElem? hcall)
  obtain ⟨u, hu⟩ := List.exists_mem_of_ne_nil _ hne
  have hp : statusUpdateToProto lib u ∈ call.updates := by
    rw [hupdates]
    exact List.mem_map_of_mem hu
  refine ⟨hne, call.receiver, ?_⟩
  rw [← ForwardCall.command_of_reports hupdates]
  rcases hstage call hcall with hanswered | ⟨hwaiting, htaken⟩
  · exact (hbacked.answered hanswered _ hp).2
  · exact hbacked.logged hwaiting htaken hp

theorem recorded_of_ending (h : jc.Reporting lib) {updates : List JobStatusUpdate}
    (hworker : (jc.sites x).worker = .ending updates)
    (hwaits : ¬ jc.Waits x (reportCommand updates)) {u : JobStatusUpdate} (hu : u ∈ updates) :
    jc.Recorded lib u := by
  have hsent := h.sites x
  rw [hworker] at hsent
  obtain ⟨-, hheld | ⟨y, e, he, hcommand⟩⟩ := hsent
  · obtain ⟨e, he, hcommand⟩ := hheld.resolve_left hwaits
    refine ⟨x, e, he, .inl ?_⟩
    rw [hcommand, updates_reportCommand]
    exact hu
  · refine ⟨y, e, he, .inr ?_⟩
    rw [hcommand, updates_reportCommand]
    exact List.mem_map_of_mem hu

theorem work (h : jc.Reporting lib) (hev : jc.Delivers lib (.work x wev))
    (hworked : Site.Worked x (jc.node x) jc.forwards (jc.host x) (jc.sites x) wev host site)
    (hext : Extends jc (jc.work lib x wev (host, site))) :
    (jc.work lib x wev (host, site)).Reporting lib := by
  have hquiet : ∀ r ∈ ([] : List (ℕ × List JobStatusUpdate)), ∀ u ∈ r.2, jc.Recorded lib u :=
    fun r hr => absurd hr List.not_mem_nil
  have hsent := h.sites x
  cases hworked with
  | flushHere hworker hne => exact h.work_move hext hne hquiet
  | flushThere hworker hne => exact h.work_move hext hne hquiet
  | flushNowhere hworker hne hleader hcached =>
    have hdelivers := hev (by rw [hworker]; exact hne)
    rw [hcached] at hdelivers
    exact absurd hdelivers (not_or_intro hleader Bool.false_ne_true)
  | send hworker hsend =>
    rw [hworker] at hsent
    refine h.work_move hext ⟨hsent, .inl (.inl ?_)⟩ hquiet
    rcases Host.send_cases hsend with ⟨hstopped, -⟩ | ⟨-, rfl⟩
    · exact absurd (hstopped.symm.trans hev) Bool.false_ne_true
    · change ∃ m ∈ ((jc.service.setHost x _).hosts x).mailbox, _
      rw [Service.hosts_setHost, if_pos rfl]
      exact waits_push
  | @forward leaderId updates hworker =>
    rw [hworker] at hsent
    refine h.work_move hext ⟨hsent, ⟨leaderId, updates.map (statusUpdateToProto lib), .received⟩,
      ?_, rfl⟩ hquiet
    change (jc.forwards ++ jc.forwarding lib x .forward)[jc.forwards.length]? = _
    simp only [forwarding, hworker, List.getElem?_concat_length]
  | @forwardReturned c updates success hworker hcall =>
    have hstages : ∀ call ∈ jc.forwards[c]?, call.stage = .answered true := by
      intro call hmem
      have hnot := hev c (by rw [hworker]; rfl) call hmem
      rw [hmem] at hcall
      have hstage : call.stage = .answered success := Option.some.inj hcall
      cases success with
      | true => exact hstage
      | false => exact absurd hstage hnot
    obtain ⟨hne, hlogged⟩ :=
      h.logged_of_awaiting hworker fun call hmem => .inl (hstages call hmem)
    exact h.work_move hext ⟨hne, .inr (hlogged.imp fun _ => hext.logged)⟩ hquiet
  | @forwardFailed c updates hworker =>
    obtain ⟨hne, hlogged⟩ := h.logged_of_awaiting hworker (hev c (by rw [hworker]; rfl))
    exact h.work_move hext ⟨hne, .inr (hlogged.imp fun _ => hext.logged)⟩ hquiet
  | @endIteration updates hworker =>
    have hwaits : ¬ jc.Waits x (reportCommand (jc.sites x).worker.buffer) := hev
    rw [hworker] at hwaits
    refine h.work_move hext trivial fun r hr u hu => ?_
    simp only [dropping, hworker, List.mem_singleton] at hr
    exact h.recorded_of_ending hworker hwaits (by rwa [hr] at hu)
  | _ => exact h.work_move hext trivial hquiet

end Work

theorem step (h : jc.Reporting lib) (hev : jc.Delivers lib ev)
    (hstep : jc.step lib ids ev = some jc') : jc'.Reporting lib := by
  have hstepped := stepped_of_step hstep
  have hext := extends_of_step hev hstepped
  have hworker : ∀ y, (∀ wev, ev ≠ .work y wev) → (jc'.sites y).worker = (jc.sites y).worker :=
    fun y => hstepped.worker_eq
  cases hstepped with
  | work hworked => exact h.work hev hworked hext
  | forward hcall hforwarded => exact h.forward hcall hev hforwarded hext
  | forwardJobStatus x updates =>
    refine hext.reporting h (fun y => .inl rfl) (fun call hmem => ?_) fun r hr => .inl hr
    refine (List.mem_append.mp hmem).imp_right fun hnew => ?_
    rw [List.mem_singleton.mp hnew]
    exact backed_received ..
  | _ =>
    exact hext.reporting h (fun y => .inl (hworker y fun _ => JobEvent.noConfusion))
      (fun _ => .inl) fun _ => .inl

end Reporting

/-- An entry gets on record when its node appends it to its log, and it is leader then. -/
theorem appended_of_step (hstep : jc.step lib ids ev = some jc') {y : ℕ} {e : LogEntry}
    (he : (y, e) ∈ jc'.appended) : (y, e) ∈ jc.appended ∨ (jc.node y).state.role = .leader ∧
      (jc'.node y).state.log = (jc.node y).state.log ++ [e] := by
  cases stepped_of_step hstep with
  | @service ev svc hev hsvc =>
    refine (List.mem_append.mp he).imp_right fun hnew => ?_
    cases ev with
    | handleMessage x =>
      change (y, e) ∈ jc.handled x at hnew
      unfold handled at hnew
      split at hnew
      · next command caller rest hmailbox =>
        split_ifs at hnew with hrole
        · obtain ⟨rfl, rfl⟩ := Prod.mk.inj (List.mem_singleton.mp hnew)
          exact ⟨hrole, Service.log_of_handleMessage hmailbox hrole hsvc⟩
        · exact absurd hnew List.not_mem_nil
      · exact absurd hnew List.not_mem_nil
    | _ => exact absurd hnew List.not_mem_nil
  | _ => exact .inl he

end JobCluster

namespace Iterations

theorem cluster_reach {lib : WireLib} {ids : List ℕ} {peers : ℕ → List PeerConfig} {it : Iterations}
    {Q : JobCluster → JobEvent → Prop}
    (h : Reach (step lib ids) (fun it ev => Q it.cluster ev) (start ids peers) it) :
    Reach (JobCluster.step lib ids) Q (.start ids peers) it.cluster := by
  induction h with
  | init => exact .init
  | @next it _ ev _ hq hstep ih =>
    obtain ⟨jc, hjc, rfl⟩ := Option.map_eq_some_iff.mp hstep
    rw [cluster_next]
    exact ih.next hq hjc

/-- What is on record was appended in a step of the run, to the log of a leader. -/
theorem exists_append {lib : WireLib} {ids : List ℕ} {peers : ℕ → List PeerConfig} {it : Iterations}
    {Q : Iterations → JobEvent → Prop} (h : Reach (step lib ids) Q (start ids peers) it) {y : ℕ}
    {e : LogEntry} (he : (y, e) ∈ it.cluster.appended) : ∃ before after ev,
      Reach (step lib ids) Q (start ids peers) before ∧ step lib ids before ev = some after ∧
      Reach (step lib ids) Q after it ∧ (before.cluster.node y).state.role = .leader ∧
      (after.cluster.node y).state.log = (before.cluster.node y).state.log ++ [e] := by
  obtain ⟨before, after, ev, hbefore, hstep, hafter, hold, hnew⟩ :=
    h.exists_step (P := fun it => (y, e) ∈ it.cluster.appended) List.not_mem_nil he
  refine ⟨before, after, ev, hbefore, hstep, hafter, ?_⟩
  obtain ⟨jc, hjc, rfl⟩ := Option.map_eq_some_iff.mp hstep
  rw [cluster_next] at hnew ⊢
  exact (JobCluster.appended_of_step hjc hnew).resolve_left hold

/-- In runs whose reports are delivered, the update of every job that an iteration has executed and
not found cancelled is on record when the iteration has ended, and so is every update that
`ForwardJobStatus` has accepted. What is on record was appended by a leader on the way. -/
theorem completions_not_lost (lib : WireLib) (ids : List ℕ) (peers : ℕ → List PeerConfig)
    {it : Iterations} (h : Reach (step lib ids) (fun it ev => it.cluster.Delivers lib ev)
      (start ids peers) it) :
    (∀ x id result, (x, id, result) ∈ it.ended → ∃ y e u, (y, e) ∈ it.cluster.appended ∧
      u ∈ e.command.updates ∧ u.jobId = id ∧ u.status = result.status ∧ u.executedBy = x ∧
      u.exitCode = result.exitCode) ∧
    (∀ call ∈ it.cluster.forwards, call.stage = .answered true → ∀ p ∈ call.updates,
      ∃ e u, (call.receiver, e) ∈ it.cluster.appended ∧ u ∈ e.command.updates ∧
        protoToStatusUpdate lib p = some u) ∧
    ∀ y e, (y, e) ∈ it.cluster.appended → ∃ before after ev,
      Reach (step lib ids) (fun it ev => it.cluster.Delivers lib ev) (start ids peers) before ∧
      step lib ids before ev = some after ∧
      Reach (step lib ids) (fun it ev => it.cluster.Delivers lib ev) after it ∧
      (before.cluster.node y).state.role = .leader ∧
      (after.cluster.node y).state.log = (before.cluster.node y).state.log ++ [e] := by
  have hreporting : it.cluster.Reporting lib :=
    (cluster_reach h).invariant (JobCluster.reporting_start lib ids peers)
      fun hrep hev hstep => hrep.step hev hstep
  have hbuffered : it.Buffered :=
    h.invariant (buffered_start ids peers) fun hbuf _ hstep => hbuf.step hstep
  refine ⟨fun x id result hended => ?_, fun call hcall hstage p hp => ?_,
    fun y e he => exists_append h he⟩
  · obtain ⟨updates, hreported, u, hu, htells⟩ := hbuffered.ended _ hended
    obtain ⟨y, e, he, hsame | hwire⟩ := hreporting.reported _ hreported u hu
    · exact ⟨y, e, u, he, hsame, htells⟩
    · exact ⟨y, e, u.onWire lib, he, hwire, htells.onWire lib⟩
  · obtain ⟨hsome, e, he, hcommand⟩ := (hreporting.calls call hcall).answered hstage p hp
    obtain ⟨u, hu⟩ := Option.isSome_iff_exists.mp hsome
    exact ⟨e, u, he, hcommand ▸ ForwardCall.updates_command hp hu, hu⟩

def succeeded : ExecutionResult := ⟨.completed, some 0, some "", none⟩

def executedAndSent : List JobEvent :=
  JobCluster.assignedThenExecuted ++ [.work 1 (.finish succeeded), .work 1 (.storeResult .epoch),
    .work 1 .completeJob, .work 1 .flush, .work 1 .send]

def forwardedReport : Proto.JobStatusUpdate :=
  statusUpdateToProto .standard ⟨8, .completed, 2, some 0, some .epoch⟩

def forwardedTo (x : ℕ) : List JobEvent :=
  [.forwardJobStatus x [forwardedReport], .forward 0, .service (.handleMessage x), .forward 0]

theorem completion_of_leader_logged : ∃ it,
    Reach (step .standard [1, 2]) (fun it ev => it.cluster.Delivers .standard ev)
      (start [1, 2] fun _ => []) it ∧ it.ended = [(1, 7, succeeded)] ∧
      it.cluster.forwards = [⟨1, [forwardedReport], .answered true⟩] ∧
      (∃ y e u, (y, e) ∈ it.cluster.appended ∧ u ∈ e.command.updates ∧ u.jobId = 7 ∧
        u.status = .completed ∧ u.executedBy = 1 ∧ u.exitCode = some 0) ∧
      ∃ e u, (1, e) ∈ it.cluster.appended ∧ u ∈ e.command.updates ∧
        protoToStatusUpdate .standard forwardedReport = some u := by
  obtain ⟨it, hreach, hended, hforwards⟩ := exists_reach_of_guardedRun (step .standard [1, 2])
    (fun it ev => it.cluster.Delivers .standard ev)
    (fun it => it.ended = [(1, 7, succeeded)] ∧
      it.cluster.forwards = [⟨1, [forwardedReport], .answered true⟩])
    (start [1, 2] fun _ => [])
    (executedAndSent ++ [.service (.handleMessage 1), .work 1 .endIteration] ++ forwardedTo 1)
    (by decide +kernel)
  obtain ⟨hcompletions, hanswered, -⟩ := completions_not_lost _ _ _ hreach
  refine ⟨it, hreach, hended, hforwards, hcompletions 1 7 succeeded ?_,
    hanswered ⟨1, [forwardedReport], .answered true⟩ ?_ rfl forwardedReport ?_⟩
  · rw [hended]
    exact List.mem_singleton_self _
  · rw [hforwards]
    exact List.mem_singleton_self _
  · exact List.mem_singleton_self _

/-- Node 1 loses its leadership before its raft loop gets to the update of job 7. The loop refuses
it, and then the one that node 2 reports. -/
theorem completions_lost : ∃ it,
    Reach (step .standard [1, 2]) (fun _ _ => True) (start [1, 2] fun _ => []) it ∧
      it.ended = [(1, 7, succeeded)] ∧
      it.cluster.forwards = [⟨1, [forwardedReport], .answered true⟩] ∧
      ∀ p ∈ it.cluster.appended, p.2.command.updates = [] :=
  exists_reach_of_guardedRun (step .standard [1, 2]) (fun _ _ => True)
    (fun it => it.ended = [(1, 7, succeeded)] ∧
      it.cluster.forwards = [⟨1, [forwardedReport], .answered true⟩] ∧
      ∀ p ∈ it.cluster.appended, p.2.command.updates = [])
    (start [1, 2] fun _ => [])
    (executedAndSent ++ JobCluster.raftSteps (Cluster.electedBy 2 1 2 2 1) ++
      [.service (.handleMessage 1), .work 1 .endIteration] ++ forwardedTo 1) (by decide +kernel)

end Iterations
end NomadLite
