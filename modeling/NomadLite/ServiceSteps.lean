import NomadLite.JobLedger

/-!
# What the client services do to a node

`HostChange` lists what a step of the services and raft loops can do to the queue and
the mailbox of a node; its Raft state changes by a step of the cluster, if at all. A
job that a call submits is still as the call built it.
-/

namespace NomadLite

def Job.Fresh (job : Job) : Prop :=
  job.core = .fresh job.id job.command job.image ∧ job.image ≠ some ""

theorem Job.Built.fresh {job : Job} (h : job.Built) : job.Fresh := by
  obtain ⟨jobId, command, now, image, rfl⟩ := h
  refine ⟨rfl, fun hempty => ?_⟩
  obtain ⟨-, hne⟩ := Option.filter_eq_some_iff.mp hempty
  exact of_decide_eq_true hne rfl

namespace ClientCall

variable {lib : WireLib} {c : ℕ} {host host' : Host} {nd : RaftNode} {call call' : ClientCall}
  {ev : CallEvent}

theorem observe_stage (lib : WireLib) (cl : Cluster) (a : Action) (call : ClientCall) :
    (call.observe lib cl a).stage = call.stage := by
  unfold observe
  split
  · split_ifs <;> rfl
  · rfl

theorem job_of_step (h : call.step lib c host nd ev = some (host', call')) {job : Job}
    (hjob : job ∈ call'.stage.job) : job ∈ call.stage.job ∨ job.Built := by
  cases moved_of_step h with
  | checked _ _ hbuilt => exact .inr (hbuilt job hjob)
  | @sent p hstage =>
    rw [hstage]
    cases p <;> exact .inl hjob
  | answered hstage =>
    rw [hstage]
    exact .inl hjob
  | failed | cancelled | added => cases hjob

/-- A call changes its host when it sends its command and when it adds its job. -/
theorem host_of_step (h : call.step lib c host nd ev = some (host', call')) :
    host' = host ∨
      (∃ p, ev = .send ∧ host' = host.push (.appendCommand (Proposal.command p) (some c))) ∨
      ∃ job, ev = .addJob ∧ call.stage = .adding job ∧
        host' = { host with queue := (host.queue.addJob job).1 } := by
  unfold step at h
  split at h
  · exact .inl (Prod.mk.inj (Option.some.inj h)).1.symm
  · exact .inl (Prod.mk.inj (Option.some.inj h)).1.symm
  · exact .inl (Prod.mk.inj (Option.some.inj h)).1.symm
  · exact .inl (Prod.mk.inj (Option.some.inj h)).1.symm
  · next p hstage =>
    split at h
    · exact .inr (.inl ⟨p, rfl, (Prod.mk.inj (Option.some.inj h)).1.symm⟩)
    · exact .inl (Prod.mk.inj (Option.some.inj h)).1.symm
  · obtain ⟨answer, -, heq⟩ := Option.map_eq_some_iff.mp h
    exact .inl (Prod.mk.inj heq).1.symm
  · split_ifs at h
    exact .inl (Prod.mk.inj (Option.some.inj h)).1.symm
  · split_ifs at h
    exact .inl (Prod.mk.inj (Option.some.inj h)).1.symm
  · next job hstage =>
    exact .inr (.inr ⟨job, rfl, hstage, (Prod.mk.inj (Option.some.inj h)).1.symm⟩)
  · cases h

theorem addJob_of_step (h : call.step lib c host nd .addJob = some (host', call')) :
    ∃ job, call.stage = .adding job ∧
      host' = { host with queue := (host.queue.addJob job).1 } := by
  cases hstage : call.stage with
  | adding job =>
    simp only [step, hstage] at h
    exact ⟨job, rfl, (Prod.mk.inj (Option.some.inj h)).1.symm⟩
  | _ =>
    simp only [step, hstage] at h
    cases h

end ClientCall

namespace Service

inductive HostChange (svc : Service) (y : ℕ) : ServiceEvent → Host → Prop where
  | same {ev : ServiceEvent} : HostChange svc y ev (svc.hosts y)
  | draining {ev : ServiceEvent} (draining : Bool) :
      HostChange svc y ev { svc.hosts y with draining := draining }
  | stopped : HostChange svc y (.stopLoop y) { svc.hosts y with running := false, mailbox := [] }
  | taken {message : RaftMessage} {rest : List RaftMessage}
      (hmailbox : (svc.hosts y).mailbox = message :: rest) :
      HostChange svc y (.handleMessage y) { svc.hosts y with mailbox := rest }
  | transferring {ev : ServiceEvent} (targetId : Option ℕ) :
      HostChange svc y ev ((svc.hosts y).push (.transferLeadership targetId))
  | proposed {c : ℕ} (p : Proposal) :
      HostChange svc y (.call c .send)
        ((svc.hosts y).push (.appendCommand p.command (some c)))
  | added {c : ℕ} {call : ClientCall} {job : Job} (hcall : svc.calls[c]? = some call)
      (hnode : call.node = y) (hstage : call.stage = .adding job) :
      HostChange svc y (.call c .addJob)
        { svc.hosts y with queue := ((svc.hosts y).queue.addJob job).1 }

variable {lib : WireLib} {ids : List ℕ} {svc svc' : Service} {ev : ServiceEvent}

theorem hosts_setHost (svc : Service) (x : ℕ) (host : Host) (y : ℕ) :
    (svc.setHost x host).hosts y = if y = x then host else svc.hosts y := by
  by_cases hy : y = x
  · rw [if_pos hy, setHost, hy]
    exact Function.update_self ..
  · rw [if_neg hy, setHost]
    exact Function.update_of_ne hy ..

theorem hosts_answer (svc : Service) (caller : Option ℕ) (answer : LoopAnswer) :
    (svc.answer caller answer).hosts = svc.hosts := by cases caller <;> rfl

theorem cluster_answer (svc : Service) (caller : Option ℕ) (answer : LoopAnswer) :
    (svc.answer caller answer).cluster = svc.cluster := by cases caller <;> rfl

theorem HostChange.of_setHost {x : ℕ} {host : Host}
    (h : HostChange svc x ev host) (y : ℕ) :
    HostChange svc y ev ((svc.setHost x host).hosts y) := by
  rw [hosts_setHost]
  split_ifs with hy
  · exact hy ▸ h
  · exact .same

theorem handleMessage_cases {x : ℕ} (h : svc.handleMessage lib ids x = some svc') :
    ∃ message rest, (svc.hosts x).mailbox = message :: rest ∧
      svc'.hosts = (svc.setHost x { svc.hosts x with mailbox := rest }).hosts ∧
      (svc'.cluster = svc.cluster ∨ ∃ command,
        svc.cluster.step lib ids ⟨x, .appendCommand command⟩ = some svc'.cluster) ∧
      (svc'.calls = svc.calls ∨ ∃ c answer, svc'.calls =
        svc.calls.modify c (ClientCall.reply answer)) := by
  have hcalls : ∀ (svc₀ : Service) (caller : Option ℕ) (answer : LoopAnswer),
      (svc₀.answer caller answer).calls = svc₀.calls ∨ ∃ c answer',
        (svc₀.answer caller answer).calls = svc₀.calls.modify c (ClientCall.reply answer') := by
    intro svc₀ caller answer
    cases caller with
    | none => exact .inl rfl
    | some c => exact .inr ⟨c, answer, rfl⟩
  unfold handleMessage at h
  dsimp only at h
  split at h
  · cases h
  · next targetId rest hmailbox =>
    obtain rfl := Option.some.inj h
    exact ⟨_, rest, hmailbox, rfl, .inl rfl, .inl rfl⟩
  · next command caller rest hmailbox =>
    split_ifs at h
    · obtain ⟨cl, hcl, rfl⟩ := Option.map_eq_some_iff.mp h
      exact ⟨_, rest, hmailbox, hosts_answer .., .inr ⟨command, by rw [cluster_answer]; exact hcl⟩,
        hcalls ..⟩
    · obtain rfl := Option.some.inj h
      exact ⟨_, rest, hmailbox, hosts_answer .., .inl (cluster_answer ..), hcalls ..⟩

theorem log_of_handleMessage {x : ℕ} {command : Command} {caller : Option ℕ}
    {rest : List RaftMessage}
    (hmailbox : (svc.hosts x).mailbox = .appendCommand command caller :: rest)
    (hrole : (svc.cluster.nodes x).state.role = .leader)
    (h : svc.handleMessage lib ids x = some svc') : (svc'.cluster.nodes x).state.log =
      (svc.cluster.nodes x).state.log ++ [(svc.cluster.nodes x).state.newEntry command] := by
  simp only [handleMessage, hmailbox, if_pos hrole] at h
  obtain ⟨cl, hcl, rfl⟩ := Option.map_eq_some_iff.mp h
  obtain ⟨eff, -, -, heff, rfl⟩ := Cluster.step_eq_some hcl
  obtain rfl := Option.some.inj ((if_pos hrole).symm.trans heff)
  rw [cluster_answer]
  simp only [setHost, Cluster.apply, Function.update_self]
  rfl

theorem leader_of_handleMessage {x : ℕ} (hrole : (svc.cluster.nodes x).state.role = .leader)
    (h : svc.handleMessage lib ids x = some svc') :
    (svc'.cluster.nodes x).state.role = .leader := by
  obtain ⟨message, rest, -, -, hcluster, -⟩ := handleMessage_cases h
  rcases hcluster with hsame | ⟨command, hcl⟩
  · rw [hsame]
    exact hrole
  · obtain ⟨eff, -, -, heff, heq⟩ := Cluster.step_eq_some hcl
    obtain rfl := Option.some.inj ((if_pos hrole).symm.trans heff)
    rw [heq]
    simp only [Cluster.apply, Function.update_self]
    exact hrole

theorem cluster_of_appendCommand {x : ℕ} {command : Command} {caller : Option ℕ} {rest : List RaftMessage}
    (h : svc.handleMessage lib ids x = some svc')
    (hmail : (svc.hosts x).mailbox = .appendCommand command caller :: rest) :
    svc.cluster.step lib ids ⟨x, .appendCommand command⟩ = some svc'.cluster ∨
      ((svc.cluster.nodes x).state.role ≠ .leader ∧ svc'.cluster = svc.cluster) := by
  simp only [handleMessage, hmail] at h
  split_ifs at h with hrole
  · obtain ⟨cl, hcl, rfl⟩ := Option.map_eq_some_iff.mp h
    rw [cluster_answer]
    exact .inl hcl
  · obtain rfl := Option.some.inj h
    rw [cluster_answer]
    exact .inr ⟨hrole, rfl⟩

/-- The raft loop of a leader takes whatever message comes next. -/
theorem exists_handleMessage (lib : WireLib) {x : ℕ} (hx : x ∈ ids)
    (hrole : (svc.cluster.nodes x).state.role = .leader) (hmailbox : (svc.hosts x).mailbox ≠ []) :
    ∃ svc', svc.handleMessage lib ids x = some svc' := by
  obtain ⟨message, rest, hmailbox⟩ := List.exists_cons_of_ne_nil hmailbox
  cases message with
  | transferLeadership targetId => exact ⟨_, by simp only [handleMessage, hmailbox]; rfl⟩
  | appendCommand command caller =>
    have hcl : ∃ cl, svc.cluster.step lib ids ⟨x, .appendCommand command⟩ = some cl := by
      simp [Cluster.step, hx, Event.packet, RaftNode.step, RaftNode.handleAppendCommand, hrole]
    obtain ⟨cl, hcl⟩ := hcl
    exact ⟨_, by simp only [handleMessage, hmailbox, if_pos hrole, setHost, hcl]; rfl⟩

theorem hostChange_of_step (h : svc.step lib ids ev = some svc') (hev : ev.isServices = true)
    (y : ℕ) : HostChange svc y ev (svc'.hosts y) := by
  cases stepped_of_step h with
  | raft hcl => exact .same
  | @sendMessage x message hcaller =>
    cases message with
    | appendCommand command caller => cases hev
    | transferLeadership targetId => exact HostChange.of_setHost (.transferring targetId) y
  | handleMessage h =>
    obtain ⟨message, rest, hmailbox, hhosts, -⟩ := handleMessage_cases h
    rw [hhosts]
    exact HostChange.of_setHost (.taken hmailbox) y
  | stopLoop x => exact HostChange.of_setHost .stopped y
  | changeQueue x queue => cases hev
  | setDraining x draining => exact HostChange.of_setHost (.draining draining) y
  | submitJob x req => exact .same
  | cancelJob x req => exact .same
  | call hcall hstep =>
    refine HostChange.of_setHost ?_ y
    rcases ClientCall.host_of_step hstep with rfl | ⟨p, rfl, rfl⟩ | ⟨job, rfl, hstage, rfl⟩
    · exact .same
    · exact .proposed p
    · exact .added hcall rfl hstage

/-- The raft state changes by a step of the cluster that is none of the scheduler loop's. -/
theorem cluster_of_step (h : svc.step lib ids ev = some svc') (hev : ev.isServices = true) :
    svc'.cluster = svc.cluster ∨
      ∃ a, a.event.isSchedulers = false ∧ svc.cluster.step lib ids a = some svc'.cluster := by
  cases stepped_of_step h with
  | @raft a cl hcl =>
    have hnot : (!a.event.isSchedulers) = true := hev
    exact .inr ⟨a, (Bool.not_eq_true' _).mp hnot, hcl⟩
  | handleMessage h =>
    obtain ⟨message, rest, -, -, hcluster, -⟩ := handleMessage_cases h
    exact hcluster.imp_right fun ⟨command, hcl⟩ => ⟨_, rfl, hcl⟩
  | _ => exact .inl rfl

/-- A property of the stage of a call and of what it has proposed holds of every call if it holds
of new ones and calls keep it when they take a piece. -/
theorem calls_of_step {P : ClientCall → Prop} (h : svc.step lib ids ev = some svc')
    (hcalls : ∀ call ∈ svc.calls, P call)
    (hcongr : ∀ {call call' : ClientCall}, call'.stage = call.stage →
      call'.proposed = call.proposed → P call → P call')
    (hsubmit : ∀ x nd (host : Host) req, P (.start x nd (host.submitJob req)))
    (hcancel : ∀ x nd req, P (.start x nd (parseCancel lib req)))
    (hstep : ∀ {c cev call host call'}, ev = .call c cev → svc.calls[c]? = some call →
      call.step lib c (svc.hosts call.node) (svc.cluster.nodes call.node) cev =
        some (host, call') → P call → P call') :
    ∀ call ∈ svc'.calls, P call := by
  have hnew : ∀ {call₀ : ClientCall}, P call₀ → ∀ call ∈ (svc.addCall call₀).calls, P call := by
    intro call₀ hcall₀ call hmem
    rcases List.mem_append.mp hmem with hold | hlast
    · exact hcalls call hold
    · exact List.mem_singleton.mp hlast ▸ hcall₀
  cases stepped_of_step h with
  | raft hcl =>
    intro call hmem
    obtain ⟨call₀, hcall₀, rfl⟩ := List.mem_map.mp hmem
    exact hcongr (ClientCall.observe_stage ..) (ClientCall.observe_proposed ..) (hcalls _ hcall₀)
  | handleMessage h =>
    obtain ⟨message, rest, -, -, -, hafter⟩ := handleMessage_cases h
    intro call hmem
    rcases hafter with heq | ⟨c, answer, heq⟩
    · exact hcalls call (heq ▸ hmem)
    · rw [heq] at hmem
      obtain ⟨c', hc'⟩ := List.mem_iff_getElem?.mp hmem
      rw [List.getElem?_modify] at hc'
      obtain ⟨call₀, hcall₀, rfl⟩ := Option.map_eq_some_iff.mp hc'
      have hold := hcalls call₀ (List.mem_of_getElem? hcall₀)
      split_ifs
      · refine hcongr ?_ ?_ hold <;> rfl
      · exact hold
  | submitJob x req => exact hnew (hsubmit x _ _ req)
  | cancelJob x req => exact hnew (hcancel x _ req)
  | call hcall hmoved =>
    intro call₁ hmem
    rcases List.mem_or_eq_of_mem_set hmem with hold | rfl
    · exact hcalls call₁ hold
    · exact hstep rfl hcall hmoved (hcalls _ (List.mem_of_getElem? hcall))
  | sendMessage | stopLoop | changeQueue | setDraining => exact hcalls

def Fresh (svc : Service) : Prop := ∀ call ∈ svc.calls, ∀ job ∈ call.stage.job, job.Fresh

theorem fresh_of_step (h : svc.step lib ids ev = some svc') (hfresh : svc.Fresh) : svc'.Fresh := by
  have hstart : ∀ x nd (check : Except Status ClientRequest),
      ∀ job ∈ (ClientCall.start x nd check).stage.job, job.Fresh := by
    intro x nd check job hjob
    cases check <;> cases hjob
  exact calls_of_step h hfresh (fun hstage _ hold => hstage ▸ hold)
    (fun x nd host req => hstart x nd _) (fun x nd req => hstart x nd _)
    fun _ _ hmoved hold job hjob =>
      (ClientCall.job_of_step hmoved hjob).elim (hold job) Job.Built.fresh

end Service
end NomadLite
