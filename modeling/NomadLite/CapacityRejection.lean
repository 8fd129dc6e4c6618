import NomadLite.Dashboard
import NomadLite.SnapshotPrefix

/-!
# Rejections at capacity

A submission is checked against the capacity twice: before it is proposed, and when the
job is added after the raft loop has answered. A call that the first check rejects has
proposed nothing. The second check comes when the entry is in the log.
-/

namespace NomadLite

def ClientCall.status (call : ClientCall) : Option Status :=
  match call.stage with
  | .returned outcome => match outcome.result with
    | .error status => some status
    | .ok _ => none
  | _ => none

def ClientCall.RejectedFull (call : ClientCall) : Prop :=
  call.status = some ⟨.resourceExhausted, "Job queue is at capacity"⟩

instance (call : ClientCall) : Decidable call.RejectedFull := inferInstanceAs (Decidable (_ = _))

def DashboardCall.RejectedFull (call : DashboardCall) : Prop :=
  call.stage = .returned (.failure .serviceUnavailable "Job queue is at capacity")

instance (call : DashboardCall) : Decidable call.RejectedFull :=
  inferInstanceAs (Decidable (_ = _))

/-! ### Calls of the client service -/

namespace ClientCall

def Clean (call : ClientCall) : Prop :=
  call.stage.Open ∨ call.RejectedFull → call.proposed = none

variable {lib : WireLib} {c : ℕ} {host host' : Host} {nd : RaftNode} {call call' : ClientCall}
  {ev : CallEvent}

theorem clean_start (x : ℕ) (nd : RaftNode) (check : Except Status ClientRequest) :
    (start x nd check).Clean := by
  intro _
  cases check <;> rfl

theorem clean_of_step (h : call.step lib c host nd ev = some (host', call'))
    (hroom : ev = .addJob → host.queue.isFull = false) (hclean : call.Clean) : call'.Clean := by
  intro hnew
  cases moved_of_step h with
  | checked hold => exact hclean (.inl hold)
  | failed hmailbox hfull =>
    rcases hnew with hopen | hrejected
    · exact hopen.elim
    · rcases hfull (Option.some.inj hrejected) with hopen | ⟨hev, hisFull⟩
      · exact hclean (.inl hopen)
      · rw [hroom hev] at hisFull
        cases hisFull
  | sent | answered | cancelled | added =>
    rcases hnew with hopen | hrejected
    · exact hopen.elim
    · cases hrejected

end ClientCall

/-! ### Calls of the dashboard -/

namespace DashboardCall

def Open (call : DashboardCall) : Prop :=
  match call.stage with
  | .checkingLeader _ | .checkingQueue _ | .sending _ => True
  | .waiting _ | .adding _ | .returned _ => False

def Clean (call : DashboardCall) : Prop := call.Open ∨ call.RejectedFull → call.proposed = none

variable {lib : WireLib} {host host' : Host} {nd : RaftNode} {call call' : DashboardCall}
  {ev : PostEvent}

theorem clean_moved (h : call.Clean) (hopen : call.Open) (stage : PostStage) :
    (call.moveTo stage).Clean :=
  fun _ => h (.inl hopen)

theorem clean_of_ne {stage : PostStage} (hstage : (call.moveTo stage).Open → False)
    (hne : stage ≠ .returned (.failure .serviceUnavailable "Job queue is at capacity")) :
    (call.moveTo stage).Clean := by
  rintro (hopen | hrejected)
  · exact (hstage hopen).elim
  · exact absurd hrejected hne

theorem clean_start (x : ℕ) (host : Host) (payload : SubmitJobRequest) :
    (start x host payload).Clean := fun _ => rfl

theorem clean_heard (h : call.Clean) (x : ℕ) : (call.heard x nd).Clean := by
  have hstage : (call.heard x nd).stage = call.stage := by
    unfold heard
    split
    · split_ifs <;> rfl
    · rfl
  have hproposed : (call.heard x nd).proposed = call.proposed := by
    unfold heard
    split
    · split_ifs <;> rfl
    · rfl
  rw [Clean, Open, RejectedFull, hstage, hproposed]
  exact h

theorem clean_of_step (h : call.step lib host nd ev = some (host', call'))
    (hroom : ev = .addJob → host.queue.isFull = false) (hclean : call.Clean) : call'.Clean := by
  unfold step at h
  split at h
  · next payload hstage =>
    obtain ⟨rfl, rfl⟩ := Prod.mk.inj (Option.some.inj h)
    have hopen : call.Open := by rw [Open, hstage]; trivial
    split_ifs <;> exact clean_moved hclean hopen _
  · next payload hstage =>
    obtain ⟨rfl, rfl⟩ := Prod.mk.inj (Option.some.inj h)
    have hopen : call.Open := by rw [Open, hstage]; trivial
    split_ifs <;> exact clean_moved hclean hopen _
  · next job hstage =>
    obtain ⟨host₁, -, heq⟩ := Option.map_eq_some_iff.mp h
    obtain ⟨rfl, rfl⟩ := Prod.mk.inj heq
    split_ifs
    · rintro (hopen | hrejected)
      · exact hopen.elim
      · cases hrejected
    · exact clean_of_ne id (by decide)
  · next job hstage =>
    obtain ⟨answer, -, heq⟩ := Option.map_eq_some_iff.mp h
    obtain ⟨rfl, rfl⟩ := Prod.mk.inj heq
    cases answer with
    | ok e => exact clean_of_ne id nofun
    | error e => exact clean_of_ne id fun heq => nomatch PostStage.returned.inj heq
  · split_ifs at h
    obtain ⟨rfl, rfl⟩ := Prod.mk.inj (Option.some.inj h)
    exact clean_of_ne id (by decide)
  · next job hstage =>
    have hadds : host.queue.addJob job = (host.queue.insertJob job, true) :=
      if_neg (of_decide_eq_false (hroom rfl))
    rw [hadds] at h
    obtain ⟨rfl, rfl⟩ := Prod.mk.inj (Option.some.inj h)
    exact clean_of_ne id fun heq => nomatch PostStage.returned.inj heq
  · cases h

end DashboardCall

/-! ### The cluster -/

namespace DashboardCluster

variable {lib : WireLib} {ids : List ℕ} {dc dc' : DashboardCluster} {ev : DashboardEvent}

def HasRoom (dc : DashboardCluster) : DashboardEvent → Prop
  | .jobs (.service (.call c .addJob)) =>
    ∀ call ∈ dc.jobs.service.calls[c]?, (dc.jobs.queue call.node).isFull = false
  | .post c .addJob => ∀ call ∈ dc.posts[c]?, (dc.jobs.queue call.node).isFull = false
  | _ => True

def Traces (dc : DashboardCluster) (id : Uuid) : Prop :=
  ∃ x, (∃ e ∈ (dc.jobs.node x).state.log, e.command.submitted = some id) ∨
    (dc.jobs.queue x).getJob id ≠ none

def LeavesNothing (dc : DashboardCluster) (proposed : Option Command) : Prop :=
  ∀ command ∈ proposed, ∀ id ∈ command.submitted, ¬ dc.Traces id

structure Clean (dc : DashboardCluster) : Prop where
  calls : ∀ call ∈ dc.jobs.service.calls, call.Clean
  posts : ∀ call ∈ dc.posts, call.Clean

theorem clean_calls_of_step {jc jc' : JobCluster} {jev : JobEvent}
    (h : jc.step lib ids jev = some jc')
    (hroom : ∀ c call, jev = .service (.call c .addJob) → jc.service.calls[c]? = some call →
      (jc.queue call.node).isFull = false)
    (hcalls : ∀ call ∈ jc.service.calls, call.Clean) :
    ∀ call ∈ jc'.service.calls, call.Clean := by
  cases JobCluster.stepped_of_step h with
  | service hev hsvc =>
    refine Service.calls_of_step hsvc hcalls (fun hstage hproposed hclean => ?_)
      (fun x nd host req => ClientCall.clean_start x nd _)
      (fun x nd req => ClientCall.clean_start x nd _) ?_
    · rw [ClientCall.Clean, ClientCall.RejectedFull, ClientCall.status, hstage, hproposed]
      exact hclean
    · rintro c cev call host call' rfl hcall hstep hclean
      refine ClientCall.clean_of_step hstep (fun hadd => ?_) hclean
      exact hroom c call (by rw [hadd]) hcall
  | _ => exact hcalls

theorem Clean.step (h : dc.Clean) (hroom : dc.HasRoom ev) (hstep : dc.step lib ids ev = some dc') :
    dc'.Clean := by
  cases ev with
  | jobs jev =>
    obtain ⟨jc, hjc, rfl⟩ := Option.map_eq_some_iff.mp hstep
    refine ⟨clean_calls_of_step hjc ?_ h.calls, fun call hmem => ?_⟩
    · rintro c call rfl hcall
      exact hroom call hcall
    · unfold hearing at hmem
      split at hmem
      · obtain ⟨call₀, hcall₀, rfl⟩ := List.mem_map.mp hmem
        exact DashboardCall.clean_heard (h.posts call₀ hcall₀) _
      · exact h.posts call hmem
  | submitJob x payload =>
    obtain rfl := Option.some.inj hstep
    refine ⟨h.calls, fun call hmem => ?_⟩
    rcases List.mem_append.mp hmem with hold | hnew
    · exact h.posts call hold
    · exact List.mem_singleton.mp hnew ▸ DashboardCall.clean_start x (dc.jobs.host x) payload
  | post c pev =>
    rw [DashboardCluster.step] at hstep
    split at hstep
    · next call hcall =>
      obtain ⟨⟨host, call'⟩, hmoved, rfl⟩ := Option.map_eq_some_iff.mp hstep
      refine ⟨h.calls, fun call₁ hmem => ?_⟩
      rcases List.mem_or_eq_of_mem_set hmem with hold | rfl
      · exact h.posts call₁ hold
      · refine DashboardCall.clean_of_step hmoved ?_ (h.posts call (List.mem_of_getElem? hcall))
        rintro rfl
        exact hroom call hcall
    · cases hstep

def smallCluster : JobCluster :=
  { JobCluster.start [1, 2] fun _ => [] with
    service := { Service.start [1, 2] fun _ => [] with
      hosts := fun _ => ⟨[], .withCapacity 1, false, true, []⟩ } }

def elected : List DashboardEvent :=
  (JobCluster.raftSteps (Cluster.electedBy 1 2 1 0 0)).map .jobs

def checked (c : ℕ) (id : Uuid) : List DashboardEvent :=
  [.jobs (.service (.submitJob 1 ⟨"true", none⟩)), .jobs (.service (.call c .checkLeader)),
    .jobs (.service (.call c (.checkQueue id .epoch)))]

def postChecked (c : ℕ) (id : Uuid) : List DashboardEvent :=
  [.submitJob 1 ⟨"true", none⟩, .post c .checkLeader, .post c (.checkQueue id .epoch)]

def added (c : ℕ) : List DashboardEvent :=
  [.jobs (.service (.call c .send)), .jobs (.service (.handleMessage 1)),
    .jobs (.service (.call c .receive)), .jobs (.service (.call c .addJob))]

def postAdded (c : ℕ) : List DashboardEvent :=
  [.post c .send, .jobs (.service (.handleMessage 1)), .post c .receive, .post c .addJob]

instance (dc : DashboardCluster) : (ev : DashboardEvent) → Decidable (dc.HasRoom ev) := fun ev => by
  unfold HasRoom
  split <;> infer_instance

end DashboardCluster
end NomadLite
