import Mathlib.Data.List.Infix
import NomadLite.JobListing
import NomadLite.ServiceSteps

/-!
# Calls that are refused

A client that is told "Not the leader" asks again elsewhere. The text of an error is all
it goes by, so what matters is that no call that has handed its command to the raft loop
answers with these words. `Serves` ties a call to the request it was made for and says
what it may have proposed at each of its stages.
-/

namespace NomadLite

/-! ### Requests -/

inductive CliRequest where
  | submit (req : SubmitJobRequest)
  | cancel (req : CancelJobRequest)
deriving DecidableEq

namespace CliRequest

def event (x : ℕ) : CliRequest → ServiceEvent
  | .submit req => .submitJob x req
  | .cancel req => .cancelJob x req

def failed : CliRequest → String
  | .submit _ => "Error: Job submission failed"
  | .cancel _ => "Error: Cancel failed"

def usage : CliRequest → String
  | .submit _ => "  nomad-lite -a http://<leader-ip>:<port> job submit ..."
  | .cancel _ => "  nomad-lite -a http://<leader-ip>:<port> job cancel ..."

end CliRequest

namespace Service

def result (svc : Service) (c : ℕ) : Option (Except Status Reply) :=
  match svc.calls[c]?.map ClientCall.stage with
  | some (.returned outcome) => some outcome.result
  | _ => none

def proposedBy (svc : Service) (c : ℕ) : Option Command := svc.calls[c]?.bind ClientCall.proposed

end Service

/-! ### What the texts say -/

theorem containsStr_of_not_mem {s pattern : String} {c : Char} (hpattern : c ∈ pattern.toList)
    (hs : c ∉ s.toList) : containsStr s pattern = false := by
  rw [containsStr, List.any_eq_false]
  intro rest hrest hfront
  obtain ⟨tail, rfl⟩ := List.isPrefixOf_iff_prefix.mp hfront
  have hsuffix := (List.mem_tails _ _).mp hrest
  exact hs (hsuffix.subset (List.mem_append_left _ hpattern))

theorem h_not_mem_debugOption (leaderId : Option ℕ) : 'h' ∉ (debugOption leaderId).toList := by
  cases leaderId with
  | none => decide
  | some id =>
    have hdigits : 'h' ∉ (toString id).toList := by
      intro hmem
      rw [show toString id = id.repr from rfl, Nat.toList_repr] at hmem
      exact absurd (Nat.isDigit_of_mem_toDigits (by omega) (by omega) hmem) (by decide)
    simp only [debugOption, String.toList_append, List.mem_append, not_or]
    exact ⟨⟨by decide, hdigits⟩, by decide⟩

def notLeaderAnswer (leaderId : Option ℕ) : String :=
  "Not leader. Current leader: " ++ debugOption leaderId

/-- The raft loop does not use the words of the client service. -/
theorem h_not_mem_notLeaderAnswer (leaderId : Option ℕ) :
    'h' ∉ (notLeaderAnswer leaderId).toList := by
  have hfront : 'h' ∉ "Not leader. Current leader: ".toList := by decide +kernel
  have htext : (notLeaderAnswer leaderId).toList =
      "Not leader. Current leader: ".toList ++ (debugOption leaderId).toList :=
    String.toList_append
  rw [htext]
  exact fun hmem => (List.mem_append.mp hmem).elim hfront (h_not_mem_debugOption leaderId)

/-! ### Calls -/

def CliRequest.Asks (lib : WireLib) (req : ClientRequest) : CliRequest → Prop
  | .submit r => req = .submit r.command r.image
  | .cancel r => ∃ jobId, lib.parseStr r.jobId = some jobId ∧ req = .cancel jobId

def CliRequest.Carries (lib : WireLib) (command : Command) : CliRequest → Prop
  | .submit r => ∃ jobId createdAt,
      command = .submitJob jobId r.command createdAt (r.image.filter (· ≠ ""))
  | .cancel r => ∃ jobId, lib.parseStr r.jobId = some jobId ∧ command = .cancelJob jobId

def Stage.Fits (lib : WireLib) (request : CliRequest) (proposed : Option Command) : Stage → Prop
  | .checkingLeader req | .checkingQueue req => request.Asks lib req ∧ proposed = none
  | .namingLeader => proposed = none
  | .sending p => request.Carries lib p.command ∧ proposed = none
  | .waiting p => proposed = some p.command
  | .adding _ => proposed ≠ none
  | .returned outcome =>
    match outcome.result with
    | .ok _ => proposed ≠ none
    | .error status => containsStr status.message "Not the leader" = true → proposed = none

structure ClientCall.Serves (lib : WireLib) (request : CliRequest) (call : ClientCall) : Prop where
  answer : ∀ e, call.answer = some (.error e) → ∃ leaderId, e = notLeaderAnswer leaderId
  carries : ∀ command, call.proposed = some command → request.Carries lib command
  fits : call.stage.Fits lib request call.proposed

namespace ClientCall.Serves

variable {lib : WireLib} {request : CliRequest} {c : ℕ} {host host' : Host} {nd : RaftNode}
  {call call' : ClientCall} {ev : CallEvent}

theorem observe (h : call.Serves lib request) (cl : Cluster) (a : Action) :
    (call.observe lib cl a).Serves lib request where
  answer e he := by
    refine h.answer e (he ▸ ?_)
    unfold ClientCall.observe
    split
    · split_ifs <;> rfl
    · rfl
  carries := observe_proposed lib cl a call ▸ h.carries
  fits := observe_proposed lib cl a call ▸ observe_stage lib cl a call ▸ h.fits

theorem reply (h : call.Serves lib request) {answer : LoopAnswer}
    (hanswer : ∀ e, answer = .error e → ∃ leaderId, e = notLeaderAnswer leaderId) :
    (call.reply answer).Serves lib request where
  answer e he := by
    cases hold : call.answer with
    | none =>
      simp only [ClientCall.reply, hold] at he
      exact hanswer e (Option.some.inj he)
    | some a =>
      simp only [ClientCall.reply, hold] at he
      exact h.answer e (hold.trans he)
  carries := h.carries
  fits := h.fits

theorem moveTo (h : call.Serves lib request) {stage : Stage}
    (hfits : stage.Fits lib request call.proposed) :
    ClientCall.Serves lib request { call with stage := stage } :=
  ⟨h.answer, h.carries, hfits⟩

theorem fail_open (h : call.Serves lib request) (hopen : call.proposed = none) (status : Status) :
    (call.finish nd (.error status)).Serves lib request :=
  h.moveTo fun _ => hopen

theorem fail (h : call.Serves lib request) {status : Status}
    (hstatus : containsStr status.message "Not the leader" = false) :
    (call.finish nd (.error status)).Serves lib request := by
  refine h.moveTo fun hcontains => ?_
  rw [hstatus] at hcontains
  cases hcontains

theorem advance (h : call.Serves lib request) (hopen : call.proposed = none) {α : Type}
    {check : Except Status α} {next : α → Stage}
    (hnext : ∀ a, check = .ok a → (next a).Fits lib request none) :
    (call.advance nd check next).Serves lib request := by
  cases check with
  | ok a => exact h.moveTo (hopen ▸ hnext a rfl)
  | error status => exact h.fail_open hopen status

theorem carries_checkSubmit {command : String} {image : Option String} {jobId : Uuid}
    {now : DateTime} {p : Proposal} (hasks : request.Asks lib (.submit command image))
    (hcheck : host.checkSubmit command image jobId now = .ok p) :
    request.Carries lib p.command := by
  rw [Host.checkSubmit] at hcheck
  split_ifs at hcheck
  obtain rfl := Except.ok.inj hcheck
  cases request with
  | submit r =>
    obtain ⟨rfl, rfl⟩ := ClientRequest.submit.inj hasks
    exact ⟨jobId, now, rfl⟩
  | cancel r =>
    obtain ⟨_, -, heq⟩ := hasks
    cases heq

theorem carries_checkCancel {jobId : Uuid} {p : Proposal}
    (hasks : request.Asks lib (.cancel jobId)) (hcheck : host.checkCancel jobId = .ok p) :
    request.Carries lib p.command := by
  have hp : p = .cancel jobId := by
    rw [Host.checkCancel] at hcheck
    split at hcheck
    · cases hcheck
    · split_ifs at hcheck
      exact (Except.ok.inj hcheck).symm
  subst hp
  cases request with
  | submit r => cases hasks
  | cancel r =>
    obtain ⟨jobId', hparse, heq⟩ := hasks
    exact ⟨jobId', hparse, congrArg Command.cancelJob (ClientRequest.cancel.inj heq)⟩

theorem containsStr_lateAnswers : ∀ message ∈ ["Raft did not commit the entry in time",
    "timed out waiting for Raft commit", "Raft loop is not running", "Job queue is at capacity"],
    containsStr message "Not the leader" = false := by
  have hN : ∀ message ∈ ["Raft did not commit the entry in time",
      "timed out waiting for Raft commit", "Raft loop is not running", "Job queue is at capacity"],
      'N' ∉ message.toList := by decide +kernel
  exact fun message hmem => containsStr_of_not_mem (by decide) (hN message hmem)

theorem containsStr_timedOut (p : Proposal) :
    containsStr (timedOut p).message "Not the leader" = false := by
  refine containsStr_lateAnswers _ ?_
  cases p with
  | submit job => exact .head _
  | cancel jobId => exact .tail _ (.head _)

theorem containsStr_dropped (p : Proposal) :
    containsStr (dropped p).message "Not the leader" = false := by
  refine containsStr_lateAnswers _ ?_
  cases p with
  | submit job => exact .tail _ (.tail _ (.head _))
  | cancel jobId => exact .tail _ (.head _)

theorem containsStr_raftError (leaderId : Option ℕ) :
    containsStr ("Raft error: " ++ notLeaderAnswer leaderId) "Not the leader" = false := by
  refine containsStr_of_not_mem (c := 'h') (by decide) ?_
  have hfront : 'h' ∉ "Raft error: ".toList := by decide +kernel
  rw [String.toList_append]
  exact fun hmem => (List.mem_append.mp hmem).elim hfront (h_not_mem_notLeaderAnswer leaderId)

theorem receive (h : call.Serves lib request) {p : Proposal} (hstage : call.stage = .waiting p)
    {answer : LoopAnswer} (hanswer : call.answer = some answer) :
    (call.receive lib nd p answer).Serves lib request := by
  have hproposed : call.proposed = some p.command := by
    have hfits := h.fits
    rwa [hstage] at hfits
  have hne : call.proposed ≠ none := fun hnone => by
    rw [hproposed] at hnone
    cases hnone
  cases answer with
  | ok e =>
    cases p with
    | submit job => exact h.moveTo hne
    | cancel jobId => exact h.moveTo hne
  | error e =>
    obtain ⟨leaderId, rfl⟩ := h.answer e hanswer
    cases p with
    | submit job => exact h.fail (containsStr_raftError leaderId)
    | cancel jobId =>
      exact h.fail (containsStr_of_not_mem (by decide) (h_not_mem_notLeaderAnswer leaderId))

/-- The words are used while nothing has been proposed, and in no later answer. -/
theorem step (h : call.Serves lib request)
    (hstep : call.step lib c host nd ev = some (host', call')) : call'.Serves lib request := by
  have hfits := h.fits
  unfold ClientCall.step at hstep
  split at hstep
  · next req hstage =>
    obtain ⟨rfl, rfl⟩ := Prod.mk.inj (Option.some.inj hstep)
    rw [hstage] at hfits
    refine h.moveTo ?_
    split_ifs
    · exact hfits
    · exact hfits.2
  · next hstage =>
    obtain ⟨rfl, rfl⟩ := Prod.mk.inj (Option.some.inj hstep)
    rw [hstage] at hfits
    exact h.fail_open hfits _
  · next hstage =>
    obtain ⟨rfl, rfl⟩ := Prod.mk.inj (Option.some.inj hstep)
    rw [hstage] at hfits
    exact h.advance hfits.2 fun p hcheck => ⟨carries_checkSubmit hfits.1 hcheck, rfl⟩
  · next hstage =>
    obtain ⟨rfl, rfl⟩ := Prod.mk.inj (Option.some.inj hstep)
    rw [hstage] at hfits
    exact h.advance hfits.2 fun p hcheck => ⟨carries_checkCancel hfits.1 hcheck, rfl⟩
  · next p hstage =>
    rw [hstage] at hfits
    split at hstep
    · obtain ⟨rfl, rfl⟩ := Prod.mk.inj (Option.some.inj hstep)
      exact ⟨h.answer, fun command heq => Option.some.inj heq ▸ hfits.1, rfl⟩
    · obtain ⟨rfl, rfl⟩ := Prod.mk.inj (Option.some.inj hstep)
      exact h.fail_open hfits.2 _
  · next p hstage =>
    obtain ⟨answer, hanswer, heq⟩ := Option.map_eq_some_iff.mp hstep
    obtain ⟨rfl, rfl⟩ := Prod.mk.inj heq
    exact h.receive hstage hanswer
  · next p hstage =>
    split_ifs at hstep
    obtain ⟨rfl, rfl⟩ := Prod.mk.inj (Option.some.inj hstep)
    exact h.fail (containsStr_timedOut p)
  · next p hstage =>
    split_ifs at hstep
    obtain ⟨rfl, rfl⟩ := Prod.mk.inj (Option.some.inj hstep)
    exact h.fail (containsStr_dropped p)
  · next job hstage =>
    obtain ⟨rfl, rfl⟩ := Prod.mk.inj (Option.some.inj hstep)
    rw [hstage] at hfits
    split_ifs
    · exact h.moveTo hfits
    · exact h.fail (containsStr_lateAnswers _ (.tail _ (.tail _ (.tail _ (.head _)))))
  · cases hstep

theorem start (lib : WireLib) (request : CliRequest) (x : ℕ) (nd : RaftNode)
    {check : Except Status ClientRequest} (hasks : ∀ r, check = .ok r → request.Asks lib r) :
    (ClientCall.start x nd check).Serves lib request := by
  have hnew : ClientCall.Serves lib request ⟨x, .namingLeader, none, none, [], false⟩ :=
    ⟨fun e he => (by cases he), fun command hc => (by cases hc), rfl⟩
  exact hnew.advance rfl fun r hr => ⟨hasks r hr, rfl⟩

end ClientCall.Serves

namespace Service

variable {lib : WireLib} {ids : List ℕ} {svc svc' : Service} {ev : ServiceEvent}

/-- The raft loop answers a call with its new entry or in its own words. -/
theorem calls_of_handleMessage {x : ℕ} (h : svc.handleMessage lib ids x = some svc') :
    svc'.calls = svc.calls ∨ ∃ c answer, svc'.calls = svc.calls.modify c (ClientCall.reply answer) ∧
      ∀ e, answer = .error e → ∃ leaderId, e = notLeaderAnswer leaderId := by
  unfold handleMessage at h
  dsimp only at h
  split at h
  · cases h
  · obtain rfl := Option.some.inj h
    exact .inl rfl
  · next command caller rest hmailbox =>
    split_ifs at h
    · obtain ⟨cl, hcl, rfl⟩ := Option.map_eq_some_iff.mp h
      cases caller with
      | none => exact .inl rfl
      | some c => exact .inr ⟨c, _, rfl, fun e he => by cases he⟩
    · obtain rfl := Option.some.inj h
      cases caller with
      | none => exact .inl rfl
      | some c => exact .inr ⟨c, _, rfl, fun e he => ⟨_, (Except.error.inj he).symm⟩⟩

/-- A call keeps its number, and what every way to change it preserves. -/
theorem call_of_step {P : ClientCall → Prop} (h : svc.step lib ids ev = some svc') {c : ℕ}
    {call : ClientCall} (hcall : svc.calls[c]? = some call) (hP : P call)
    (hobserve : ∀ cl a, P call → P (call.observe lib cl a))
    (hreply : ∀ answer, (∀ e, answer = .error e → ∃ leaderId, e = notLeaderAnswer leaderId) →
      P call → P (call.reply answer))
    (hstep : ∀ {cev host nd host' call'}, call.step lib c host nd cev = some (host', call') →
      P call → P call') :
    ∃ call', svc'.calls[c]? = some call' ∧ P call' := by
  obtain ⟨hlt, -⟩ := List.getElem?_eq_some_iff.mp hcall
  cases stepped_of_step h with
  | @raft a cl hcl =>
    refine ⟨call.observe lib svc.cluster a, ?_, hobserve svc.cluster a hP⟩
    exact (List.getElem?_map ..).trans (congrArg _ hcall)
  | handleMessage h =>
    rcases calls_of_handleMessage h with heq | ⟨c', answer, heq, hanswer⟩
    · exact ⟨call, heq ▸ hcall, hP⟩
    · rw [heq, List.getElem?_modify, hcall]
      refine ⟨_, rfl, ?_⟩
      split_ifs
      · exact hreply answer hanswer hP
      · exact hP
  | submitJob | cancelJob =>
    exact ⟨call, (List.getElem?_append_left hlt).trans hcall, hP⟩
  | @call c' cev call₀ call' host hcall₀ hmoved =>
    by_cases hc : c' = c
    · subst hc
      obtain rfl := Option.some.inj (hcall₀.symm.trans hcall)
      exact ⟨call', List.getElem?_set_self hlt, hstep hmoved hP⟩
    · exact ⟨call, (List.getElem?_set_ne hc).trans hcall, hP⟩
  | sendMessage | stopLoop | changeQueue | setDraining => exact ⟨call, hcall, hP⟩

def Serves (lib : WireLib) (svc : Service) (request : CliRequest) (c : ℕ) : Prop :=
  ∃ call, svc.calls[c]? = some call ∧ call.Serves lib request

def Returned (svc : Service) (c : ℕ) (result : Except Status Reply) (proposed : Option Command) :
    Prop :=
  ∃ call outcome, svc.calls[c]? = some call ∧ call.stage = .returned outcome ∧
    outcome.result = result ∧ call.proposed = proposed

theorem Serves.step {request : CliRequest} {c : ℕ} (h : svc.Serves lib request c)
    (hstep : svc.step lib ids ev = some svc') : svc'.Serves lib request c := by
  obtain ⟨call, hcall, hserves⟩ := h
  exact call_of_step hstep hcall hserves (fun cl a hs => hs.observe cl a)
    (fun answer hanswer hs => hs.reply hanswer) fun hmoved hs => hs.step hmoved

theorem Returned.step {c : ℕ} {result : Except Status Reply} {proposed : Option Command}
    (h : svc.Returned c result proposed) (hstep : svc.step lib ids ev = some svc') :
    svc'.Returned c result proposed := by
  obtain ⟨call, outcome, hcall, hstage, hresult, hproposed⟩ := h
  obtain ⟨call', hcall', hstage', hproposed'⟩ := call_of_step
    (P := fun call => call.stage = .returned outcome ∧ call.proposed = proposed) hstep hcall
    ⟨hstage, hproposed⟩
    (fun cl a hs => ⟨(ClientCall.observe_stage ..).trans hs.1,
      (ClientCall.observe_proposed ..).trans hs.2⟩)
    (fun answer _ hs => hs) fun hmoved hs => by
      simp only [ClientCall.step, hs.1] at hmoved
      cases hmoved
  exact ⟨call', outcome, hcall', hstage', hresult, hproposed'⟩

theorem Returned.proposedBy_eq {c : ℕ} {result : Except Status Reply} {proposed : Option Command}
    (h : svc.Returned c result proposed) : svc.proposedBy c = proposed := by
  obtain ⟨call, outcome, hcall, -, -, hproposed⟩ := h
  rw [proposedBy, hcall]
  exact hproposed

theorem Returned.result_eq {c : ℕ} {result : Except Status Reply} {proposed : Option Command}
    (h : svc.Returned c result proposed) : svc.result c = some result := by
  obtain ⟨call, outcome, hcall, hstage, hresult, -⟩ := h
  rw [Service.result, hcall, Option.map_some, hstage]
  exact congrArg some hresult

theorem returned_of_result {c : ℕ} {result : Except Status Reply}
    (h : svc.result c = some result) : svc.Returned c result (svc.proposedBy c) := by
  unfold Service.result at h
  split at h
  · next outcome hstage =>
    obtain ⟨call, hcall, hstage⟩ := Option.map_eq_some_iff.mp hstage
    refine ⟨call, outcome, hcall, hstage, Option.some.inj h, ?_⟩
    rw [proposedBy, hcall]
    rfl
  · cases h

theorem Serves.of_ok {request : CliRequest} {c : ℕ} {reply : Reply}
    (h : svc.Serves lib request c) (hresult : svc.result c = some (.ok reply)) :
    svc.proposedBy c ≠ none := by
  obtain ⟨call, outcome, hcall, hstage, hok, hproposed⟩ := returned_of_result hresult
  obtain ⟨call₀, hcall₀, hserves⟩ := h
  obtain rfl := Option.some.inj (hcall₀.symm.trans hcall)
  have hfits := hserves.fits
  rw [hstage, Stage.Fits, hok, hproposed] at hfits
  exact hfits

theorem Serves.of_error {request : CliRequest} {c : ℕ} {status : Status}
    (h : svc.Serves lib request c) (hresult : svc.result c = some (.error status))
    (hcontains : containsStr status.message "Not the leader" = true) :
    svc.Returned c (.error status) none := by
  obtain ⟨call, outcome, hcall, hstage, herror, hproposed⟩ := returned_of_result hresult
  obtain ⟨call₀, hcall₀, hserves⟩ := h
  obtain rfl := Option.some.inj (hcall₀.symm.trans hcall)
  have hfits := hserves.fits
  rw [hstage, Stage.Fits, herror] at hfits
  exact ⟨_, outcome, hcall, hstage, herror, hfits hcontains⟩

theorem serves_of_event {request : CliRequest} {x : ℕ}
    (h : svc.step lib ids (request.event x) = some svc') :
    svc'.Serves lib request svc.calls.length := by
  have hnew : ∀ {check : Except Status ClientRequest}, (∀ r, check = .ok r → request.Asks lib r) →
      (svc.addCall (.start x (svc.cluster.nodes x) check)).Serves lib request svc.calls.length :=
    fun hasks => ⟨_, List.getElem?_concat_length, .start lib request x _ hasks⟩
  cases request with
  | submit req =>
    obtain rfl := Option.some.inj h
    refine hnew fun r hr => ?_
    rw [Host.submitJob] at hr
    split_ifs at hr
    split at hr
    · cases hr
    · exact (Except.ok.inj hr).symm
  | cancel req =>
    obtain rfl := Option.some.inj h
    refine hnew fun r hr => ?_
    rw [parseCancel] at hr
    split at hr
    · cases hr
    · next jobId hparse => exact ⟨jobId, hparse, (Except.ok.inj hr).symm⟩

end Service

end NomadLite
