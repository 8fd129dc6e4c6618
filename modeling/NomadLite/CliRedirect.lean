import NomadLite.LeaderQueries
import NomadLite.RefusedCalls

/-!
# The redirect of the command line client

`job submit` and `job cancel` send their request to the address they are given. If the
text of the answer has "Not the leader" in it, they take the address of the leader from
the text, or ask the node for it, and send the request once more; the second answer is
final. `Sound` keeps the calls that a run has made, the first of them refused if there
are two.
-/

namespace NomadLite

/-! ### The client -/

structure ClientArgs where
  addr : String
  json : Bool
deriving DecidableEq

inductive CliExit where
  | rendered (reply : Reply)
  | exited
  | error
deriving DecidableEq

inductive CliStage where
  | calling (c : ℕ)
  | resolving (message : String)
  | connecting (url : String)
  | callingLeader (c : ℕ)
  | ended (exit : CliExit)
deriving DecidableEq

structure CliRun where
  args : ClientArgs
  request : CliRequest
  stage : CliStage
  calls : List ℕ
  stderr : List String
deriving DecidableEq

def stripPrefix (s front : String) : Option String :=
  if front.toList.isPrefixOf s.toList then some (String.ofList (s.toList.drop front.length))
  else none

def leaderAddrFromError (message : String) : Option String :=
  stripPrefix message "Not the leader. Try "

def findLeaderAddr (response : GetClusterStatusResponse) : Option String :=
  (response.nodes.find? fun node => node.nodeId = response.leaderId).map NodeInfo.address

def ClientArgs.scheme (args : ClientArgs) : String :=
  if "https://".toList.isPrefixOf args.addr.toList then "https://" else "http://"

inductive CliEvent where
  | response
  | transportError (status : Status)
  | clusterStatus (result : Except Status GetClusterStatusResponse)
  | connect
  | connectFailed

namespace CliRun

def print (run : CliRun) (lines : List String) : CliRun :=
  { run with stderr := run.stderr ++ lines }

def finish (run : CliRun) (exit : CliExit) : CliRun := { run with stage := .ended exit }

/-- A cancellation that did not succeed is an error, unless the reply is printed as it is. -/
def render (run : CliRun) : Reply → CliRun
  | .cancelJob false message =>
    if run.args.json then run.finish (.rendered (.cancelJob false message))
    else (run.print ["Cancel failed: " ++ message]).finish .exited
  | reply => run.finish (.rendered reply)

def redirect (run : CliRun) (addr : String) : CliRun :=
  let url := run.args.scheme ++ addr
  { run.print ["Redirecting to leader at " ++ url ++ "..."] with stage := .connecting url }

def receive (run : CliRun) : Except Status Reply → CliRun
  | .ok reply => run.render reply
  | .error status =>
    if containsStr status.message "Not the leader" then
      match leaderAddrFromError status.message with
      | some addr => run.redirect addr
      | none => { run with stage := .resolving status.message }
    else (run.print [run.request.failed ++ ": " ++ status.message]).finish .exited

def unresolved (run : CliRun) (message : String) : CliRun :=
  (run.print ["Error: " ++ message, "Hint: Use -a to specify the leader's address, e.g.:",
    run.request.usage]).finish .exited

def resolve (run : CliRun) (message : String) :
    Except Status GetClusterStatusResponse → CliRun
  | .ok response => ((findLeaderAddr response).map run.redirect).getD (run.unresolved message)
  | .error _ => run.unresolved message

def receiveAgain (run : CliRun) : Except Status Reply → CliRun
  | .ok reply => run.render reply
  | .error status =>
    (run.print [run.request.failed ++ " after redirect: " ++ status.message]).finish .exited

end CliRun

/-- One piece of the client; `route` says which node listens at an address. An answer that is lost
on its way comes as a status of the transport, which says nothing of leaders. -/
def CliRun.step (lib : WireLib) (ids : List ℕ) (route : String → Option ℕ) (svc : Service)
    (run : CliRun) (ev : CliEvent) : Option (Service × CliRun) :=
  match ev, run.stage with
  | .response, .calling c => (svc.result c).map fun result => (svc, run.receive result)
  | .transportError status, .calling _ =>
    if containsStr status.message "Not the leader" then none
    else some (svc, run.receive (.error status))
  | .clusterStatus result, .resolving message => some (svc, run.resolve message result)
  | .connect, .connecting url =>
    match route url with
    | some x => (svc.step lib ids (run.request.event x)).map fun svc' =>
        (svc', { run with
          stage := .callingLeader svc.calls.length
          calls := run.calls ++ [svc.calls.length] })
    | none => none
  | .connectFailed, .connecting _ => some (svc, run.finish .error)
  | .response, .callingLeader c => (svc.result c).map fun result => (svc, run.receiveAgain result)
  | .transportError status, .callingLeader _ => some (svc, run.receiveAgain (.error status))
  | _, _ => none

structure CliCluster where
  service : Service
  runs : List CliRun

inductive CliAction where
  | service (ev : ServiceEvent)
  | start (args : ClientArgs) (request : CliRequest)
  | client (k : ℕ) (ev : CliEvent)

namespace CliCluster

def start (ids : List ℕ) (peers : ℕ → List PeerConfig) : CliCluster := ⟨.start ids peers, []⟩

def step (lib : WireLib) (ids : List ℕ) (route : String → Option ℕ) (cc : CliCluster) :
    CliAction → Option CliCluster
  | .service ev => (cc.service.step lib ids ev).map fun svc => { cc with service := svc }
  | .start args request =>
    match route args.addr with
    | some x => (cc.service.step lib ids (request.event x)).map fun svc =>
        let c := cc.service.calls.length
        ⟨svc, cc.runs ++ [⟨args, request, .calling c, [c], []⟩]⟩
    | none => none
  | .client k ev =>
    match cc.runs[k]? with
    | some run => (run.step lib ids route cc.service ev).map fun (svc, run') =>
        ⟨svc, cc.runs.set k run'⟩
    | none => none

end CliCluster

/-! ### Runs of the client -/

def CliStage.Fits (svc : Service) (calls : List ℕ) : CliStage → Prop
  | .calling c => calls = [c]
  | .resolving _ | .connecting _ => ∃ c status, calls = [c] ∧ svc.Returned c (.error status) none
  | .callingLeader c' => ∃ c status, calls = [c, c'] ∧ svc.Returned c (.error status) none
  | .ended exit =>
    ((∃ c, calls = [c]) ∨ ∃ c c' status, calls = [c, c'] ∧ svc.Returned c (.error status) none) ∧
      ∀ reply, exit = .rendered reply →
        ∃ c ∈ calls, ∃ proposed, svc.Returned c (.ok reply) proposed

structure CliRun.Sound (lib : WireLib) (svc : Service) (run : CliRun) : Prop where
  calls : ∀ c ∈ run.calls, svc.Serves lib run.request c
  fits : run.stage.Fits svc run.calls

namespace CliRun.Sound

variable {lib : WireLib} {ids : List ℕ} {route : String → Option ℕ} {svc svc' : Service}
  {ev : ServiceEvent} {run : CliRun}

theorem service (h : run.Sound lib svc) (hstep : svc.step lib ids ev = some svc') :
    run.Sound lib svc' := by
  refine ⟨fun c hc => (h.calls c hc).step hstep, ?_⟩
  have hfits := h.fits
  cases hstage : run.stage with
  | calling c => rwa [hstage] at hfits
  | resolving message | connecting url | callingLeader c' =>
    rw [hstage] at hfits
    obtain ⟨c, status, hcalls, hrefused⟩ := hfits
    exact ⟨c, status, hcalls, hrefused.step hstep⟩
  | ended exit =>
    rw [hstage] at hfits
    refine ⟨hfits.1.imp_right ?_, fun reply hexit => ?_⟩
    · rintro ⟨c, c', status, hcalls, hrefused⟩
      exact ⟨c, c', status, hcalls, hrefused.step hstep⟩
    · obtain ⟨c, hc, proposed, hreturned⟩ := hfits.2 reply hexit
      exact ⟨c, hc, proposed, hreturned.step hstep⟩

theorem finish (h : run.Sound lib svc) (hcalls : (∃ c, run.calls = [c]) ∨
      ∃ c c' status, run.calls = [c, c'] ∧ svc.Returned c (.error status) none)
    (lines : List String) {exit : CliExit} (hexit : exit = .exited ∨ exit = .error) :
    ((run.print lines).finish exit).Sound lib svc := by
  refine ⟨h.calls, hcalls, fun reply heq => ?_⟩
  rcases hexit with rfl | rfl
  · cases heq
  · cases heq

theorem render (h : run.Sound lib svc) (hcalls : (∃ c, run.calls = [c]) ∨
      ∃ c c' status, run.calls = [c, c'] ∧ svc.Returned c (.error status) none)
    {c : ℕ} (hc : c ∈ run.calls) {reply : Reply} (hresult : svc.result c = some (.ok reply)) :
    (run.render reply).Sound lib svc := by
  have hrendered : (run.finish (.rendered reply)).Sound lib svc := by
    refine ⟨h.calls, hcalls, fun reply' heq => ?_⟩
    obtain rfl := CliExit.rendered.inj heq
    exact ⟨c, hc, _, Service.returned_of_result hresult⟩
  unfold CliRun.render
  split
  · split_ifs
    · exact hrendered
    · exact h.finish hcalls _ (.inl rfl)
  · exact hrendered

theorem redirect (h : run.Sound lib svc) {c : ℕ} {status : Status} (hcalls : run.calls = [c])
    (hrefused : svc.Returned c (.error status) none) (addr : String) :
    (run.redirect addr).Sound lib svc :=
  ⟨h.calls, c, status, hcalls, hrefused⟩

theorem receive (h : run.Sound lib svc) {c : ℕ} (hcalls : run.calls = [c])
    {result : Except Status Reply} (hresult : svc.result c = some result) :
    (run.receive result).Sound lib svc := by
  have hc : c ∈ run.calls := hcalls ▸ List.mem_singleton_self c
  cases result with
  | ok reply => exact h.render (.inl ⟨c, hcalls⟩) hc hresult
  | error status =>
    rw [CliRun.receive]
    split_ifs with hcontains
    · have hrefused := (h.calls c hc).of_error hresult hcontains
      split
      · exact h.redirect hcalls hrefused _
      · exact ⟨h.calls, c, status, hcalls, hrefused⟩
    · exact h.finish (.inl ⟨c, hcalls⟩) _ (.inl rfl)

theorem resolve (h : run.Sound lib svc) {c : ℕ} {status : Status} (hcalls : run.calls = [c])
    (hrefused : svc.Returned c (.error status) none) (message : String)
    (result : Except Status GetClusterStatusResponse) :
    (run.resolve message result).Sound lib svc := by
  have hunresolved : (run.unresolved message).Sound lib svc :=
    h.finish (.inl ⟨c, hcalls⟩) _ (.inl rfl)
  cases result with
  | error e => exact hunresolved
  | ok response =>
    rw [CliRun.resolve]
    cases findLeaderAddr response with
    | none => exact hunresolved
    | some addr => exact h.redirect hcalls hrefused addr

theorem receiveAgain (h : run.Sound lib svc) {c c' : ℕ} {status : Status}
    (hcalls : run.calls = [c, c']) (hrefused : svc.Returned c (.error status) none)
    {result : Except Status Reply} (hresult : svc.result c' = some result) :
    (run.receiveAgain result).Sound lib svc := by
  cases result with
  | ok reply =>
    exact h.render (.inr ⟨c, c', status, hcalls, hrefused⟩) (hcalls ▸ .tail _ (.head _)) hresult
  | error status' => exact h.finish (.inr ⟨c, c', status, hcalls, hrefused⟩) _ (.inl rfl)

theorem step (h : run.Sound lib svc) {cev : CliEvent} {run' : CliRun}
    (hstep : run.step lib ids route svc cev = some (svc', run')) :
    run'.Sound lib svc' ∧ (svc' = svc ∨ ∃ ev, svc.step lib ids ev = some svc') := by
  have hfits := h.fits
  unfold CliRun.step at hstep
  split at hstep
  · next c hstage =>
    obtain ⟨result, hresult, heq⟩ := Option.map_eq_some_iff.mp hstep
    obtain ⟨rfl, rfl⟩ := Prod.mk.inj heq
    rw [hstage] at hfits
    exact ⟨h.receive hfits hresult, .inl rfl⟩
  · next status c hstage =>
    split_ifs at hstep with hcontains
    obtain ⟨rfl, rfl⟩ := Prod.mk.inj (Option.some.inj hstep)
    rw [hstage] at hfits
    refine ⟨?_, .inl rfl⟩
    rw [CliRun.receive, if_neg hcontains]
    exact h.finish (.inl ⟨c, hfits⟩) _ (.inl rfl)
  · next result message hstage =>
    obtain ⟨rfl, rfl⟩ := Prod.mk.inj (Option.some.inj hstep)
    rw [hstage] at hfits
    obtain ⟨c, status, hcalls, hrefused⟩ := hfits
    exact ⟨h.resolve hcalls hrefused message result, .inl rfl⟩
  · next url hstage =>
    split at hstep
    · next x hroute =>
      obtain ⟨svc₁, hsvc, heq⟩ := Option.map_eq_some_iff.mp hstep
      obtain ⟨rfl, rfl⟩ := Prod.mk.inj heq
      rw [hstage] at hfits
      obtain ⟨c, status, hcalls, hrefused⟩ := hfits
      refine ⟨⟨fun c' hc' => ?_, c, status, ?_, hrefused.step hsvc⟩, .inr ⟨_, hsvc⟩⟩
      · rcases List.mem_append.mp hc' with hold | hnew
        · exact (h.calls c' hold).step hsvc
        · exact List.mem_singleton.mp hnew ▸ Service.serves_of_event hsvc
      · rw [hcalls]
        rfl
    · cases hstep
  · next url hstage =>
    obtain ⟨rfl, rfl⟩ := Prod.mk.inj (Option.some.inj hstep)
    rw [hstage] at hfits
    obtain ⟨c, status, hcalls, hrefused⟩ := hfits
    refine ⟨⟨h.calls, .inl ⟨c, hcalls⟩, fun reply heq => ?_⟩, .inl rfl⟩
    cases heq
  · next c' hstage =>
    obtain ⟨result, hresult, heq⟩ := Option.map_eq_some_iff.mp hstep
    obtain ⟨rfl, rfl⟩ := Prod.mk.inj heq
    rw [hstage] at hfits
    obtain ⟨c, status, hcalls, hrefused⟩ := hfits
    exact ⟨h.receiveAgain hcalls hrefused hresult, .inl rfl⟩
  · next status' c' hstage =>
    obtain ⟨rfl, rfl⟩ := Prod.mk.inj (Option.some.inj hstep)
    rw [hstage] at hfits
    obtain ⟨c, status, hcalls, hrefused⟩ := hfits
    exact ⟨h.finish (.inr ⟨c, c', status, hcalls, hrefused⟩) _ (.inl rfl), .inl rfl⟩
  · cases hstep

/-- Two calls at most, and the first of two has proposed nothing. -/
theorem calls_cases (h : run.Sound lib svc) : (∃ c, run.calls = [c]) ∨
    ∃ c c' status, run.calls = [c, c'] ∧ svc.Returned c (.error status) none := by
  have hfits := h.fits
  cases hstage : run.stage with
  | calling c => exact .inl ⟨c, by rwa [hstage] at hfits⟩
  | resolving message | connecting url =>
    rw [hstage] at hfits
    obtain ⟨c, status, hcalls, -⟩ := hfits
    exact .inl ⟨c, hcalls⟩
  | callingLeader c' =>
    rw [hstage] at hfits
    obtain ⟨c, status, hcalls, hrefused⟩ := hfits
    exact .inr ⟨c, c', status, hcalls, hrefused⟩
  | ended exit =>
    rw [hstage] at hfits
    exact hfits.1

theorem proposals_le_one (h : run.Sound lib svc) :
    (run.calls.filter fun c => (svc.proposedBy c).isSome).length ≤ 1 := by
  rcases h.calls_cases with ⟨c, hcalls⟩ | ⟨c, c', status, hcalls, hrefused⟩
  · rw [hcalls]
    exact List.length_filter_le ..
  · rw [hcalls, List.filter_cons_of_neg (by rw [hrefused.proposedBy_eq]; exact Bool.false_ne_true)]
    exact List.length_filter_le ..

end CliRun.Sound

namespace CliCluster

variable {lib : WireLib} {ids : List ℕ} {route : String → Option ℕ} {cc cc' : CliCluster}
  {a : CliAction}

def Sound (lib : WireLib) (cc : CliCluster) : Prop := ∀ run ∈ cc.runs, run.Sound lib cc.service

theorem Sound.step (h : cc.Sound lib) (hstep : cc.step lib ids route a = some cc') :
    cc'.Sound lib := by
  cases a with
  | service ev =>
    obtain ⟨svc, hsvc, rfl⟩ := Option.map_eq_some_iff.mp hstep
    exact fun run hrun => (h run hrun).service hsvc
  | start args request =>
    rw [CliCluster.step] at hstep
    split at hstep
    · next x hroute =>
      obtain ⟨svc, hsvc, rfl⟩ := Option.map_eq_some_iff.mp hstep
      intro run hrun
      rcases List.mem_append.mp hrun with hold | hnew
      · exact (h run hold).service hsvc
      · obtain rfl := List.mem_singleton.mp hnew
        refine ⟨fun c hc => ?_, rfl⟩
        obtain rfl := List.mem_singleton.mp hc
        exact Service.serves_of_event hsvc
    · cases hstep
  | client k cev =>
    rw [CliCluster.step] at hstep
    split at hstep
    · next run hk =>
      obtain ⟨⟨svc, run'⟩, hrun, rfl⟩ := Option.map_eq_some_iff.mp hstep
      obtain ⟨hsound, hsvc⟩ := (h run (List.mem_of_getElem? hk)).step hrun
      intro run₁ hrun₁
      rcases List.mem_or_eq_of_mem_set hrun₁ with hold | rfl
      · rcases hsvc with rfl | ⟨ev, hsvc⟩
        · exact h run₁ hold
        · exact (h run₁ hold).service hsvc
      · exact hsound
    · cases hstep

/-- A run of the client makes at most two calls of `submit_job` or `cancel_job`. One of them at most
hands a command to the raft loop, the command does what was asked for, and if the run reports
success it is that call which has returned it. -/
theorem one_proposal_per_invocation (lib : WireLib) (ids : List ℕ) (route : String → Option ℕ)
    (peers : ℕ → List PeerConfig) {cc : CliCluster}
    (h : Runs.Reach (step lib ids route) (fun _ _ => True) (start ids peers) cc) {run : CliRun}
    (hrun : run ∈ cc.runs) :
    run.calls.length ≤ 2 ∧
      (run.calls.filter fun c => (cc.service.proposedBy c).isSome).length ≤ 1 ∧
      (∀ c ∈ run.calls, ∀ command, cc.service.proposedBy c = some command →
        run.request.Carries lib command) ∧
      ∀ reply, run.stage = .ended (.rendered reply) → ∃ c ∈ run.calls, ∃ command,
        cc.service.result c = some (.ok reply) ∧ cc.service.proposedBy c = some command := by
  have hsound : cc.Sound lib := h.invariant (fun _ hmem => absurd hmem List.not_mem_nil)
    fun hs _ hstep => hs.step hstep
  have hrun := hsound run hrun
  refine ⟨?_, hrun.proposals_le_one, fun c hc command hproposed => ?_, fun reply hstage => ?_⟩
  · rcases hrun.calls_cases with ⟨c, hcalls⟩ | ⟨c, c', status, hcalls, -⟩
    · rw [hcalls]
      exact Nat.le_succ 1
    · exact hcalls ▸ le_rfl
  · obtain ⟨call, hcall, hserves⟩ := hrun.calls c hc
    rw [Service.proposedBy, hcall] at hproposed
    exact hserves.carries command hproposed
  · have hfits := hrun.fits
    rw [hstage] at hfits
    obtain ⟨c, hc, proposed, hreturned⟩ := hfits.2 reply rfl
    have hne := (hrun.calls c hc).of_ok hreturned.result_eq
    obtain ⟨command, hcommand⟩ := Option.ne_none_iff_exists'.mp hne
    exact ⟨c, hc, command, hreturned.result_eq, hcommand⟩

def twoAddresses : List PeerConfig := [⟨1, "n1"⟩, ⟨2, "n2"⟩]

def routeTwo (url : String) : Option ℕ :=
  (twoAddresses.find? fun p => url = "http://" ++ p.addr).map PeerConfig.nodeId

def firstLeader : List Action :=
  Cluster.electedBy 1 2 1 0 0 ++ [⟨1, .heartbeatTick⟩,
    ⟨2, .deliver 0 1 (.appendEntries .heartbeat ⟨1, 1, 0, 0, [], 0⟩)⟩]

def redirectedSubmission : List CliAction :=
  firstLeader.map (fun a => .service (.raft a)) ++
    [.start ⟨"http://n2", false⟩ (.submit ⟨"true", none⟩), .service (.call 0 .checkLeader),
      .service (.call 0 .notLeaderStatus), .client 0 .response, .client 0 .connect,
      .service (.call 1 .checkLeader), .service (.call 1 (.checkQueue 7 .epoch)),
      .service (.call 1 .send), .service (.handleMessage 1), .service (.call 1 .receive),
      .service (.call 1 .addJob), .client 0 .response]

theorem redirected_submission_proposed_once : ∃ cc run,
    Runs.Reach (step .standard [1, 2] routeTwo) (fun _ _ => True)
      (start [1, 2] fun _ => twoAddresses) cc ∧ run ∈ cc.runs ∧
    run.stage = .ended (.rendered (.submitJob (WireLib.standard.uuidToString 7) 0)) ∧
    run.calls = [0, 1] ∧
    (run.calls.filter fun c => (cc.service.proposedBy c).isSome).length ≤ 1 := by
  obtain ⟨cc, hreach, hruns⟩ := Runs.exists_reach_of_guardedRun (step .standard [1, 2] routeTwo)
    (fun _ _ => True) (fun cc => cc.runs.map (fun run => (run.stage, run.calls)) =
      [(.ended (.rendered (.submitJob (WireLib.standard.uuidToString 7) 0)), [0, 1])])
    (start [1, 2] fun _ => twoAddresses) redirectedSubmission (by decide +kernel)
  obtain ⟨run, hrun, heq⟩ := List.mem_map.mp (hruns ▸ List.mem_singleton_self _)
  obtain ⟨hstage, hcalls⟩ := Prod.mk.inj heq
  exact ⟨cc, run, hreach, hrun, hstage, hcalls,
    (one_proposal_per_invocation .standard [1, 2] routeTwo _ hreach hrun).2.1⟩

end CliCluster
end NomadLite
