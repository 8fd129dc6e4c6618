import NomadLite.CallCommits

/-!
# What a client is told is committed

A call that returns success names an entry whose index the commit index of its node
has reached, and which every later leader and every later commit has. The code does
not wait for the commit: the raft loop answers once the entry is in its own log, so
this only holds in runs where the answer comes late enough.
-/

namespace NomadLite

open ReplicatedLog

variable {lib : WireLib} {ids : List ℕ} {g g' : LogView} {e : LogEntry} {T : ℕ}

namespace Service

variable {svc svc' : Service}

def proposed (svc : Service) (c : ℕ) : Option Command := (svc.calls[c]?).bind ClientCall.proposed

def MailOk (svc : Service) : Prop :=
  ∀ x command c, RaftMessage.appendCommand command (some c) ∈ (svc.hosts x).mailbox →
    svc.proposed c = some command

structure Inv (lib : WireLib) (ids : List ℕ) (g : LogView) (svc : Service) : Prop where
  ballots : Cluster.HasBallots ids svc.cluster
  logs : Cluster.HasLogs lib True ids g svc.cluster
  calls : ∀ call ∈ svc.calls, CallOk lib ids g svc.cluster call
  mail : svc.MailOk

theorem inv_start (lib : WireLib) (ids : List ℕ) (peers : ℕ → List PeerConfig) :
    Inv lib ids .start (start ids peers) where
  ballots := Cluster.hasBallots_start ids
  logs := Cluster.hasLogs_start lib True ids
  calls _ hcall := absurd hcall List.not_mem_nil
  mail _ _ _ hmem := absurd hmem List.not_mem_nil

/-- Mail stays right when proposals stay and no mailbox gets new mail for a call. -/
theorem MailOk.mono (h : svc.MailOk)
    (hproposed : ∀ c command, svc.proposed c = some command → svc'.proposed c = some command)
    (hmail : ∀ x command c, RaftMessage.appendCommand command (some c) ∈ (svc'.hosts x).mailbox →
      .appendCommand command (some c) ∈ (svc.hosts x).mailbox ∨
        svc'.proposed c = some command) : svc'.MailOk := by
  intro x command c hmem
  rcases hmail x command c hmem with hold | hnew
  · exact hproposed c command (h x command c hold)
  · exact hnew

theorem mail_setHost {x : ℕ} {host : Host} (hhost : ∀ command c,
      RaftMessage.appendCommand command (some c) ∈ host.mailbox →
        .appendCommand command (some c) ∈ (svc.hosts x).mailbox) (y : ℕ) (command : Command) (c : ℕ)
    (hmem : .appendCommand command (some c) ∈ ((svc.setHost x host).hosts y).mailbox) :
    .appendCommand command (some c) ∈ (svc.hosts y).mailbox := by
  by_cases hy : y = x
  · subst hy
    simp only [setHost, Function.update_self] at hmem
    exact hhost command c hmem
  · simpa only [setHost, Function.update_of_ne hy] using hmem

theorem Inv.setHost (h : svc.Inv lib ids g) {x : ℕ} {host : Host} (hhost : ∀ command c,
      RaftMessage.appendCommand command (some c) ∈ host.mailbox →
        .appendCommand command (some c) ∈ (svc.hosts x).mailbox) :
    (svc.setHost x host).Inv lib ids g where
  ballots := h.ballots
  logs := h.logs
  calls := h.calls
  mail := h.mail.mono (fun _ _ hc => hc) fun y command c hmem =>
    .inl (mail_setHost hhost y command c hmem)

theorem Inv.addCall (h : svc.Inv lib ids g) {call : ClientCall}
    (hcall : CallOk lib ids g svc.cluster call) : (svc.addCall call).Inv lib ids g where
  ballots := h.ballots
  logs := h.logs
  calls call' hmem := by
    rcases List.mem_append.mp hmem with hold | hnew
    · exact h.calls call' hold
    · exact List.mem_singleton.mp hnew ▸ hcall
  mail := h.mail.mono (fun c command hc => by
    obtain ⟨call', hget, hp⟩ := Option.bind_eq_some_iff.mp hc
    exact Option.bind_eq_some_iff.mpr ⟨call', getElem?_of_isPrefix (List.prefix_append _ _) hget, hp⟩)
    fun _ _ _ hmem => .inl hmem

theorem Inv.answer (h : svc.Inv lib ids g) {caller : Option ℕ} {answer : LoopAnswer}
    (hanswer : ∀ c e, caller = some c → answer = .ok e → svc.proposed c = some e.command) :
    (svc.answer caller answer).Inv lib ids g := by
  cases caller with
  | none => exact h
  | some c =>
    have hget : ∀ c', (svc.calls.modify c (ClientCall.reply answer))[c']? =
        (svc.calls[c']?).map fun call => if c = c' then call.reply answer else call := fun c' => by
      rw [List.getElem?_modify]
      cases svc.calls[c']? <;> rfl
    refine ⟨h.ballots, h.logs, fun call hmem => ?_, h.mail.mono (fun c' command hc' => ?_)
      fun _ _ _ hmem => .inl hmem⟩
    · obtain ⟨c', hc'⟩ := List.mem_iff_getElem?.mp hmem
      obtain ⟨call₀, hcall₀, rfl⟩ := Option.map_eq_some_iff.mp ((hget c').symm.trans hc')
      have hok := h.calls call₀ (List.mem_of_getElem? hcall₀)
      split_ifs with hcc
      · subst hcc
        refine hok.reply fun e he => ?_
        have := hanswer c e rfl he
        rwa [proposed, hcall₀] at this
      · exact hok
    · obtain ⟨call₀, hcall₀, hp⟩ := Option.bind_eq_some_iff.mp hc'
      refine Option.bind_eq_some_iff.mpr ⟨_, (hget c').trans (by rw [hcall₀, Option.map_some]), ?_⟩
      split_ifs
      · exact hp
      · exact hp

theorem Inv.raft (h : svc.Inv lib ids g) (hids : ids.Nodup) {a : Action}
    (hballots : svc.cluster.KeepsBallots ids a) (hcond : svc.cluster.KeepsCommitted lib a)
    {cl : Cluster} (hs : svc.cluster.step lib ids a = some cl) :
    ∃ g', Inv lib ids g' { svc with
      cluster := cl, calls := svc.calls.map (ClientCall.observe lib svc.cluster a) } := by
  obtain ⟨-, hx, hpacket, -⟩ := Cluster.step_eq_some hs
  obtain ⟨eff, g', hstep, rfl, hsim, hg', hb'⟩ :=
    h.logs.step_of_keeps hids h.ballots hballots hcond hs
  refine ⟨g', hb', hg', fun call hmem => ?_, h.mail.mono (fun c command hc => ?_)
    fun _ _ _ hmem => .inl hmem⟩
  · obtain ⟨call₀, hcall₀, rfl⟩ := List.mem_map.mp hmem
    exact (h.calls call₀ hcall₀).observe hids h.logs hx hpacket hcond hsim hstep
  · obtain ⟨call₀, hcall₀, hp⟩ := Option.bind_eq_some_iff.mp hc
    refine Option.bind_eq_some_iff.mpr ⟨_, by rw [List.getElem?_map, hcall₀, Option.map_some], ?_⟩
    rw [ClientCall.observe_proposed, hp]

/-- A command is appended: the conditions on the cluster are met by themselves. -/
theorem Inv.appendCommand (h : svc.Inv lib ids g) (hids : ids.Nodup) {x : ℕ} {command : Command}
    {cl : Cluster} (hs : svc.cluster.step lib ids ⟨x, .appendCommand command⟩ = some cl) :
    ∃ g', Inv lib ids g' { svc with cluster := cl } := by
  obtain ⟨eff, g', hstep, rfl, hsim, hg', hb'⟩ :=
    h.logs.step_of_keeps hids h.ballots (a := ⟨x, .appendCommand command⟩) nofun
      ⟨nofun, trivial, trivial⟩ hs
  exact ⟨g', hb', hg', fun call hmem => (h.calls call hmem).apply h.logs hsim hstep nofun, h.mail⟩

theorem Inv.handleMessage (h : svc.Inv lib ids g) (hids : ids.Nodup) {x : ℕ}
    (hs : svc.handleMessage lib ids x = some svc') : ∃ g', svc'.Inv lib ids g' := by
  rw [Service.handleMessage] at hs
  cases hmail : (svc.hosts x).mailbox with
  | nil =>
    rw [hmail] at hs
    cases hs
  | cons message rest =>
    have hrest : (svc.setHost x { svc.hosts x with mailbox := rest }).Inv lib ids g :=
      h.setHost fun command c hmem => hmail ▸ List.mem_cons_of_mem _ hmem
    rw [hmail] at hs
    cases message with
    | transferLeadership targetId => exact ⟨g, Option.some.inj hs ▸ hrest⟩
    | appendCommand command caller =>
      have hproposed : ∀ c, caller = some c → svc.proposed c = some command := by
        rintro c rfl
        exact h.mail x command c (hmail ▸ List.mem_cons_self)
      dsimp only at hs
      split_ifs at hs with hrole
      · obtain ⟨cl, hcl, rfl⟩ := Option.map_eq_some_iff.mp hs
        obtain ⟨g', hg'⟩ := hrest.appendCommand hids hcl
        refine ⟨g', hg'.answer fun c e hc he => ?_⟩
        rw [← Except.ok.inj he]
        exact hproposed c hc
      · exact ⟨g, Option.some.inj hs ▸ hrest.answer fun _ _ _ he => nomatch he⟩

theorem Inv.call (h : svc.Inv lib ids g) {c : ℕ} {call call' : ClientCall} {host : Host}
    {ev : CallEvent} (hcall : svc.calls[c]? = some call)
    (hmoved : ClientCall.Moved lib c (svc.hosts call.node) (svc.cluster.nodes call.node) call ev
      host call')
    (hack : call.Acknowledges (svc.hosts call.node) ev → call.told = true) :
    Inv lib ids g { svc.setHost call.node host with calls := svc.calls.set c call' } := by
  have hok := h.calls call (List.mem_of_getElem? hcall)
  have hlt := (List.getElem?_eq_some_iff.mp hcall).1
  refine ⟨h.ballots, h.logs, fun call₀ hmem => ?_, h.mail.mono (fun c' command hc' => ?_)
    fun y command c' hmem => ?_⟩
  · rcases List.mem_or_eq_of_mem_set hmem with hold | rfl
    · exact h.calls call₀ hold
    · exact hok.moved hmoved hack
  · rw [proposed, List.getElem?_set]
    split_ifs with hcc
    · subst hcc
      rw [proposed, hcall, Option.bind_some] at hc'
      rw [Option.bind_some]
      cases hmoved with
      | @sent p hstage =>
        rw [hok.unsent (hstage ▸ trivial)] at hc'
        cases hc'
      | checked | failed | answered | cancelled | added => exact hc'
    · exact hc'
  · have hset : (svc.calls.set c call')[c]? = some call' := List.getElem?_set_self hlt
    have hsame : ∀ host' : Host, host'.mailbox = (svc.hosts call.node).mailbox →
        .appendCommand command (some c') ∈ ((svc.setHost call.node host').hosts y).mailbox →
        .appendCommand command (some c') ∈ (svc.hosts y).mailbox := fun host' heq =>
      mail_setHost (fun _ _ hmem => heq ▸ hmem) y command c'
    cases hmoved with
    | checked | answered | cancelled => exact .inl (hsame _ rfl hmem)
    | failed hmailbox => exact .inl (hsame _ hmailbox hmem)
    | added hstage hmailbox => exact .inl (hsame _ hmailbox hmem)
    | @sent p hstage =>
      by_cases hy : y = call.node
      · subst hy
        simp only [Service.setHost, Function.update_self, Host.push] at hmem
        rcases List.mem_append.mp hmem with hold | hnew
        · exact .inl hold
        · obtain ⟨rfl, hc'⟩ := RaftMessage.appendCommand.inj (List.mem_singleton.mp hnew)
          obtain rfl : c' = c := Option.some.inj hc'
          refine .inr ?_
          rw [proposed, hset]
          rfl
      · exact .inl (by simpa only [Service.setHost, Function.update_of_ne hy] using hmem)

theorem Inv.step (hids : ids.Nodup) (h : svc.Inv lib ids g) {ev : ServiceEvent}
    (hcond : svc.KeepsAnswers lib ids ev) (hs : svc.step lib ids ev = some svc') :
    ∃ g', svc'.Inv lib ids g' := by
  cases stepped_of_step hs with
  | raft hcl => exact h.raft hids hcond.1 hcond.2 hcl
  | @sendMessage x message hcaller =>
    refine ⟨g, h.setHost fun command c hmem => ?_⟩
    rcases List.mem_append.mp hmem with hold | hnew
    · exact hold
    · rw [← List.mem_singleton.mp hnew] at hcaller
      cases hcaller
  | handleMessage hs => exact h.handleMessage hids hs
  | stopLoop x => exact ⟨g, h.setHost fun _ _ hmem => absurd hmem List.not_mem_nil⟩
  | changeQueue x queue => exact ⟨g, h.setHost fun _ _ hmem => hmem⟩
  | setDraining x draining => exact ⟨g, h.setHost fun _ _ hmem => hmem⟩
  | submitJob x req => exact ⟨g, h.addCall (.start _ _ _)⟩
  | cancelJob x req => exact ⟨g, h.addCall (.start _ _ _)⟩
  | call hcall hmoved =>
    exact ⟨g, h.call hcall (ClientCall.moved_of_step hmoved) (hcond _ hcall)⟩

/-- In every run whose steps meet the conditions, a call returns success only for an entry that the
commit index of its node has reached. A leader has committed it, the leaders of later terms were
elected with it, and whatever was committed later or at a higher index has it. -/
theorem acknowledged_is_committed (lib : WireLib) (hids : ids.Nodup) (peers : ℕ → List PeerConfig)
    (h : Runs.Reach (step lib ids) (KeepsAnswers lib ids) (start ids peers) svc)
    {call : ClientCall} (hcall : call ∈ svc.calls) {o : Outcome} (hstage : call.stage = .returned o)
    {reply : Reply} (hok : o.result = .ok reply) :
    ∃ e T, o.answer = some (.ok e) ∧ reply.Answers lib e.command ∧ e.index ≤ o.commitIndex ∧
      svc.cluster.CommittedIn lib e T ∧
      (∀ y s, (y, .becameLeader s) ∈ svc.cluster.history → T < s.currentTerm →
        e.index ≤ s.logOffset ∨ s.Has lib e) ∧
      ∀ y s, (y, .advancedCommit s) ∈ svc.cluster.history →
        T < s.currentTerm ∨ e.index ≤ s.commitIndex →
        e.index ≤ s.commitIndex ∧ (e.index ≤ s.logOffset ∨ s.Has lib e) := by
  obtain ⟨g, hinv⟩ := h.invariant (P := fun svc => ∃ g, svc.Inv lib ids g)
    ⟨_, inv_start lib ids peers⟩ fun ⟨_, hinv⟩ hcond hs => hinv.step hids hcond hs
  obtain ⟨e, T, hanswer, hreply, hle, hc⟩ := (hinv.calls call hcall).returned o hstage reply hok
  exact ⟨e, T, hanswer, hreply, hle, hc,
    fun y s hs hlt => hinv.logs.leader_has (hinv.logs.settles hc) hs hlt,
    fun y s hs hlater => hinv.logs.commit_has hc hs hlater⟩

/-- Node 1 is elected by node 2, and a client submits a job to it: the raft loop has appended the
command and answered the call. -/
def submitted : List ServiceEvent :=
  (Cluster.electedBy 1 2 1 0 0).map .raft ++
    [.submitJob 1 ⟨"ls", none⟩, .call 0 .checkLeader, .call 0 (.checkQueue 7 .epoch), .call 0 .send,
      .handleMessage 1]

def submittedEntry : LogEntry := ⟨1, 1, .submitJob 7 "ls" .epoch none⟩

def success : Stage → Option (Reply × Option LoopAnswer × ℕ)
  | .returned ⟨.ok reply, answer, commitIndex⟩ => some (reply, answer, commitIndex)
  | _ => none

def isUncommitted : Reply × Option LoopAnswer × ℕ → Bool
  | (_, some (.ok e), commitIndex) => commitIndex < e.index
  | _ => false

theorem returned_of_success {stage : Stage} {reply : Reply} {answer : Option LoopAnswer}
    {commitIndex : ℕ} (h : success stage = some (reply, answer, commitIndex)) :
    stage = .returned ⟨.ok reply, answer, commitIndex⟩ := by
  unfold success at h
  split at h
  · cases h
    rfl
  · cases h

/-- Leader 1 replicates the entry to node 2 and counts the reply before the client gets its job
id. -/
theorem acknowledged_after_count :
    ∃ svc call o reply e T, Runs.Reach (step .standard [1, 2, 3]) (KeepsAnswers .standard [1, 2, 3])
        (start [1, 2, 3] fun _ => []) svc ∧
      call ∈ svc.calls ∧ call.stage = .returned o ∧ o.result = .ok reply ∧
      o.answer = some (.ok e) ∧ e.index ≤ o.commitIndex ∧
      svc.cluster.CommittedIn .standard e T := by
  obtain ⟨svc, hreach, call, hcall, hdone⟩ := Runs.exists_reach_of_guardedRun
    (step .standard [1, 2, 3]) (KeepsAnswers .standard [1, 2, 3])
    (fun svc => ∃ call ∈ svc.calls, (success call.stage).isSome = true)
    (start [1, 2, 3] fun _ => [])
    (submitted ++ [.raft ⟨1, .replicateTick⟩,
      .raft ⟨2, .deliver 0 1 (.appendEntries .replication
        (Cluster.wholeLogRequest 1 1 [submittedEntry]))⟩,
      .raft ⟨1, .deliver 0 2 (.appendReply .replication
        (Cluster.wholeLogRequest 1 1 [submittedEntry]) ⟨1, true, 1⟩)⟩,
      .call 0 .receive, .call 0 .addJob])
    (by decide +kernel)
  obtain ⟨⟨reply, answer, commitIndex⟩, hsuccess⟩ := Option.isSome_iff_exists.mp hdone
  have hstage := returned_of_success hsuccess
  obtain ⟨e, T, hanswer, -, hle, hc, -⟩ := acknowledged_is_committed .standard (by decide) _
    hreach hcall hstage rfl
  exact ⟨svc, call, _, reply, e, T, hreach, hcall, hstage, rfl, hanswer, hle, hc⟩

/-- The client gets its job id as soon as the leader has appended the entry to its own log: nothing
has been replicated, and the commit index is 0. -/
theorem acknowledged_uncommitted :
    ¬ ∀ (lib : WireLib) (ids : List ℕ) (peers : ℕ → List PeerConfig) (svc : Service), ids.Nodup →
      Runs.Reach (step lib ids) (fun _ _ => True) (start ids peers) svc →
      ∀ call ∈ svc.calls, ∀ (o : Outcome) (reply : Reply), call.stage = .returned o →
        o.result = .ok reply → ∃ e, o.answer = some (.ok e) ∧ e.index ≤ o.commitIndex := by
  intro hall
  obtain ⟨svc, hreach, call, hcall, hdone⟩ := Runs.exists_reach_of_guardedRun
    (step .standard [1, 2, 3]) (fun _ _ => True)
    (fun svc => ∃ call ∈ svc.calls, (success call.stage).any isUncommitted = true)
    (start [1, 2, 3] fun _ => []) (submitted ++ [.call 0 .receive, .call 0 .addJob])
    (by decide +kernel)
  obtain ⟨⟨reply, answer, commitIndex⟩, hsuccess, hunc⟩ := (Option.any_eq_true _ _).mp hdone
  obtain ⟨e, he, hle⟩ := hall .standard [1, 2, 3] _ svc (by decide) hreach call hcall _ reply
    (returned_of_success hsuccess) rfl
  obtain rfl : answer = some (.ok e) := he
  exact absurd hle (not_le.mpr (of_decide_eq_true hunc))

end Service
end NomadLite
