import NomadLite.AcknowledgedCommit

/-!
# Acknowledged calls keep the order of real time

A call that begins after another one has returned success proposes its command later. The raft
loop appends it behind everything that the log of its term had by then, so no log that existed
when the first call returned can have the new entry. Whatever was committed by that time keeps
its place, and the second call is acknowledged for an entry of a greater index, whichever nodes
the calls were made on and however leadership moved between them.
-/

namespace NomadLite

open ReplicatedLog

variable {lib : WireLib} {ids : List ℕ} {g₀ g g' : LogView} {e e' : LogEntry} {T T' : ℕ}

/-- The entry is behind the end of the log that its term has in the view. -/
def LogEntry.Beyond (g : LogView) (e : LogEntry) : Prop :=
  ∀ L, g.leader e.term = some L → L.length < e.index

structure LogView.Grows (g g' : LogView) : Prop where
  leaders : LeadersGrow LogEntry.term g.leader g'.leader
  acks : g.acks ⊆ g'.acks

theorem LogView.Grows.refl (g : LogView) : g.Grows g := ⟨.refl _, subset_rfl⟩

theorem LogView.Grows.extends (h : g₀.Grows g) {x : ℕ} (hext : g.Extends x g') : g₀.Grows g' :=
  ⟨h.leaders.trans hext.leaders, h.acks.trans hext.acks⟩

/-- A new entry of a leader is behind the end of the log that its term had at any earlier time. -/
theorem RaftState.newEntry_beyond {s : RaftState} {x : ℕ} (hgrows : g₀.Grows g)
    (hleads : g.leader s.currentTerm = some (g.log x)) (hholds : s.Holds lib (g.log x))
    (command : Command) : (s.newEntry command).Beyond g₀ := by
  intro L hL
  obtain ⟨ext, hext, -⟩ := hgrows.leaders _ L hL
  have hlog : g.log x = L ++ ext := Option.some.inj (hleads.symm.trans hext)
  have hindex : (s.newEntry command).index = s.lastLogIndex + 1 := rfl
  rw [hindex, hholds.lastLogIndex, hlog, List.length_append]
  omega

/-- What is settled in one view comes before what is settled later, if the later entry was not
there yet. -/
theorem LogView.Settles.index_lt (h : g₀.Settles lib ids e T) (hg₀ : g₀.Sound True ids)
    (hgrows : g₀.Grows g) (hg : g.Sound True ids) (h' : g.Settles lib ids e' T')
    (hbeyond : e'.Beyond g₀) : e.index < e'.index := by
  by_contra! hle
  obtain ⟨P, hP, hlen, -⟩ := h
  obtain ⟨P', hP', hlen', hlast'⟩ := h'
  have hpos : e'.index - 1 < P'.length := (List.getElem?_eq_some_iff.mp hlast').1
  have hget : P[e'.index - 1]? = some P[e'.index - 1] := List.getElem?_eq_getElem (by omega)
  have hsame : P[e'.index - 1] = e'.onWire lib :=
    (hP.grow hgrows.leaders hgrows.acks).getElem?_unique hP' hg.matched (hg.safe trivial) hget
      hlast'
  -- an entry that is settled in the first view stands in the log of its own term there
  have hanchored : Anchored LogEntry.term g₀.leader P := by
    rcases hP with rfl | ⟨T₁, P₁, -, ⟨L₁, -, hL₁, hpre₁, -⟩, hpre⟩
    · exact .nil
    · exact (hg₀.matched.leader_anchored _ _ hL₁).of_isPrefix (hpre.trans hpre₁)
  obtain ⟨L, hL, hpre⟩ := hanchored _ _ hget
  rw [hsame] at hL
  have hlt := hbeyond L hL
  have := hpre.length_le
  rw [List.length_take] at this
  omega

/-! ### The answers of later calls -/

namespace ClientCall

variable {c : ℕ} {host host' : Host} {nd : RaftNode} {call call' : ClientCall} {ev : CallEvent}

def Appended (call : ClientCall) (e : LogEntry) : Prop :=
  call.answer = some (.ok e) ∨ ∃ o, call.stage = .returned o ∧ o.answer = some (.ok e)

theorem Appended.of_finish {result : Except Status Reply}
    (h : (call.finish nd result).Appended e) : call.answer = some (.ok e) := by
  rcases h with hanswer | ⟨o, hstage, hanswer⟩
  · exact hanswer
  · rwa [← Stage.returned.inj hstage] at hanswer

theorem Appended.of_stage {stage : Stage} (hstage : ∀ o, stage ≠ .returned o)
    {proposed : Option Command}
    (h : { call with stage := stage, proposed := proposed }.Appended e) :
    call.answer = some (.ok e) := by
  rcases h with hanswer | ⟨o, hreturned, -⟩
  · exact hanswer
  · exact absurd hreturned (hstage o)

/-- No piece of a call but the raft loop's answer adds an entry. -/
theorem Appended.of_moved (hmoved : Moved lib c host nd call ev host' call')
    (h : call'.Appended e) : call.Appended e := by
  cases hmoved with
  | checked hold hnew =>
    refine .inl (h.of_stage fun o ho => ?_)
    subst ho
    exact hnew.elim
  | sent | answered => exact .inl (h.of_stage fun o => Stage.noConfusion)
  | failed | cancelled | added => exact .inl h.of_finish

theorem Appended.of_observe {cl : Cluster} {a : Action}
    (h : (call.observe lib cl a).Appended e) : call.Appended e := by
  unfold observe at h
  split at h
  · split_ifs at h <;> exact h
  · exact h

theorem Appended.of_reply {answer : LoopAnswer} (h : (call.reply answer).Appended e) :
    answer = .ok e ∨ call.Appended e := by
  rcases h with hanswer | hreturned
  · cases hold : call.answer with
    | none =>
      rw [reply, hold] at hanswer
      exact .inl (Option.some.inj hanswer)
    | some old =>
      rw [reply, hold] at hanswer
      exact .inr (.inl (hold.trans hanswer))
  · exact .inr (.inr hreturned)

theorem not_appended_start (x : ℕ) (nd : RaftNode) (check : Except Status ClientRequest) :
    ¬ (start x nd check).Appended e := by
  intro h
  cases check with
  | ok req => cases h.of_stage fun o => Stage.noConfusion
  | error status => cases h.of_finish

end ClientCall

def LaterAnswers (g₀ : LogView) (n : ℕ) (calls : List ClientCall) : Prop :=
  ∀ c call e, n ≤ c → calls[c]? = some call → call.Appended e → e.Beyond g₀

namespace LaterAnswers

variable {n : ℕ} {calls : List ClientCall}

theorem map (h : LaterAnswers g₀ n calls) (cl : Cluster) (a : Action) :
    LaterAnswers g₀ n (calls.map (ClientCall.observe lib cl a)) := by
  intro c call e hc hcall happended
  rw [List.getElem?_map] at hcall
  obtain ⟨call₀, hcall₀, rfl⟩ := Option.map_eq_some_iff.mp hcall
  exact h c call₀ e hc hcall₀ happended.of_observe

theorem concat (h : LaterAnswers g₀ n calls) {call : ClientCall}
    (hnew : ∀ e, ¬ call.Appended e) : LaterAnswers g₀ n (calls ++ [call]) := by
  intro c call' e hc hcall happended
  rw [List.getElem?_append] at hcall
  split_ifs at hcall with hlt
  · exact h c call' e hc hcall happended
  · obtain rfl := List.mem_singleton.mp (List.mem_of_getElem? hcall)
    exact absurd happended (hnew e)

theorem set (h : LaterAnswers g₀ n calls) {c : ℕ} {call call' : ClientCall}
    (hcall : calls[c]? = some call) (hmoved : ∀ e, call'.Appended e → call.Appended e) :
    LaterAnswers g₀ n (calls.set c call') := by
  intro d call₀ e hd hcall₀ happended
  rw [List.getElem?_set] at hcall₀
  split_ifs at hcall₀ with heq hlt
  · obtain rfl := Option.some.inj hcall₀
    subst heq
    exact h c call e hd hcall (hmoved e happended)
  · exact h d call₀ e hd hcall₀ happended

theorem modify (h : LaterAnswers g₀ n calls) (c : ℕ) {answer : LoopAnswer}
    (hnew : ∀ e, answer = .ok e → e.Beyond g₀) :
    LaterAnswers g₀ n (calls.modify c (ClientCall.reply answer)) := by
  intro d call e hd hcall happended
  rw [List.getElem?_modify] at hcall
  obtain ⟨call₀, hcall₀, rfl⟩ := Option.map_eq_some_iff.mp hcall
  split_ifs at happended with heq
  · exact happended.of_reply.elim (hnew e) (h d call₀ e hd hcall₀)
  · exact h d call₀ e hd hcall₀ happended

end LaterAnswers

namespace Service

variable {svc svc' : Service} {n : ℕ}

structure Continues (lib : WireLib) (ids : List ℕ) (g₀ : LogView) (n : ℕ) (g : LogView)
    (svc : Service) : Prop where
  ballots : Cluster.HasBallots ids svc.cluster
  logs : Cluster.HasLogs lib True ids g svc.cluster
  grows : g₀.Grows g
  answers : LaterAnswers g₀ n svc.calls

namespace Continues

theorem cluster_step (h : svc.Continues lib ids g₀ n g) (hids : ids.Nodup) {a : Action}
    (hballots : svc.cluster.KeepsBallots ids a) (hcond : svc.cluster.KeepsCommitted lib a)
    {cl : Cluster} (hs : svc.cluster.step lib ids a = some cl) {calls : List ClientCall}
    (hcalls : LaterAnswers g₀ n calls) :
    ∃ g', Continues lib ids g₀ n g' { svc with cluster := cl, calls := calls } := by
  obtain ⟨eff, g', -, rfl, hsim, hg', hb'⟩ :=
    h.logs.step_of_keeps hids h.ballots hballots hcond hs
  exact ⟨g', hb', hg', h.grows.extends hsim.step, hcalls⟩

theorem answer (h : svc.Continues lib ids g₀ n g) (caller : Option ℕ) {answer : LoopAnswer}
    (hnew : ∀ e, answer = .ok e → e.Beyond g₀) :
    (svc.answer caller answer).Continues lib ids g₀ n g := by
  cases caller with
  | none => exact h
  | some c => exact ⟨h.ballots, h.logs, h.grows, h.answers.modify c hnew⟩

theorem handleMessage (h : svc.Continues lib ids g₀ n g) (hids : ids.Nodup) {x : ℕ}
    (hs : svc.handleMessage lib ids x = some svc') : ∃ g', svc'.Continues lib ids g₀ n g' := by
  rw [Service.handleMessage] at hs
  cases hmail : (svc.hosts x).mailbox with
  | nil =>
    rw [hmail] at hs
    cases hs
  | cons message rest =>
    have hrest : (svc.setHost x { svc.hosts x with mailbox := rest }).Continues lib ids g₀ n g :=
      ⟨h.ballots, h.logs, h.grows, h.answers⟩
    rw [hmail] at hs
    cases message with
    | transferLeadership targetId => exact ⟨g, Option.some.inj hs ▸ hrest⟩
    | appendCommand command caller =>
      dsimp only at hs
      split_ifs at hs with hrole
      · obtain ⟨cl, hcl, rfl⟩ := Option.map_eq_some_iff.mp hs
        obtain ⟨-, hx, -, -, -⟩ := Cluster.step_eq_some hcl
        have hnode := h.logs.linked.node x hx
        have hnone : ∀ {P : ℕ → Prop}, ∀ t ∈ (Event.appendCommand command).capturedStepDown, P t :=
          fun t ht => absurd ht (Option.not_mem_none t)
        obtain ⟨g', hg'⟩ := hrest.cluster_step hids (a := ⟨x, .appendCommand command⟩) hnone
          ⟨hnone, trivial, trivial⟩ hcl h.answers
        refine ⟨g', hg'.answer caller fun e he => ?_⟩
        rw [← Except.ok.inj he]
        exact RaftState.newEntry_beyond h.grows (hnode.leader hrole).log hnode.holds command
      · obtain rfl := Option.some.inj hs
        exact ⟨g, hrest.answer caller fun e he => by cases he⟩

theorem step (hids : ids.Nodup) (h : svc.Continues lib ids g₀ n g) {ev : ServiceEvent}
    (hcond : svc.KeepsAnswers lib ids ev) (hs : svc.step lib ids ev = some svc') :
    ∃ g', svc'.Continues lib ids g₀ n g' := by
  cases stepped_of_step hs with
  | raft hcl => exact h.cluster_step hids hcond.1 hcond.2 hcl (h.answers.map _ _)
  | handleMessage hs => exact h.handleMessage hids hs
  | submitJob | cancelJob =>
    exact ⟨g, h.ballots, h.logs, h.grows,
      h.answers.concat fun e => ClientCall.not_appended_start _ _ _⟩
  | sendMessage | stopLoop | changeQueue | setDraining =>
    exact ⟨g, h.ballots, h.logs, h.grows, h.answers⟩
  | call hcall hmoved =>
    exact ⟨g, h.ballots, h.logs, h.grows,
      h.answers.set hcall fun e he => he.of_moved (ClientCall.moved_of_step hmoved)⟩

end Continues

def acknowledged (svc : Service) (c x : ℕ) : Bool :=
  (svc.calls[c]?).any fun call => decide (call.node = x) && (success call.stage).isSome

theorem exists_outcome {c x : ℕ} (h : svc.acknowledged c x = true) :
    ∃ call o reply, svc.calls[c]? = some call ∧ call.node = x ∧ call.stage = .returned o ∧
      o.result = .ok reply := by
  obtain ⟨call, hcall, hdone⟩ := (Option.any_eq_true _ _).mp h
  obtain ⟨hnode, hsome⟩ := Bool.and_eq_true_iff.mp hdone
  obtain ⟨⟨reply, answer, commitIndex⟩, hsuccess⟩ := Option.isSome_iff_exists.mp hsome
  exact ⟨call, _, reply, hcall, of_decide_eq_true hnode, returned_of_success hsuccess, rfl⟩

def acknowledgedByFirst : List ServiceEvent :=
  submitted ++ [.raft ⟨1, .replicateTick⟩,
    .raft ⟨2, .deliver 0 1 (.appendEntries .replication
      (Cluster.wholeLogRequest 1 1 [submittedEntry]))⟩,
    .raft ⟨1, .deliver 0 2 (.appendReply .replication
      (Cluster.wholeLogRequest 1 1 [submittedEntry]) ⟨1, true, 1⟩)⟩,
    .call 0 .receive, .call 0 .addJob]

def secondRequest : AppendEntriesRequest :=
  ⟨2, 2, 1, 1, [logEntryToProto .standard ⟨2, 2, .submitJob 8 "pwd" .epoch none⟩], 0⟩

def acknowledgedBySecond : List ServiceEvent :=
  (Cluster.electedBy 2 3 2 1 1).map .raft ++
    [.submitJob 2 ⟨"pwd", none⟩, .call 1 .checkLeader, .call 1 (.checkQueue 8 .epoch),
      .call 1 .send, .handleMessage 2, .raft ⟨2, .replicateTick⟩,
      .raft ⟨1, .deliver 0 2 (.appendEntries .replication secondRequest)⟩,
      .raft ⟨2, .deliver 0 1 (.appendReply .replication secondRequest ⟨2, true, 2⟩)⟩,
      .call 1 .receive, .call 1 .addJob]

end Service
end NomadLite
