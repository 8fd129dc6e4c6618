import NomadLite.ClientCluster

/-!
# Calls and committed entries

What holds of a call in every state of a run: what it has proposed, which entry the
raft loop appended for it, and that a call whose node has learned of the commit can
return success for an entry that stays committed.
-/

namespace NomadLite

open ReplicatedLog

def Reply.Answers (lib : WireLib) : Reply → Command → Prop
  | .submitJob jobId createdAtMs, .submitJob id _ createdAt _ =>
    jobId = lib.uuidToString id ∧ createdAtMs = createdAt.timestampMillis
  | .cancelJob success message, .cancelJob id =>
    success = true ∧ message = "job " ++ lib.uuidToString id ++ " cancelled"
  | _, _ => False

variable {lib : WireLib} {ids : List ℕ} {g g' : LogView} {e : LogEntry} {T : ℕ}

namespace Cluster

variable {cl cl' : Cluster} {a : Action}

def CommittedIn (lib : WireLib) (cl : Cluster) (e : LogEntry) (T : ℕ) : Prop :=
  ∃ x s, (x, .advancedCommit s) ∈ cl.history ∧ s.currentTerm = T ∧ e.index ≤ s.commitIndex ∧
    s.Has lib e

theorem CommittedIn.apply (h : cl.CommittedIn lib e T) (x : ℕ) (eff : Effect) :
    (cl.apply x eff).CommittedIn lib e T := by
  obtain ⟨y, s, hs, hrest⟩ := h
  exact ⟨y, s, List.mem_append_left _ hs, hrest⟩

theorem HasLogs.settles (hg : HasLogs lib True ids g cl) (h : cl.CommittedIn lib e T) :
    g.Settles lib ids e T := by
  obtain ⟨x, s, hs, rfl, hle, hhas⟩ := h
  exact LogView.settles_of_note (hg.linked.note x _ hs) hle hhas

theorem HasBallots.oneLeaderPerTerm (h : HasBallots ids cl) : cl.OneLeaderPerTerm := by
  obtain ⟨b, hinv, hlinked⟩ := h
  intro x y s s' hx hy hterm
  have hwx : (s.currentTerm, x) ∈ b.elected := hlinked.note x _ hx
  have hwy : (s'.currentTerm, y) ∈ b.elected := hlinked.note y _ hy
  exact hinv.elected_unique _ x y hwx (hterm ▸ hwy)

/-- The leaders of later terms were elected with a committed entry. -/
theorem HasLogs.leader_has (hg : HasLogs lib True ids g cl) (hset : g.Settles lib ids e T) {y : ℕ}
    {s : RaftState} (hs : (y, .becameLeader s) ∈ cl.history) (hlt : T < s.currentTerm) :
    e.index ≤ s.logOffset ∨ s.Has lib e := by
  obtain ⟨P, hc, hlen, hlast⟩ := hset
  obtain ⟨h, ext, hholds, hleader, hext, -⟩ := hg.linked.note y _ hs
  have hpre : P <+: h := by
    rcases hc with rfl | ⟨T', P', hT', hc', hpre⟩
    · exact List.nil_prefix
    · exact hpre.trans (hc'.isPrefix_elected hg.sound.matched (hg.sound.safe trivial)
        (hT'.trans_lt hlt) hleader hext)
  refine (le_or_gt e.index s.logOffset).imp_right fun hoff => ?_
  exact (hholds.getEntry hoff).trans (getElem?_of_isPrefix hpre hlast)

/-- Whatever is committed later, or up to the entry's index, has the entry. -/
theorem HasLogs.commit_has (hg : HasLogs lib True ids g cl) (h : cl.CommittedIn lib e T) {y : ℕ}
    {s : RaftState} (hs : (y, .advancedCommit s) ∈ cl.history)
    (hlater : T < s.currentTerm ∨ e.index ≤ s.commitIndex) :
    e.index ≤ s.commitIndex ∧ (e.index ≤ s.logOffset ∨ s.Has lib e) := by
  have hm := hg.sound.matched
  have hsafe := hg.sound.safe trivial
  obtain ⟨h', hholds, hle, hc, -⟩ := hg.linked.note y _ hs trivial
  have hcommit : e.index ≤ s.commitIndex := by
    rcases hlater with hlt | hle'
    · obtain ⟨x, s₀, hs₀, rfl, hle₀, -⟩ := h
      obtain ⟨h₀, -, hlen₀, hc₀, -⟩ := hg.linked.note x _ hs₀ trivial
      have := hc₀.length_lt hc hm hsafe hlt
      rw [List.length_take, List.length_take] at this
      omega
    · exact hle'
  refine ⟨hcommit, (le_or_gt e.index s.logOffset).imp_right fun hoff => ?_⟩
  obtain ⟨P, hcP, hlenP, hlast⟩ := hg.settles h
  have hget : (h'.take s.commitIndex)[e.index - 1]? = some h'[e.index - 1] := by
    rw [List.getElem?_take_of_lt (by omega), List.getElem?_eq_getElem (by omega)]
  rw [RaftState.Has, hholds.getEntry hoff, List.getElem?_eq_getElem (by omega)]
  exact congrArg some
    ((Replicas.Covered.of_committed hc).getElem?_unique hcP hm hsafe hget hlast)

theorem HasLogs.step_of_keeps (hids : ids.Nodup) (hb : HasBallots ids cl)
    (hg : HasLogs lib True ids g cl) (hballots : cl.KeepsBallots ids a)
    (hcond : cl.KeepsCommitted lib a) (hs : cl.step lib ids a = some cl') :
    ∃ eff g', (cl.nodes a.node).step lib a.event = some eff ∧ cl' = cl.apply a.node eff ∧
      Simulates lib True ids g a.node eff g' ∧ HasLogs lib True ids g' cl' ∧ HasBallots ids cl' := by
  have hb' := hb.step hids hballots hs
  obtain ⟨eff, g', hstep, hcl, hsim, hg'⟩ := hg.step hids hb'.oneLeaderPerTerm
    ⟨hcond.1, hcond.2.1, fun _ => hcond.2.2⟩ hs
  exact ⟨eff, g', hstep, hcl, hsim, hg', hb'⟩

end Cluster

/-! ### What holds of a call -/

/-- A success names an entry for the command, committed and covered by the commit index. -/
def Outcome.Committed (lib : WireLib) (cl : Cluster) (o : Outcome) : Prop :=
  ∀ reply, o.result = .ok reply → ∃ e T, o.answer = some (.ok e) ∧ reply.Answers lib e.command ∧
    e.index ≤ o.commitIndex ∧ cl.CommittedIn lib e T

structure CallOk (lib : WireLib) (ids : List ℕ) (g : LogView) (cl : Cluster) (call : ClientCall) :
    Prop where
  unsent : call.stage.Open → call.proposed = none
  waiting : ∀ p, call.stage = .waiting p → call.proposed = some p.command
  adding : ∀ job, call.stage = .adding job →
    call.proposed = some (Proposal.submit job).command ∧ ∃ e, call.answer = some (.ok e)
  answered : ∀ e, call.answer = some (.ok e) → call.proposed = some e.command
  counted : ∀ T ∈ call.counted, ∃ e, call.answer = some (.ok e) ∧ cl.CommittedIn lib e T
  told : call.told = true → call.node ∈ ids ∧ call.counted ≠ [] ∧
    ∃ e, call.answer = some (.ok e) ∧ NodeKnows ids g call.node (cl.nodes call.node) e.index
  returned : ∀ o, call.stage = .returned o → o.Committed lib cl

namespace CallOk

variable {cl : Cluster} {call call' : ClientCall} {a : Action} {eff : Effect}

theorem apply (h : CallOk lib ids g cl call) (hg : Cluster.HasLogs lib True ids g cl)
    (hsim : Simulates lib True ids g a.node eff g')
    (hstep : (cl.nodes a.node).step lib a.event = some eff)
    (hkeep : (cl.nodes a.node).KeepsTerm a.event) :
    CallOk lib ids g' (cl.apply a.node eff) call where
  unsent := h.unsent
  waiting := h.waiting
  adding := h.adding
  answered := h.answered
  counted T hT := by
    obtain ⟨e, hanswer, hc⟩ := h.counted T hT
    exact ⟨e, hanswer, hc.apply _ eff⟩
  told htold := by
    obtain ⟨hx, hne, e, hanswer, hknows⟩ := h.told htold
    refine ⟨hx, hne, e, hanswer, ?_⟩
    by_cases heq : call.node = a.node
    · rw [heq] at hx hknows ⊢
      simp only [Cluster.apply, Function.update_self]
      exact hknows.step (hg.linked.node _ hx) hsim (RaftNode.transition_of_step hstep) hkeep
    · simp only [Cluster.apply, Function.update_of_ne heq]
      exact hknows.of_ne hsim.step heq
  returned o hstage reply hreply := by
    obtain ⟨e, T, hanswer, hmatch, hle, hc⟩ := h.returned o hstage reply hreply
    exact ⟨e, T, hanswer, hmatch, hle, hc.apply _ eff⟩

theorem count (h : CallOk lib ids g cl call) (hanswer : call.answer = some (.ok e))
    (hc : cl.CommittedIn lib e T) {told : Bool} (htold : told = true → call.told = true ∨
      (call.node ∈ ids ∧ NodeKnows ids g call.node (cl.nodes call.node) e.index)) :
    CallOk lib ids g cl { call with counted := T :: call.counted, told := told } where
  unsent := h.unsent
  waiting := h.waiting
  adding := h.adding
  answered := h.answered
  counted T' hT' := by
    rcases List.mem_cons.mp hT' with rfl | hold
    · exact ⟨e, hanswer, hc⟩
    · exact h.counted T' hold
  told ht := by
    rcases htold ht with hold | ⟨hx, hknows⟩
    · obtain ⟨hx, -, hrest⟩ := h.told hold
      exact ⟨hx, List.cons_ne_nil _ _, hrest⟩
    · exact ⟨hx, List.cons_ne_nil _ _, e, hanswer, hknows⟩
  returned := h.returned

theorem tell (h : CallOk lib ids g cl call) (hanswer : call.answer = some (.ok e))
    (hT : T ∈ call.counted) (hx : call.node ∈ ids)
    (hknows : NodeKnows ids g call.node (cl.nodes call.node) e.index) :
    CallOk lib ids g cl { call with told := true } where
  unsent := h.unsent
  waiting := h.waiting
  adding := h.adding
  answered := h.answered
  counted := h.counted
  told _ := ⟨hx, List.ne_nil_of_mem hT, e, hanswer, hknows⟩
  returned := h.returned

theorem observe (h : CallOk lib ids g cl call) (hids : ids.Nodup)
    (hg : Cluster.HasLogs lib True ids g cl) (hx : a.node ∈ ids)
    (hpacket : ∀ p ∈ a.event.packet a.node, p ∈ cl.network)
    (hcond : cl.KeepsCommitted lib a) (hsim : Simulates lib True ids g a.node eff g')
    (hstep : (cl.nodes a.node).step lib a.event = some eff) :
    CallOk lib ids g' (cl.apply a.node eff) (call.observe lib cl a) := by
  have hcall := h.apply hg hsim hstep hcond.1
  have hnode := hg.linked.node _ hx
  have hpackets : ∀ p ∈ a.event.packet a.node, PacketLog lib True ids g p :=
    fun p hp => hg.linked.packet p (hpacket p hp)
  have hself : (cl.apply a.node eff).nodes a.node = eff.node := Function.update_self ..
  unfold ClientCall.observe
  split
  · next e hanswer =>
    split_ifs with hcounts hlearns
    · obtain ⟨hnote, hhas, hle, hterm⟩ :=
        hnode.commits_of_counts hg.sound hids hstep hpackets hcond.2.2 hcounts
      have hset := LogView.settles_of_note (hsim.notes _ hnote) hle hhas
      refine hcall.count hanswer ⟨a.node, _, List.mem_append_right _ (List.mem_map_of_mem hnote),
        hterm, hle, hhas⟩ fun htold => ?_
      rcases Bool.or_eq_true .. ▸ htold with hold | heq
      · exact .inl hold
      · have heq := of_decide_eq_true heq
        rw [← heq, hself]
        exact .inr ⟨hx, .of_has hsim.node hsim.sound hset le_rfl hle fun _ => hhas⟩
    · obtain ⟨heq, T, hT, hlearns⟩ := hlearns
      obtain ⟨e', hanswer', hc⟩ := h.counted T hT
      obtain rfl : e = e' := by
        rw [hanswer] at hanswer'
        exact Except.ok.inj (Option.some.inj hanswer')
      refine hcall.tell hanswer hT (heq ▸ hx) ?_
      rw [← heq, hself]
      exact .of_learns hnode hg.sound (hg.settles hc) hsim hstep hpackets hcond.2.1 hlearns
    · exact hcall
  · exact hcall

theorem reply (h : CallOk lib ids g cl call) {answer : LoopAnswer}
    (hanswer : ∀ e, answer = .ok e → call.proposed = some e.command) :
    CallOk lib ids g cl (call.reply answer) := by
  cases hold : call.answer with
  | some old =>
    have hsame : call.reply answer = call := by
      rw [ClientCall.reply, hold]
      exact congrArg (fun o => { call with answer := o }) hold.symm
    rwa [hsame]
  | none =>
    have hnone : ∀ e, call.answer ≠ some (.ok e) := fun e he => by
      rw [hold] at he
      cases he
    have hnew : (call.reply answer).answer = some answer := by
      rw [ClientCall.reply, hold]
      rfl
    refine ⟨h.unsent, h.waiting, fun job hstage => ?_, fun e he => ?_, fun T hT => ?_,
      fun htold => ?_, h.returned⟩
    · obtain ⟨-, e, he⟩ := h.adding job hstage
      exact absurd he (hnone e)
    · exact hanswer e (Option.some.inj (hnew.symm.trans he))
    · obtain ⟨e, he, -⟩ := h.counted T hT
      exact absurd he (hnone e)
    · obtain ⟨-, -, e, he, -⟩ := h.told htold
      exact absurd he (hnone e)

theorem finish (h : CallOk lib ids g cl call) (nd : RaftNode) {result : Except Status Reply}
    (hcommitted : Outcome.Committed lib cl ⟨result, call.answer, nd.state.commitIndex⟩) :
    CallOk lib ids g cl (call.finish nd result) where
  unsent hopen := hopen.elim
  waiting _ hstage := Stage.noConfusion hstage
  adding _ hstage := Stage.noConfusion hstage
  answered := h.answered
  counted := h.counted
  told := h.told
  returned _ hstage := Stage.returned.inj hstage ▸ hcommitted

theorem committed_of_told (h : CallOk lib ids g cl call) (htold : call.told = true) {p : Proposal}
    (hp : call.proposed = some p.command) {r : Reply} (hr : r.Answers lib p.command) :
    Outcome.Committed lib cl ⟨.ok r, call.answer, (cl.nodes call.node).state.commitIndex⟩ := by
  intro reply hreply
  obtain rfl : r = reply := Except.ok.inj hreply
  obtain ⟨-, hne, e, hanswer, hknows⟩ := h.told htold
  obtain ⟨T, hT⟩ := List.exists_mem_of_ne_nil _ hne
  obtain ⟨e', hanswer', hc⟩ := h.counted T hT
  obtain rfl : e = e' := by
    rw [hanswer] at hanswer'
    exact Except.ok.inj (Option.some.inj hanswer')
  have hcommand : e.command = p.command :=
    Option.some.inj ((h.answered e hanswer).symm.trans hp)
  exact ⟨e, T, hanswer, hcommand ▸ hr, hknows.commit, hc⟩

theorem moved (h : CallOk lib ids g cl call) {c : ℕ} {host host' : Host} {ev : CallEvent}
    (hmoved : ClientCall.Moved lib c host (cl.nodes call.node) call ev host' call')
    (hack : call.Acknowledges host ev → call.told = true) : CallOk lib ids g cl call' := by
  cases hmoved with
  | @checked stage hold hnew =>
    refine ⟨fun _ => h.unsent hold, ?_, ?_, h.answered, h.counted, h.told, ?_⟩
    all_goals
      rintro _ rfl
      exact hnew.elim
  | failed =>
    exact h.finish _ fun _ hreply => nomatch hreply
  | @sent p hstage =>
    have hnone : call.proposed = none := h.unsent (hstage ▸ trivial)
    refine ⟨fun hopen => hopen.elim, fun p' hp' => ?_, fun _ hstage => Stage.noConfusion hstage,
      fun e he => ?_, h.counted, h.told, fun _ hstage => Stage.noConfusion hstage⟩
    · rw [← Stage.waiting.inj hp']
    · have := h.answered e he
      rw [hnone] at this
      cases this
  | @answered job e hstage hanswer =>
    refine ⟨fun hopen => hopen.elim, fun _ hstage => Stage.noConfusion hstage, fun job' hjob => ?_,
      h.answered, h.counted, h.told, fun _ hstage => Stage.noConfusion hstage⟩
    rw [← Stage.adding.inj hjob]
    exact ⟨h.waiting _ hstage, e, hanswer⟩
  | @cancelled jobId e hstage hanswer hacks =>
    exact h.finish _ (h.committed_of_told (hack hacks) (h.waiting _ hstage) ⟨rfl, rfl⟩)
  | @added host' job hstage hmailbox hacks =>
    exact h.finish _ (h.committed_of_told (hack hacks) (h.adding job hstage).1 ⟨rfl, rfl⟩)

theorem start (x : ℕ) (nd : RaftNode) (check : Except Status ClientRequest) :
    CallOk lib ids g cl (.start x nd check) := by
  have hnew : ∀ stage : Stage, stage.Open → CallOk lib ids g cl ⟨x, stage, none, none, [], false⟩ := by
    intro stage hopen
    refine ⟨fun _ => rfl, ?_, ?_, nofun, fun _ hT => absurd hT List.not_mem_nil, nofun, ?_⟩
    all_goals
      rintro _ rfl
      exact hopen.elim
  cases check with
  | ok req => exact hnew (.checkingLeader req) trivial
  | error status =>
    exact (hnew .namingLeader trivial).finish nd fun _ hreply => nomatch hreply

end CallOk

end NomadLite
