import NomadLite.Cluster
import NomadLite.CommitCount
import NomadLite.TermMonotone

/-!
# Replies and the term of their requests

A reply is handled by the task that sent the request, whatever has happened to the node in
between. The handlers compare the reply's term with the current one, but not the term in
which the request was sent, so a leader takes in replies to requests of its earlier
leaderships. As long as it is not handed such a reply, each value in its `match_index` was
reported by the peer that accepted a request of the current term.
-/

namespace NomadLite

def Message.request : Message → Option Message
  | .appendReply kind req _ => some (.appendEntries kind req)
  | .snapshotReply req _ => some (.installSnapshot req)
  | _ => none

/-- The reply says that a request of term `term` was accepted, with the log at `index`. A snapshot
that the peer refuses is answered with the peer's greater term. -/
def Message.Accepts (term index : ℕ) : Message → Prop
  | .appendReply .replication req resp =>
    req.term = term ∧ resp.success = true ∧ resp.matchIndex = index
  | .snapshotReply req resp =>
    req.term = term ∧ resp.term = term ∧ req.lastIncludedIndex = index
  | _ => False

def Message.Answers (term : ℕ) : Message → Prop
  | .appendReply .replication req _ => req.term = term
  | .snapshotReply req resp => req.term = term ∧ resp.term = term
  | _ => False

namespace RaftNode

def answer (lib : WireLib) (nd : RaftNode) : Message → Option Message
  | .appendEntries kind req =>
    some (.appendReply kind req (NomadLite.handleAppendEntries lib nd.state req).2)
  | .installSnapshot req =>
    some (.snapshotReply req (NomadLite.handleInstallSnapshot lib nd.state req).2)
  | _ => none

/-- A leader is handed replies to requests of its current term only; those of a greater term end
the leadership anyway. -/
def HandlesCurrent (nd : RaftNode) : Event → Prop
  | .deliver _ _ (.appendReply .replication req resp) =>
    nd.state.role = .leader → resp.term ≤ nd.state.currentTerm →
      req.term = nd.state.currentTerm
  | .deliver _ _ (.snapshotReply req resp) =>
    nd.state.role = .leader → resp.term ≤ nd.state.currentTerm →
      req.term = nd.state.currentTerm
  | _ => True

instance (nd : RaftNode) : (ev : Event) → Decidable (nd.HandlesCurrent ev)
  | .deliver _ _ (.appendReply .replication _ _) => inferInstanceAs (Decidable (_ → _ → _))
  | .deliver _ _ (.snapshotReply _ _) => inferInstanceAs (Decidable (_ → _ → _))
  | .deliver _ _ (.appendReply .heartbeat _ _) | .deliver _ _ (.voteRequest _)
  | .deliver _ _ (.voteReply ..) | .deliver _ _ (.appendEntries ..)
  | .deliver _ _ (.installSnapshot _) | .deliver _ _ (.timeoutNow _)
  | .deliver _ _ (.timeoutNowReply ..) | .electionTimeout _ | .timeoutNowElection _ _
  | .voteFailed _ | .finishElection _ | .heartbeatTick | .replicateTick | .appendCommand _
  | .startTransfer _ _ | .transferPoll | .transferFailed | .getCommittedEntries
  | .beginCompaction | .finishCompaction _ _ => .isTrue trivial

variable {lib : WireLib} {nd : RaftNode} {ev : Event} {eff : Effect}

/-- A reply is only sent by the handler of its request, back to the sender. -/
theorem Transition.answered (h : Transition lib nd ev eff) {dst : ℕ} {msg request : Message}
    (hsent : (dst, msg) ∈ eff.sent) (hrequest : msg.request = some request) :
    ∃ task, ev = .deliver task dst request ∧ nd.answer lib request = some msg := by
  cases h.sends hsent with
  | appendReply hev =>
    obtain rfl := Option.some.inj hrequest
    exact ⟨_, hev, rfl⟩
  | snapshotReply hev =>
    obtain rfl := Option.some.inj hrequest
    exact ⟨_, hev, rfl⟩
  | _ => cases hrequest

inductive LeaderStep (nd : RaftNode) (s : RaftState) : Event → Prop where
  | elected {ev : Event} (hrole : nd.state.role ≠ .leader)
      (hmatch : s.matchIndex = nd.peers.foldl (fun m p => m.insert p 0) ∅) : LeaderStep nd s ev
  | kept {ev : Event} (hrole : nd.state.role = .leader)
      (hterm : s.currentTerm = nd.state.currentTerm)
      (hmatch : s.matchIndex = nd.state.matchIndex) (hnext : s.nextIndex = nd.state.nextIndex) :
      LeaderStep nd s ev
  | matched {task src : ℕ} {req : AppendEntriesRequest} {resp : AppendEntriesResponse}
      (hrole : nd.state.role = .leader) (hterm : s.currentTerm = nd.state.currentTerm)
      (hle : resp.term ≤ nd.state.currentTerm) (hsuccess : resp.success = true)
      (hmatch : s.matchIndex = nd.state.matchIndex.insert src resp.matchIndex) :
      LeaderStep nd s (.deliver task src (.appendReply .replication req resp))
  | rejected {task src : ℕ} {req : AppendEntriesRequest} {resp : AppendEntriesResponse}
      (hrole : nd.state.role = .leader) (hterm : s.currentTerm = nd.state.currentTerm)
      (hle : resp.term ≤ nd.state.currentTerm) (hmatch : s.matchIndex = nd.state.matchIndex) :
      LeaderStep nd s (.deliver task src (.appendReply .replication req resp))
  | installed {task src : ℕ} {req : InstallSnapshotRequest} {resp : InstallSnapshotResponse}
      (hrole : nd.state.role = .leader) (hterm : s.currentTerm = nd.state.currentTerm)
      (hle : resp.term ≤ nd.state.currentTerm)
      (hmatch : s.matchIndex = nd.state.matchIndex.insert src req.lastIncludedIndex) :
      LeaderStep nd s (.deliver task src (.snapshotReply req resp))

theorem LeaderStep.of_state_eq {s : RaftState} (hs : s = nd.state) (hrole : s.role = .leader) :
    LeaderStep nd s ev := by
  subst hs
  exact .kept hrole rfl rfl rfl

theorem adoptTerm_of_leader {s : RaftState} {term : ℕ} (h : (s.adoptTerm term).role = .leader) :
    s.adoptTerm term = s := by
  rw [RaftState.adoptTerm] at h ⊢
  split_ifs at h ⊢
  · cases h
  · rfl

theorem leaderStep_handleVoteRequest {src : ℕ} {req : VoteRequest}
    (hrole : (nd.handleVoteRequest src req).node.state.role = .leader) :
    LeaderStep nd (nd.handleVoteRequest src req).node.state ev := by
  change (handleRequestVote nd.state req).1.role = .leader at hrole
  change LeaderStep nd (handleRequestVote nd.state req).1 ev
  rcases handleRequestVote_cases nd.state req with heq | ⟨-, -, -, heq⟩
  · rw [heq] at hrole ⊢
    exact .of_state_eq (adoptTerm_of_leader hrole) hrole
  · rw [heq] at hrole ⊢
    have hsame : nd.state.adoptTerm req.term = nd.state := adoptTerm_of_leader hrole
    simp only [hsame] at hrole ⊢
    exact .kept hrole rfl rfl rfl

theorem leaderStep_handleAppendEntries {src : ℕ} {kind : AppendKind} {req : AppendEntriesRequest}
    (hrole : (nd.handleAppendEntries lib src kind req).node.state.role = .leader) :
    LeaderStep nd (nd.handleAppendEntries lib src kind req).node.state ev := by
  rw [handleAppendEntries_state] at hrole ⊢
  rcases lt_or_ge req.term nd.state.currentTerm with hstale | hcurrent
  · rw [handleAppendEntries_stale hstale] at hrole ⊢
    exact .of_state_eq rfl hrole
  · rw [(handleAppendEntries_follower lib hcurrent).2.1] at hrole
    cases hrole

theorem handleInstallSnapshot_indices (lib : WireLib) (s : RaftState)
    (req : InstallSnapshotRequest) :
    (NomadLite.handleInstallSnapshot lib s req).1.matchIndex = s.matchIndex ∧
      (NomadLite.handleInstallSnapshot lib s req).1.nextIndex = s.nextIndex := by
  have hadopt : (s.adoptTerm req.term).matchIndex = s.matchIndex ∧
      (s.adoptTerm req.term).nextIndex = s.nextIndex := by
    rw [RaftState.adoptTerm]
    split_ifs <;> exact ⟨rfl, rfl⟩
  rw [NomadLite.handleInstallSnapshot]
  split_ifs
  · exact hadopt
  · simp only [RaftState.installSnapshot]
    split_ifs <;> exact hadopt

theorem leaderStep_handleInstallSnapshot {src : ℕ} {req : InstallSnapshotRequest}
    (hrole : (nd.handleInstallSnapshot lib src req).node.state.role = .leader) :
    LeaderStep nd (nd.handleInstallSnapshot lib src req).node.state ev := by
  rw [handleInstallSnapshot_state] at hrole ⊢
  obtain ⟨hterm, -, hballot⟩ := handleInstallSnapshot_ballot lib nd.state req
  obtain ⟨hmatch, hnext⟩ := handleInstallSnapshot_indices lib nd.state req
  rw [hballot] at hrole
  have hsame : nd.state.adoptTerm req.term = nd.state := adoptTerm_of_leader hrole
  rw [hsame] at hrole hterm
  exact .kept hrole hterm hmatch hnext

theorem Transition.leaderStep (h : Transition lib nd ev eff)
    (hrole : eff.node.state.role = .leader) : LeaderStep nd eff.node.state ev := by
  cases h with
  | voteRequest => exact leaderStep_handleVoteRequest hrole
  | appendEntries => exact leaderStep_handleAppendEntries hrole
  | installSnapshot => exact leaderStep_handleInstallSnapshot hrole
  | appendCommitted hterm hleader hsuccess hs hmay =>
    subst hs
    exact .matched hleader rfl hterm hsuccess rfl
  | appendMatched hterm hleader hsuccess => exact .matched hleader rfl hterm hsuccess rfl
  | @appendRejected _ src _ _ hterm hleader hsuccess =>
    obtain ⟨nextIndex, hdecrement⟩ := nd.state.decrementNext_eq src
    rw [hdecrement]
    exact .rejected hleader rfl hterm rfl
  | snapshotMatched hterm => exact .installed hrole rfl hterm rfl
  | electionWon he hdone hcandidate hterm hmaj =>
    refine .elected ?_ rfl
    rw [hcandidate]
    exact RaftRole.noConfusion
  | @finishCompaction jobs workers c hc =>
    obtain ⟨log, logOffset, snapshot, hcompact⟩ :=
      nd.state.compactLog_eq ⟨c.lastApplied, c.lastAppliedTerm, jobs, workers⟩
    rw [hcompact] at hrole ⊢
    exact .kept hrole rfl rfl rfl
  | voteStepDown | heartbeatStepDown | appendStepDown | snapshotStepDown | transferDone
  | electionTimeout | timeoutNowElection => cases hrole
  | voteCounted | heartbeatIgnored | appendIgnored | timeoutNowRefused | timeoutNowTaken
  | transferRefused | voteFailed | electionLost | heartbeatTick | replicateTick | appendCommand
  | startTransfer | transferPoll | transferFailed | getCommittedEntries | beginCompaction =>
    exact .kept hrole rfl rfl rfl

end RaftNode

namespace Cluster

def Answered (lib : WireLib) (ids : List ℕ) (Q : Cluster → Action → Prop) (cl : Cluster) (x p : ℕ)
    (request reply : Message) : Prop :=
  ∃ cl₀, Runs.Reach (step lib ids) Q (start ids) cl₀ ∧ Runs.Reach (step lib ids) Q cl₀ cl ∧
    ⟨x, p, request⟩ ∈ cl₀.network ∧ (cl₀.nodes p).answer lib request = some reply

def Reported (lib : WireLib) (ids : List ℕ) (Q : Cluster → Action → Prop) (cl : Cluster)
    (x p term index : ℕ) : Prop :=
  ∃ request reply, reply.request = some request ∧ reply.Accepts term index ∧
    cl.Answered lib ids Q x p request reply

structure Traced (lib : WireLib) (ids : List ℕ) (Q : Cluster → Action → Prop) (cl : Cluster) :
    Prop where
  reply : ∀ pkt ∈ cl.network, ∀ request, pkt.msg.request = some request →
    cl.Answered lib ids Q pkt.dst pkt.src request pkt.msg
  stored : ∀ x, (cl.nodes x).state.role = .leader → ∀ p m,
    (cl.nodes x).state.matchIndex.lookup p = some m →
      m = 0 ∨ cl.Reported lib ids Q x p (cl.nodes x).state.currentTerm m

section Traced

variable {lib : WireLib} {ids : List ℕ} {Q : Cluster → Action → Prop} {cl cl' : Cluster}
  {a : Action}

theorem Answered.mono {x p : ℕ} {request reply : Message}
    (h : cl.Answered lib ids Q x p request reply) (hreach : Runs.Reach (step lib ids) Q cl cl') :
    cl'.Answered lib ids Q x p request reply := by
  obtain ⟨cl₀, hstart, hrest, hsent⟩ := h
  exact ⟨cl₀, hstart, hrest.trans hreach, hsent⟩

theorem Reported.mono {x p term index : ℕ} (h : cl.Reported lib ids Q x p term index)
    (hreach : Runs.Reach (step lib ids) Q cl cl') :
    cl'.Reported lib ids Q x p term index := by
  obtain ⟨request, reply, hrequest, haccepts, hanswered⟩ := h
  exact ⟨request, reply, hrequest, haccepts, hanswered.mono hreach⟩

theorem traced_start : Traced lib ids Q (start ids) where
  reply _ hp := absurd hp List.not_mem_nil
  stored _ hrole := by cases hrole

/-- The answer to an `InstallSnapshot` request is never of a lower term. -/
theorem le_term_of_answer {nd : RaftNode} {req : InstallSnapshotRequest}
    {resp : InstallSnapshotResponse}
    (h : nd.answer lib (.installSnapshot req) = some (.snapshotReply req resp)) :
    req.term ≤ resp.term := by
  obtain ⟨-, rfl⟩ := Message.snapshotReply.inj (Option.some.inj h)
  have hsame : (handleInstallSnapshot lib nd.state req).2.term =
      (handleInstallSnapshot lib nd.state req).1.currentTerm := by
    rw [handleInstallSnapshot]
    split_ifs <;> rfl
  rw [hsame, (handleInstallSnapshot_ballot lib nd.state req).1, RaftState.adoptTerm_currentTerm]
  exact le_max_right _ _

/-- A peer that has answered a snapshot of the leader's term with no greater one is in that term. -/
theorem Answered.snapshotReply_term {x p term : ℕ} {req : InstallSnapshotRequest}
    {resp : InstallSnapshotResponse}
    (h : cl.Answered lib ids Q x p (.installSnapshot req) (.snapshotReply req resp))
    (hsent : req.term = term) (hle : resp.term ≤ term) : resp.term = term := by
  obtain ⟨cl₀, -, -, -, hanswer⟩ := h
  exact le_antisymm hle (hsent ▸ le_term_of_answer hanswer)

theorem Traced.stored_insert (h : Traced lib ids Q cl) {x src index : ℕ}
    (hrole : (cl.nodes x).state.role = .leader)
    (hreported : cl.Reported lib ids Q x src (cl.nodes x).state.currentTerm index) {p m : ℕ}
    (hlookup : ((cl.nodes x).state.matchIndex.insert src index).lookup p = some m) :
    m = 0 ∨ cl.Reported lib ids Q x p (cl.nodes x).state.currentTerm m := by
  by_cases hp : p = src
  · subst hp
    rw [Finmap.lookup_insert] at hlookup
    exact .inr (Option.some.inj hlookup ▸ hreported)
  · rw [Finmap.lookup_insert_of_ne _ hp] at hlookup
    exact h.stored x hrole p m hlookup

theorem reported_of_leaderStep (h : Traced lib ids Q cl) {x : ℕ} {ev : Event} {s : RaftState}
    (hcurrent : (cl.nodes x).HandlesCurrent ev) (hpacket : ∀ p ∈ ev.packet x, p ∈ cl.network)
    (hstep : RaftNode.LeaderStep (cl.nodes x) s ev) {p m : ℕ}
    (hlookup : s.matchIndex.lookup p = some m) :
    m = 0 ∨ cl.Reported lib ids Q x p s.currentTerm m := by
  cases hstep with
  | elected _ hmatch =>
    rw [hmatch, IndexMap.lookup_foldl_insert] at hlookup
    split_ifs at hlookup
    · exact .inl (Option.some.inj hlookup).symm
    · cases hlookup
  | kept hrole hterm hmatch _ | rejected hrole hterm _ hmatch =>
    rw [hmatch] at hlookup
    rw [hterm]
    exact h.stored x hrole p m hlookup
  | @matched task src req resp hrole hterm hle hsuccess hmatch =>
    rw [hmatch] at hlookup
    rw [hterm]
    have hanswered := h.reply _ (hpacket _ rfl) _ rfl
    exact h.stored_insert hrole ⟨_, .appendReply .replication req resp, rfl,
      ⟨hcurrent hrole hle, hsuccess, rfl⟩, hanswered⟩ hlookup
  | @installed task src req resp hrole hterm hle hmatch =>
    rw [hmatch] at hlookup
    rw [hterm]
    have hanswered := h.reply _ (hpacket _ rfl) _ rfl
    have hsent := hcurrent hrole hle
    exact h.stored_insert hrole ⟨_, .snapshotReply req resp, rfl,
      ⟨hsent, hanswered.snapshotReply_term hsent hle, rfl⟩, hanswered⟩ hlookup

theorem Traced.step (h : Traced lib ids Q cl) (hreach : Runs.Reach (step lib ids) Q (start ids) cl)
    (hq : Q cl a) (hcurrent : (cl.nodes a.node).HandlesCurrent a.event)
    (hstep : cl.step lib ids a = some cl') : Traced lib ids Q cl' := by
  have hnext : Runs.Reach (Cluster.step lib ids) Q cl cl' := Runs.Reach.init.next hq hstep
  obtain ⟨eff, -, hpacket, heff, rfl⟩ := step_eq_some hstep
  have htr := RaftNode.transition_of_step heff
  refine ⟨fun pkt hpkt request hrequest => ?_, fun x hrole p m hlookup => ?_⟩
  · rcases List.mem_append.mp hpkt with hold | hnew
    · exact (h.reply pkt hold request hrequest).mono hnext
    · obtain ⟨⟨dst, msg⟩, hsent, rfl⟩ := List.mem_map.mp hnew
      obtain ⟨task, hev, hanswer⟩ := htr.answered hsent hrequest
      refine ⟨cl, hreach, hnext, hpacket _ ?_, hanswer⟩
      rw [hev]
      rfl
  · by_cases hx : x = a.node
    · subst hx
      simp only [Cluster.apply, Function.update_self] at hrole hlookup ⊢
      exact (reported_of_leaderStep h hcurrent hpacket (htr.leaderStep hrole) hlookup).imp_right
        fun hreported => hreported.mono hnext
    · simp only [Cluster.apply, Function.update_of_ne hx] at hrole hlookup ⊢
      exact (h.stored x hrole p m hlookup).imp_right fun hreported => hreported.mono hnext

/-- The indices of a leader only move with a reply to a request of the current term. -/
theorem answers_of_change (h : Traced lib ids Q cl) {x : ℕ}
    (hcurrent : (cl.nodes a.node).HandlesCurrent a.event) (hstep : cl.step lib ids a = some cl')
    (hrole : (cl.nodes x).state.role = .leader) (hrole' : (cl'.nodes x).state.role = .leader)
    (hchange : (cl'.nodes x).state.matchIndex ≠ (cl.nodes x).state.matchIndex ∨
      (cl'.nodes x).state.nextIndex ≠ (cl.nodes x).state.nextIndex) :
    ∃ task p request reply, a = ⟨x, .deliver task p reply⟩ ∧ reply.request = some request ∧
      reply.Answers (cl.nodes x).state.currentTerm ∧ cl.Answered lib ids Q x p request reply := by
  obtain ⟨eff, -, hpacket, heff, rfl⟩ := step_eq_some hstep
  obtain ⟨node, ev⟩ := a
  by_cases hx : x = node
  · subst hx
    simp only [Cluster.apply, Function.update_self] at hrole' hchange
    cases (RaftNode.transition_of_step heff).leaderStep hrole' with
    | elected hne => exact absurd hrole hne
    | kept _ _ hmatch hnext =>
      exact absurd hchange (not_or.mpr ⟨not_not.mpr hmatch, not_not.mpr hnext⟩)
    | @matched task src req resp _ _ hle =>
      exact ⟨task, src, _, _, rfl, rfl, hcurrent hrole hle, h.reply _ (hpacket _ rfl) _ rfl⟩
    | @rejected task src req resp _ _ hle =>
      exact ⟨task, src, _, _, rfl, rfl, hcurrent hrole hle, h.reply _ (hpacket _ rfl) _ rfl⟩
    | @installed task src req resp _ _ hle =>
      have hanswered := h.reply _ (hpacket _ rfl) _ rfl
      have hsent := hcurrent hrole hle
      exact ⟨task, src, _, _, rfl, rfl, ⟨hsent, hanswered.snapshotReply_term hsent hle⟩, hanswered⟩
  · simp only [Cluster.apply, Function.update_of_ne hx] at hchange
    exact absurd hchange (not_or.mpr ⟨not_not.mpr rfl, not_not.mpr rfl⟩)

end Traced

def HandlesCurrent (cl : Cluster) (a : Action) : Prop :=
  (cl.nodes a.node).HandlesCurrent a.event

instance (cl : Cluster) (a : Action) : Decidable (cl.HandlesCurrent a) :=
  inferInstanceAs (Decidable ((cl.nodes a.node).HandlesCurrent a.event))

theorem traced {lib : WireLib} {ids : List ℕ} {cl : Cluster}
    (h : Runs.Reach (step lib ids) HandlesCurrent (start ids) cl) :
    Traced lib ids HandlesCurrent cl := by
  induction h with
  | init => exact traced_start
  | next hreach hq hs ih => exact ih.step hreach hq hq hs

/-- Where leaders are not handed replies to earlier requests, every match index of a leader is
the initial one or reported in its term, and nothing else moves the indices of a leader. -/
theorem stale_replies_do_not_count (lib : WireLib) {ids : List ℕ} {cl : Cluster} {x : ℕ}
    (h : Runs.Reach (step lib ids) HandlesCurrent (start ids) cl)
    (hrole : (cl.nodes x).state.role = .leader) :
    (∀ p m, (cl.nodes x).state.matchIndex.lookup p = some m →
      m = 0 ∨ cl.Reported lib ids HandlesCurrent x p (cl.nodes x).state.currentTerm m) ∧
    ∀ a cl', cl.HandlesCurrent a → cl.step lib ids a = some cl' →
      (cl'.nodes x).state.role = .leader →
      (cl'.nodes x).state.matchIndex ≠ (cl.nodes x).state.matchIndex ∨
        (cl'.nodes x).state.nextIndex ≠ (cl.nodes x).state.nextIndex →
      ∃ task p request reply, a = ⟨x, .deliver task p reply⟩ ∧ reply.request = some request ∧
        reply.Answers (cl.nodes x).state.currentTerm ∧
        cl.Answered lib ids HandlesCurrent x p request reply :=
  ⟨(traced h).stored x hrole, fun _ _ hcurrent hstep hrole' hchange =>
    answers_of_change (traced h) hcurrent hstep hrole hrole' hchange⟩

/-- Leader 1 stores what node 2 has reported for the first entry. -/
theorem first_reply_counts :
    ∃ cl, Runs.Reach (step .standard [1, 2, 3]) HandlesCurrent (start [1, 2, 3]) cl ∧
      (cl.nodes 1).state.currentTerm = 1 ∧ (cl.nodes 1).state.matchIndex.lookup 2 = some 1 ∧
      cl.Reported .standard [1, 2, 3] HandlesCurrent 1 2 (cl.nodes 1).state.currentTerm 1 := by
  obtain ⟨cl, hreach, hrole, hterm, hlookup⟩ := Runs.exists_reach_of_guardedRun
    (step .standard [1, 2, 3]) HandlesCurrent
    (fun cl => (cl.nodes 1).state.role = .leader ∧ (cl.nodes 1).state.currentTerm = 1 ∧
      (cl.nodes 1).state.matchIndex.lookup 2 = some 1) (start [1, 2, 3])
    (electedBy 1 2 1 0 0 ++ [⟨1, .appendCommand .noop⟩, ⟨1, .replicateTick⟩,
      ⟨2, .deliver 0 1 (.appendEntries .replication (wholeLogRequest 1 1 [⟨1, 1, .noop⟩]))⟩,
      ⟨1, .deliver 0 2 (.appendReply .replication (wholeLogRequest 1 1 [⟨1, 1, .noop⟩])
        ⟨1, true, 1⟩)⟩]) (by decide +kernel)
  exact ⟨cl, hreach, hterm, hlookup, ((stale_replies_do_not_count .standard hreach hrole).1 2 1
    hlookup).resolve_left Nat.one_ne_zero⟩

def requestTerm : Message → Option ℕ
  | .appendEntries .replication req => some req.term
  | .installSnapshot req => some req.term
  | _ => none

/-- Node 1 leads term 1, loses to node 2 in term 2 and leads term 3. It has not sent anything in
term 3 when the reply of node 2 to its request of term 1 sets the match index of node 2. -/
theorem stale_reply_counts :
    ¬ ∀ (lib : WireLib) (ids : List ℕ) (cl : Cluster), ids.Nodup →
      Runs.Reach (step lib ids) (fun _ _ => True) (start ids) cl → ∀ x ∈ ids,
      (cl.nodes x).state.role = .leader → ∀ p m,
      (cl.nodes x).state.matchIndex.lookup p = some m → m = 0 ∨ ∃ msg,
        ⟨x, p, msg⟩ ∈ cl.network ∧ requestTerm msg = some (cl.nodes x).state.currentTerm := by
  intro hall
  obtain ⟨cl, hreach, hrole, hlookup, hnone⟩ := Runs.exists_reach_of_guardedRun
    (step .standard [1, 2, 3]) (fun _ _ => True)
    (fun cl => (cl.nodes 1).state.role = .leader ∧
      (cl.nodes 1).state.matchIndex.lookup 2 = some 1 ∧
      ∀ pkt ∈ cl.network, pkt.src = 1 → requestTerm pkt.msg ≠ some (cl.nodes 1).state.currentTerm)
    (start [1, 2, 3])
    (electedBy 1 2 1 0 0 ++ [⟨1, .appendCommand .noop⟩, ⟨1, .replicateTick⟩,
      ⟨2, .deliver 0 1 (.appendEntries .replication (wholeLogRequest 1 1 [⟨1, 1, .noop⟩]))⟩] ++
      electedBy 2 3 2 1 1 ++ [⟨2, .heartbeatTick⟩,
      ⟨1, .deliver 0 2 (.appendEntries .heartbeat ⟨2, 2, 0, 0, [], 0⟩)⟩] ++
      electedBy 1 3 3 1 1 ++ [⟨1, .deliver 0 2 (.appendReply .replication
        (wholeLogRequest 1 1 [⟨1, 1, .noop⟩]) ⟨1, true, 1⟩)⟩]) (by decide +kernel)
  rcases hall .standard [1, 2, 3] cl (by decide) hreach 1 (by decide) hrole 2 1 hlookup with
    hzero | ⟨msg, hmem, hterm⟩
  · cases hzero
  · exact hnone _ hmem rfl hterm

end Cluster
end NomadLite
