import NomadLite.ClientCluster
import NomadLite.ClusterRestart

/-!
# A cluster that starts as a whole

When all nodes have stopped nothing is under way, and each node comes back with its
log but without knowing how much of it is committed. A new leader counts entries of
its own term only, and it appends none when it is elected. Until somebody proposes a
command no node commits or applies anything beyond the stored snapshots, whoever is
elected and whatever is replicated.
-/

namespace NomadLite

/-- No entry is newer than the term of its node. Where nothing is appended, candidates and leaders
have entries of earlier terms only. -/
structure RaftState.Dated (quiet : Prop) (s : RaftState) : Prop where
  le : ∀ e ∈ s.log, e.term ≤ s.currentTerm
  lt : quiet → s.role ≠ .follower → ∀ e ∈ s.log, e.term < s.currentTerm

def Message.Dated : Message → Prop
  | .appendEntries _ req => ∀ p ∈ req.entries, p.term ≤ req.term
  | _ => True

structure RaftNode.Held (K : ℕ) (nd : RaftNode) : Prop where
  commitIndex : nd.state.commitIndex ≤ K
  lastApplied : nd.state.lastApplied ≤ K
  snapshot : ∀ snap ∈ nd.state.snapshot, snap.lastIncludedIndex ≤ K
  compaction : ∀ c ∈ nd.compaction, c.lastApplied ≤ K

def Message.Held (K : ℕ) : Message → Prop
  | .appendEntries _ req => req.leaderCommit ≤ K
  | .installSnapshot req => req.lastIncludedIndex ≤ K
  | _ => True

/-! ### The terms of the entries -/

section Logs

variable {lib : WireLib} {s s' : RaftState}

theorem exists_proto_of_mem_decodeEntries {entries : List Proto.LogEntry} {e : LogEntry}
    (he : e ∈ decodeEntries lib entries) : ∃ p ∈ entries, p.term = e.term := by
  obtain ⟨p, hp, hdecode⟩ := List.mem_filterMap.mp he
  obtain ⟨command, -, rfl⟩ := Option.map_eq_some_iff.mp hdecode
  exact ⟨p, hp, rfl⟩

/-- A newer term makes the node a follower, and an older one changes nothing. -/
theorem adoptTerm_role_or (s : RaftState) (term : ℕ) :
    (s.adoptTerm term).role = .follower ∨ (s.adoptTerm term).role = s.role := by
  rw [RaftState.adoptTerm]
  split_ifs
  · exact .inl rfl
  · exact .inr rfl

theorem RaftState.Dated.of_subset {quiet : Prop} (h : s.Dated quiet) (hlog : s'.log ⊆ s.log)
    (hterm : s.currentTerm ≤ s'.currentTerm)
    (hrole : s'.role = .follower ∨ s'.role = s.role ∨ s.currentTerm < s'.currentTerm) :
    s'.Dated quiet where
  le e he := (h.le e (hlog he)).trans hterm
  lt hquiet hne e he := by
    rcases hrole with hfollower | hsame | hlt
    · exact absurd hfollower hne
    · exact (h.lt hquiet (hsame ▸ hne) e (hlog he)).trans_le hterm
    · exact (h.le e (hlog he)).trans_lt hlt

end Logs

namespace RaftNode

variable {lib : WireLib} {nd : RaftNode} {ev : Event} {eff : Effect} {quiet : Prop} {K : ℕ}

theorem Transition.dated (h : Transition lib nd ev eff) (hnd : nd.state.Dated quiet)
    (hkeeps : nd.KeepsTerm ev) (hquiet : quiet → ev.isAppendCommand = false)
    (hmsg : ∀ task src msg, ev = .deliver task src msg → msg.Dated) :
    eff.node.state.Dated quiet := by
  have hterm := h.currentTerm_le_iff.mpr hkeeps
  cases h with
  | @voteRequest _ src req =>
    have hlog := (handleRequestVote_log nd.state req).2.1
    refine hnd.of_subset (fun e he => hlog ▸ he) hterm ?_
    have hrole := adoptTerm_role_or nd.state req.term
    rcases handleRequestVote_cases nd.state req with heq | ⟨-, -, -, heq⟩
    · rw [handleVoteRequest, heq]
      exact hrole.imp_right .inl
    · rw [handleVoteRequest, heq]
      exact hrole.imp_right .inl
  | @appendEntries task src kind req =>
    rw [handleAppendEntries_state] at hterm ⊢
    have hentries : ∀ p ∈ req.entries, p.term ≤ req.term := hmsg task src _ rfl
    refine ⟨fun e he => ?_, fun hq hne => ?_⟩
    · rcases mem_log_handleAppendEntries he with hold | ⟨hge, hnew⟩
      · exact (hnd.le e hold).trans hterm
      · obtain ⟨p, hp, hpe⟩ := exists_proto_of_mem_decodeEntries hnew
        rw [← hpe, (handleAppendEntries_follower lib hge).1]
        exact hentries p hp
    · rcases lt_or_ge req.term nd.state.currentTerm with hlt | hge
      · rw [handleAppendEntries_stale hlt] at hne ⊢
        exact hnd.lt hq hne
      · exact absurd (handleAppendEntries_follower lib hge).2.1 hne
  | @installSnapshot _ src req =>
    rw [handleInstallSnapshot_state] at hterm ⊢
    refine hnd.of_subset (log_handleInstallSnapshot_subset lib nd.state req) hterm ?_
    rw [(handleInstallSnapshot_ballot lib nd.state req).2.2]
    exact (adoptTerm_role_or nd.state req.term).imp_right .inl
  | voteStepDown | heartbeatStepDown | appendStepDown | snapshotStepDown | transferDone =>
    exact hnd.of_subset (List.Subset.refl _) hterm (.inl rfl)
  | electionTimeout | timeoutNowElection =>
    exact hnd.of_subset (List.Subset.refl _) hterm (.inr (.inr (Nat.lt_succ_self _)))
  | electionWon he hdone hrole =>
    refine ⟨hnd.le, fun hq _ => hnd.lt hq ?_⟩
    rw [hrole]
    exact RaftRole.noConfusion
  | appendCommitted _ _ _ hs =>
    subst hs
    exact hnd.of_subset (List.Subset.refl _) hterm (.inr (.inl rfl))
  | @appendRejected _ src =>
    obtain ⟨nextIndex, hdecrement⟩ := nd.state.decrementNext_eq src
    rw [hdecrement] at hterm ⊢
    exact hnd.of_subset (List.Subset.refl _) hterm (.inr (.inl rfl))
  | appendCommand =>
    refine ⟨fun e he => ?_, fun hq => absurd (hquiet hq) Bool.noConfusion⟩
    rcases List.mem_append.mp he with hold | hnew
    · exact hnd.le e hold
    · rw [List.mem_singleton.mp hnew]
      exact le_rfl
  | finishCompaction =>
    refine hnd.of_subset (log_compactLog_subset _ _) hterm (.inr (.inl ?_))
    obtain ⟨log, logOffset, snapshot, heq⟩ := nd.state.compactLog_eq _
    rw [heq]
  | voteCounted | heartbeatIgnored | appendMatched | appendIgnored | snapshotMatched
  | timeoutNowRefused | timeoutNowTaken | transferRefused | voteFailed | electionLost
  | heartbeatTick | replicateTick | startTransfer | transferPoll | transferFailed
  | getCommittedEntries | beginCompaction => exact ⟨hnd.le, hnd.lt⟩

theorem Transition.sent_dated (h : Transition lib nd ev eff) (hnd : nd.state.Dated quiet)
    {dst : ℕ} {msg : Message} (hsent : (dst, msg) ∈ eff.sent) : msg.Dated := by
  cases h.sends hsent with
  | heartbeat => exact fun p hp => absurd hp List.not_mem_nil
  | append next =>
    intro p hp
    obtain ⟨e, he, rfl⟩ := List.mem_map.mp hp
    exact hnd.le e (nd.state.getEntriesFrom_subset _ (List.mem_filter.mp he).1)
  | _ => trivial

/-! ### What is known to be committed -/

/-- There is no entry of the leader's own term to count. -/
theorem not_mayCommit (hnd : nd.state.Dated True) (hrole : nd.state.role = .leader)
    (peer matchIndex index : ℕ) : ¬ (nd.state.recordMatch peer matchIndex).mayCommit index := by
  rintro ⟨-, hterm⟩
  obtain ⟨e, he, heq⟩ := Option.map_eq_some_iff.mp hterm
  have hmem : e ∈ nd.state.log := by
    rw [RaftState.getEntry] at he
    split_ifs at he
    exact List.mem_of_getElem? he
  have hlt := hnd.lt trivial (by rw [hrole]; exact RaftRole.noConfusion) e hmem
  exact hlt.ne heq

theorem Held.handleAppendEntries (h : nd.Held K) (src : ℕ) (kind : AppendKind)
    {req : AppendEntriesRequest} (hreq : req.leaderCommit ≤ K) :
    (nd.handleAppendEntries lib src kind req).node.Held K := by
  have hframe : (nd.handleAppendEntries lib src kind req).node.compaction = nd.compaction := by
    simp only [RaftNode.handleAppendEntries]
    split_ifs <;> rfl
  have happlied : (NomadLite.handleAppendEntries lib nd.state req).1.lastApplied =
      nd.state.lastApplied := by
    rcases lt_or_ge req.term nd.state.currentTerm with hlt | hge
    · rw [handleAppendEntries_stale hlt]
    · obtain ⟨log, commitIndex, heq⟩ := handleAppendEntries_eq_setLog lib hge
      rw [heq]
      change (nd.state.follow req.term req.leaderId).lastApplied = _
      exact RaftState.follow_lastApplied
  constructor
  · rw [handleAppendEntries_state]
    rcases handleAppendEntries_commitIndex lib nd.state req with heq | ⟨-, -, -, -, heq⟩
    · exact heq.trans_le h.commitIndex
    · exact heq.trans_le ((min_le_left _ _).trans hreq)
  · rw [handleAppendEntries_state, happlied]
    exact h.lastApplied
  · rw [handleAppendEntries_state, (handleAppendEntries_offset lib nd.state req).2]
    exact h.snapshot
  · rw [hframe]
    exact h.compaction

theorem Held.handleInstallSnapshot (h : nd.Held K) (src : ℕ) {req : InstallSnapshotRequest}
    (hreq : req.lastIncludedIndex ≤ K) :
    (nd.handleInstallSnapshot lib src req).node.Held K := by
  have hframe : (nd.handleInstallSnapshot lib src req).node.compaction = nd.compaction := by
    simp only [RaftNode.handleInstallSnapshot]
    split_ifs <;> rfl
  have hadopted : (nd.state.adoptTerm req.term).commitIndex ≤ K ∧
      (nd.state.adoptTerm req.term).lastApplied ≤ K ∧
      ∀ snap ∈ (nd.state.adoptTerm req.term).snapshot, snap.lastIncludedIndex ≤ K := by
    rw [RaftState.adoptTerm_commitIndex, RaftState.adoptTerm_lastApplied,
      RaftState.adoptTerm_snapshot]
    exact ⟨h.commitIndex, h.lastApplied, h.snapshot⟩
  have hstate : (NomadLite.handleInstallSnapshot lib nd.state req).1.commitIndex ≤ K ∧
      (NomadLite.handleInstallSnapshot lib nd.state req).1.lastApplied ≤ K ∧
      ∀ snap ∈ (NomadLite.handleInstallSnapshot lib nd.state req).1.snapshot,
        snap.lastIncludedIndex ≤ K := by
    rw [NomadLite.handleInstallSnapshot]
    split_ifs
    · exact hadopted
    · simp only [RaftState.installSnapshot]
      split_ifs
      · exact hadopted
      · refine ⟨max_le hadopted.1 hreq, max_le hadopted.2.1 hreq, fun snap hsnap => ?_⟩
        rw [← Option.some.inj hsnap]
        exact hreq
  rw [← handleInstallSnapshot_state nd src req] at hstate
  exact ⟨hstate.1, hstate.2.1, hstate.2.2, hframe ▸ h.compaction⟩

theorem Held.step (h : nd.Held K) (hdated : nd.state.Dated True)
    (hmsg : ∀ task src msg, ev = .deliver task src msg → msg.Held K)
    (hstep : nd.step lib ev = some eff) : eff.node.Held K := by
  cases transition_of_step hstep with
  | @voteRequest _ src req =>
    have hsame : (handleRequestVote nd.state req).1.commitIndex = nd.state.commitIndex ∧
        (handleRequestVote nd.state req).1.lastApplied = nd.state.lastApplied ∧
        (handleRequestVote nd.state req).1.snapshot = nd.state.snapshot := by
      rcases handleRequestVote_cases nd.state req with heq | ⟨-, -, -, heq⟩ <;> rw [heq] <;>
        exact ⟨RaftState.adoptTerm_commitIndex, RaftState.adoptTerm_lastApplied,
          RaftState.adoptTerm_snapshot⟩
    exact ⟨hsame.1.trans_le h.commitIndex, hsame.2.1.trans_le h.lastApplied,
      hsame.2.2.symm ▸ h.snapshot, h.compaction⟩
  | @appendEntries task src kind req => exact h.handleAppendEntries src kind (hmsg task src _ rfl)
  | @installSnapshot task src req => exact h.handleInstallSnapshot src (hmsg task src _ rfl)
  | appendCommitted hterm hrole hsuccess hs hmay =>
    subst hs
    exact absurd hmay (not_mayCommit hdated hrole _ _ _)
  | @appendRejected _ src =>
    obtain ⟨nextIndex, hdecrement⟩ := nd.state.decrementNext_eq src
    rw [hdecrement]
    exact ⟨h.commitIndex, h.lastApplied, h.snapshot, h.compaction⟩
  | getCommittedEntries =>
    exact ⟨h.commitIndex, max_le h.lastApplied h.commitIndex, h.snapshot, h.compaction⟩
  | beginCompaction =>
    simp only [RaftNode.step, RaftNode.beginCompaction] at hstep
    split_ifs at hstep
    rw [← congrArg Effect.node (Option.some.inj hstep)]
    refine ⟨h.commitIndex, h.lastApplied, h.snapshot, fun c hc => ?_⟩
    rw [← Option.some.inj hc]
    exact h.lastApplied
  | @finishCompaction jobs workers c hc =>
    have hcompacted : ∀ snap ∈ (nd.state.compactLog
        ⟨c.lastApplied, c.lastAppliedTerm, jobs, workers⟩).snapshot,
        snap.lastIncludedIndex ≤ K := by
      rw [RaftState.compactLog]
      split_ifs
      · exact h.snapshot
      · intro snap hsnap
        rw [← Option.some.inj hsnap]
        exact h.compaction c hc
    obtain ⟨log, logOffset, snapshot, heq⟩ := nd.state.compactLog_eq
      ⟨c.lastApplied, c.lastAppliedTerm, jobs, workers⟩
    refine ⟨?_, ?_, hcompacted, fun c' hc' => absurd hc' (Option.not_mem_none c')⟩
    · rw [heq]
      exact h.commitIndex
    · rw [heq]
      exact h.lastApplied
  | voteStepDown | voteCounted | heartbeatStepDown | heartbeatIgnored | appendStepDown
  | appendMatched | appendIgnored | snapshotStepDown | snapshotMatched | timeoutNowRefused
  | timeoutNowTaken | transferDone | transferRefused | electionTimeout | timeoutNowElection
  | voteFailed | electionWon | electionLost | heartbeatTick | replicateTick | appendCommand
  | startTransfer | transferPoll | transferFailed =>
    exact ⟨h.commitIndex, h.lastApplied, h.snapshot, h.compaction⟩

theorem Transition.sent_held (h : Transition lib nd ev eff) (hnd : nd.Held K) {dst : ℕ}
    {msg : Message} (hsent : (dst, msg) ∈ eff.sent) : msg.Held K := by
  cases h.sends hsent with
  | heartbeat | append => exact hnd.commitIndex
  | snapshot hsnap => exact hnd.snapshot _ hsnap
  | _ => trivial

/-- A restart forgets what is committed beyond the snapshot. -/
theorem held_restarted (hsnap : ∀ snap ∈ nd.state.snapshot, snap.lastIncludedIndex ≤ K) :
    nd.restarted.Held K := by
  have hzero : (nd.state.snapshot.map Snapshot.lastIncludedIndex).getD 0 ≤ K := by
    cases hs : nd.state.snapshot with
    | none => exact Nat.zero_le K
    | some snap => exact hsnap snap hs
  exact ⟨hzero, hzero, hsnap, fun c hc => absurd hc (Option.not_mem_none c)⟩

theorem dated_restarted (h : nd.state.Dated quiet) (quiet' : Prop) :
    nd.restarted.state.Dated quiet' :=
  ⟨h.le, fun _ hne => absurd rfl hne⟩

end RaftNode

namespace Cluster

variable {lib : WireLib} {ids : List ℕ} {cl cl' : Cluster} {K : ℕ} {quiet : Prop}

/-- All nodes stop before any of them starts again: nothing stays in the network. -/
def restartAll (cl : Cluster) : Cluster :=
  ⟨fun x => (cl.nodes x).restarted, [], cl.history⟩

def KeepsTerms (cl : Cluster) (a : Action) : Prop := (cl.nodes a.node).KeepsTerm a.event

instance (cl : Cluster) (a : Action) : Decidable (cl.KeepsTerms a) :=
  inferInstanceAs (Decidable ((cl.nodes a.node).KeepsTerm a.event))

def KeepsTermsQuietly (cl : Cluster) (a : Action) : Prop :=
  cl.KeepsTerms a ∧ a.event.isAppendCommand = false

instance (cl : Cluster) (a : Action) : Decidable (cl.KeepsTermsQuietly a) :=
  inferInstanceAs (Decidable (_ ∧ _))

def Dated (quiet : Prop) (ids : List ℕ) : Cluster → Prop :=
  Linked ids (fun _ nd => nd.state.Dated quiet) (fun p => p.msg.Dated) fun _ _ => True

def Held (K : ℕ) (ids : List ℕ) : Cluster → Prop :=
  Linked ids (fun _ nd => nd.Held K) (fun p => p.msg.Held K) fun _ _ => True

theorem Dated.step (h : cl.Dated quiet ids) {a : Action} (hkeeps : cl.KeepsTerms a)
    (hquiet : quiet → a.event.isAppendCommand = false) (hs : cl.step lib ids a = some cl') :
    cl'.Dated quiet ids := by
  obtain ⟨eff, hx, hpacket, hstep, rfl⟩ := step_eq_some hs
  have htr := RaftNode.transition_of_step hstep
  refine h.apply (fun _ _ _ hy => hy) (fun _ _ hp => hp) (fun _ _ _ _ => trivial) ?_
    (fun dst msg hm => htr.sent_dated (h.node _ hx) hm) fun _ _ => trivial
  exact htr.dated (h.node _ hx) hkeeps hquiet fun task src msg heq =>
    h.packet ⟨src, a.node, msg⟩ (hpacket _ (by rw [heq]; rfl))

theorem Dated.restart (h : cl.Dated quiet ids) {x : ℕ} (hx : x ∈ ids) :
    (cl.restart x).Dated quiet ids :=
  h.apply (fun _ _ _ hy => hy) (fun _ _ hp => hp) (fun _ _ _ _ => trivial)
    (RaftNode.dated_restarted (h.node x hx) quiet)
    (fun _ _ hm => absurd hm List.not_mem_nil) fun _ _ => trivial

theorem Held.step (h : cl.Held K ids) (hdated : cl.Dated True ids) {a : Action}
    (hs : cl.step lib ids a = some cl') : cl'.Held K ids := by
  obtain ⟨eff, hx, hpacket, hstep, rfl⟩ := step_eq_some hs
  have htr := RaftNode.transition_of_step hstep
  refine h.apply (fun _ _ _ hy => hy) (fun _ _ hp => hp) (fun _ _ _ _ => trivial) ?_
    (fun dst msg hm => htr.sent_held (h.node _ hx) hm) fun _ _ => trivial
  exact (h.node _ hx).step (hdated.node _ hx) (fun task src msg heq =>
    h.packet ⟨src, a.node, msg⟩ (hpacket _ (by rw [heq]; rfl))) hstep

theorem Held.restart (h : cl.Held K ids) {x : ℕ} (hx : x ∈ ids) : (cl.restart x).Held K ids :=
  h.apply (fun _ _ _ hy => hy) (fun _ _ hp => hp) (fun _ _ _ _ => trivial)
    (RaftNode.held_restarted (h.node x hx).snapshot)
    (fun _ _ hm => absurd hm List.not_mem_nil) fun _ _ => trivial

theorem dated_of_faulty
    (h : Runs.Reach (faultyStep lib ids) (FaultyAction.Meets KeepsTerms) (start ids) cl) :
    cl.Dated False ids := by
  have hstart : (start ids).Dated False ids := linked_start fun _ _ =>
    ⟨fun e he => absurd he List.not_mem_nil, False.elim⟩
  exact faulty_invariant h hstart (fun hd hq hs => hd.step hq False.elim hs) fun hx hd =>
    hd.restart hx

/-- After all nodes have been down at once, no node commits or applies an entry above the largest
stored snapshot as long as no command is proposed. Elections, replication, heartbeats and further
restarts do not change that. -/
theorem nothing_commits_before_proposal (lib : WireLib)
    (h : Runs.Reach (faultyStep lib ids) (FaultyAction.Meets KeepsTerms) (start ids) cl)
    (hsnap : ∀ x ∈ ids, ∀ snap ∈ (cl.nodes x).state.snapshot, snap.lastIncludedIndex ≤ K)
    (h' : Runs.Reach (faultyStep lib ids) (FaultyAction.Meets KeepsTermsQuietly) cl.restartAll cl')
    {x : ℕ} (hx : x ∈ ids) :
    (cl'.nodes x).state.commitIndex ≤ K ∧ (cl'.nodes x).state.lastApplied ≤ K := by
  have hdated := dated_of_faulty h
  have hboth : cl'.Dated True ids ∧ cl'.Held K ids := by
    refine h'.invariant (P := fun cl => cl.Dated True ids ∧ cl.Held K ids) ⟨?_, ?_⟩
      fun {cl cl' fa} hP hq hs => ?_
    · exact ⟨fun y hy => RaftNode.dated_restarted (hdated.node y hy) True,
        fun _ hp => absurd hp List.not_mem_nil, fun _ _ _ => trivial⟩
    · exact ⟨fun y hy => RaftNode.held_restarted (hsnap y hy),
        fun _ hp => absurd hp List.not_mem_nil, fun _ _ _ => trivial⟩
    · cases fa with
      | act a => exact ⟨hP.1.step hq.1 (fun _ => hq.2) hs, hP.2.step hP.1 hs⟩
      | restart y =>
        rw [faultyStep] at hs
        split_ifs at hs with hy
        obtain rfl := Option.some.inj hs
        exact ⟨hP.1.restart hy, hP.2.restart hy⟩
  exact ⟨(hboth.2.node x hx).commitIndex, (hboth.2.node x hx).lastApplied⟩

def replicatedInTermTwo : List Action :=
  electedBy 2 3 2 1 1 ++ [⟨2, .replicateTick⟩, ⟨2, .heartbeatTick⟩,
    ⟨3, .deliver 0 2 (.appendEntries .heartbeat ⟨2, 2, 0, 0, [], 0⟩)⟩, ⟨3, .getCommittedEntries⟩,
    ⟨2, .getCommittedEntries⟩]

def LeadsWithEntry (cl : Cluster) : Prop :=
  (cl.nodes 2).state.role = .leader ∧ (cl.nodes 2).state.log = [⟨1, 1, .noop⟩]

instance : DecidablePred LeadsWithEntry := fun _ => inferInstanceAs (Decidable (_ ∧ _))

def CommittedUncompacted (cl : Cluster) : Prop :=
  (cl.nodes 1).state.commitIndex = 1 ∧ ∀ x ∈ [1, 2, 3], (cl.nodes x).state.snapshot = none

instance : DecidablePred CommittedUncompacted := fun cl =>
  inferInstanceAs (Decidable (_ ∧ ∀ x ∈ [1, 2, 3], (cl.nodes x).state.snapshot = none))

/-- The entry that leader 1 had committed is still in the log of its successor, which has nothing
committed. -/
theorem nothing_commits_after_two_hold_entry : ∃ cl cl',
    Runs.Reach (faultyStep .standard [1, 2, 3]) (FaultyAction.Meets KeepsTerms)
        (start [1, 2, 3]) cl ∧ (cl.nodes 1).state.commitIndex = 1 ∧
      Runs.Reach (faultyStep .standard [1, 2, 3]) (FaultyAction.Meets KeepsTermsQuietly)
        cl.restartAll cl' ∧ cl'.LeadsWithEntry ∧ (cl'.nodes 2).state.commitIndex ≤ 0 ∧
      (cl'.nodes 2).state.lastApplied ≤ 0 := by
  obtain ⟨cl, hreach, ⟨hcommit, hsnap⟩, hrun⟩ := Runs.exists_reach_of_guardedRun
    (faultyStep .standard [1, 2, 3]) (FaultyAction.Meets KeepsTerms)
    (fun cl => cl.CommittedUncompacted ∧
      (Runs.guardedRun (faultyStep .standard [1, 2, 3]) (FaultyAction.Meets KeepsTermsQuietly)
        cl.restartAll (replicatedInTermTwo.map .act)).any
          (fun cl' => decide cl'.LeadsWithEntry) = true)
    (start [1, 2, 3]) (committedByTwo.map .act) (by decide +kernel)
  obtain ⟨cl', hreach', hleads⟩ := Runs.exists_reach_of_guardedRun
    (faultyStep .standard [1, 2, 3]) (FaultyAction.Meets KeepsTermsQuietly) LeadsWithEntry
    cl.restartAll (replicatedInTermTwo.map .act) hrun
  have hnone : ∀ x ∈ [1, 2, 3], ∀ snap ∈ (cl.nodes x).state.snapshot,
      snap.lastIncludedIndex ≤ 0 := by
    intro x hx snap hmem
    rw [hsnap x hx] at hmem
    cases hmem
  exact ⟨cl, cl', hreach, hcommit, hreach', hleads,
    nothing_commits_before_proposal .standard hreach hnone hreach' (by decide)⟩

end Cluster
end NomadLite
