import NomadLite.NodeTransition
import NomadLite.ReleaseCalls
import NomadLite.StandardWire

/-!
# When the term of a node grows

`become_follower` sets the term it is given. Three of its callers compare with, or
install, a term captured before an await: the heartbeat task, `start_election` and
`handle_transfer_leadership`. `KeepsTerm` is what keeps these from lowering the term.
The only other step that can lower it is an election after the last term of a `u64`.
-/

namespace NomadLite

open MachineWord

theorem handleAppendEntries_currentTerm (lib : WireLib) (s : RaftState)
    (req : AppendEntriesRequest) :
    (handleAppendEntries lib s req).1.currentTerm = max s.currentTerm req.term := by
  rcases lt_or_ge req.term s.currentTerm with hlt | hge
  · rw [handleAppendEntries_stale hlt]
    exact (max_eq_left hlt.le).symm
  · obtain ⟨log, commitIndex, heq⟩ := handleAppendEntries_eq_setLog lib hge
    rw [heq, max_eq_right hge]
    exact s.follow_currentTerm req.leaderId hge

theorem RaftState.decrementNext_currentTerm (s : RaftState) (peer : ℕ) :
    (s.decrementNext peer).currentTerm = s.currentTerm := by
  obtain ⟨nextIndex, hdecrement⟩ := s.decrementNext_eq peer
  rw [hdecrement]

namespace RaftNode

def next (lib : WireLib) (nd : RaftNode) (ev : Event) : Option RaftNode :=
  (nd.step lib ev).map Effect.node

/-- A step-down against a captured term installs a term that is not below the current one. -/
def KeepsTerm (nd : RaftNode) (ev : Event) : Prop :=
  ∀ t ∈ ev.capturedStepDown, nd.state.currentTerm ≤ t

instance (nd : RaftNode) (ev : Event) : Decidable (nd.KeepsTerm ev) :=
  decidable_of_iff (∀ t ∈ ev.capturedStepDown.toList, nd.state.currentTerm ≤ t)
    (by simp only [Option.mem_toList]; rfl)

variable {lib : WireLib} {nd : RaftNode}

theorem keepsTerm_of_eq_none {ev : Event} (h : ev.capturedStepDown = none) : nd.KeepsTerm ev := by
  intro t ht
  rw [h] at ht
  cases ht

theorem le_iff_keepsTerm {ev : Event} {t : ℕ} (h : ev.capturedStepDown = some t) :
    nd.state.currentTerm ≤ t ↔ nd.KeepsTerm ev := by
  simp only [KeepsTerm, h, Option.mem_def, Option.some.injEq, forall_eq']

/-- The steps other than the captured step-downs never lower the term. -/
theorem Transition.currentTerm_le_iff {ev : Event} {eff : Effect} (h : Transition lib nd ev eff) :
    nd.state.currentTerm ≤ eff.node.state.currentTerm ↔ nd.KeepsTerm ev := by
  cases h with
  | voteStepDown he hreq hsrc hterm => exact le_iff_keepsTerm (if_pos hterm)
  | heartbeatStepDown hterm => exact le_iff_keepsTerm (if_pos hterm)
  | transferDone htr hsent hsrc hreq hsuccess =>
    subst hreq
    exact le_iff_keepsTerm (if_pos hsuccess)
  | voteCounted he hreq hsrc hterm =>
    exact iff_of_true le_rfl (keepsTerm_of_eq_none (if_neg (not_lt.mpr hterm)))
  | heartbeatIgnored hterm =>
    exact iff_of_true le_rfl (keepsTerm_of_eq_none (if_neg (not_lt.mpr hterm)))
  | transferRefused hsuccess => exact iff_of_true le_rfl (keepsTerm_of_eq_none (if_neg hsuccess))
  | voteRequest =>
    exact iff_of_true (keepsVote_handleRequestVote _ _).currentTerm_le (keepsTerm_of_eq_none rfl)
  | appendEntries =>
    rw [handleAppendEntries_state, handleAppendEntries_currentTerm]
    exact iff_of_true (le_max_left _ _) (keepsTerm_of_eq_none rfl)
  | installSnapshot =>
    rw [handleInstallSnapshot_state]
    exact iff_of_true (keepsVote_handleInstallSnapshot lib _ _).currentTerm_le
      (keepsTerm_of_eq_none rfl)
  | appendStepDown hterm => exact iff_of_true hterm.le (keepsTerm_of_eq_none rfl)
  | snapshotStepDown hterm => exact iff_of_true hterm.le (keepsTerm_of_eq_none rfl)
  | appendCommitted hterm hrole hsuccess hs hmay =>
    subst hs
    exact iff_of_true le_rfl (keepsTerm_of_eq_none rfl)
  | appendRejected =>
    exact iff_of_true (RaftState.decrementNext_currentTerm _ _).ge (keepsTerm_of_eq_none rfl)
  | electionTimeout => exact iff_of_true (Nat.le_succ _) (keepsTerm_of_eq_none rfl)
  | timeoutNowElection => exact iff_of_true (Nat.le_succ _) (keepsTerm_of_eq_none rfl)
  | finishCompaction =>
    exact iff_of_true (RaftState.compactLog_currentTerm _ _).ge (keepsTerm_of_eq_none rfl)
  | voteFailed | electionWon | electionLost | heartbeatTick | replicateTick | appendCommand
  | startTransfer | transferPoll | transferFailed | getCommittedEntries | beginCompaction
  | appendMatched | appendIgnored | snapshotMatched | timeoutNowRefused | timeoutNowTaken =>
    exact iff_of_true le_rfl (keepsTerm_of_eq_none rfl)

end RaftNode

/-! ### Elections in a release build -/

def Event.startsElection : Event → Bool
  | .electionTimeout _ | .timeoutNowElection .. => true
  | _ => false

namespace Release

def startElection (nd : RaftNode) (order : List ℕ) (caller : Option (ℕ × TimeoutNowRequest)) :
    Option RaftNode :=
  if order.Nodup ∧ ∀ p ∈ order, p ∈ nd.peers then
    let s := becomeCandidate nd.state nd.id
    let req : VoteRequest := ⟨s.currentTerm, nd.id, s.lastLogIndex, s.lastLogTerm⟩
    some { nd with state := s, elections := nd.elections ++ [⟨req, order, 1, caller⟩] }
  else none

/-- The node after an event. Of the words that a node adds one to only the term is wrapped here:
the indices have no effect on terms. -/
def next (lib : WireLib) (nd : RaftNode) : Event → Option RaftNode
  | .electionTimeout order => startElection nd order none
  | .timeoutNowElection task order =>
    match nd.timeoutNows[task]? with
    | none => none
    | some caller =>
      startElection { nd with timeoutNows := nd.timeoutNows.eraseIdx task } order (some caller)
  | ev => nd.next lib ev

/-- An election leads into a greater term or back to term 0. -/
theorem startElection_currentTerm (nd : RaftNode) {nd' : RaftNode} {order : List ℕ}
    {caller : Option (ℕ × TimeoutNowRequest)} (h : startElection nd order caller = some nd') :
    nd'.state.currentTerm = wrappingAdd u64 nd.state.currentTerm 1 := by
  rw [startElection] at h
  split_ifs at h
  obtain rfl := Option.some.inj h
  rfl

theorem next_currentTerm {lib : WireLib} {nd nd' : RaftNode} {ev : Event}
    (hev : ev.startsElection = true) (h : next lib nd ev = some nd') :
    nd'.state.currentTerm = wrappingAdd u64 nd.state.currentTerm 1 := by
  cases ev with
  | electionTimeout order => exact startElection_currentTerm nd h
  | timeoutNowElection task order =>
    rw [next] at h
    cases hcaller : nd.timeoutNows[task]? with
    | none =>
      rw [hcaller] at h
      cases h
    | some caller =>
      rw [hcaller] at h
      exact startElection_currentTerm { nd with timeoutNows := nd.timeoutNows.eraseIdx task } h
  | _ => cases hev

theorem next_eq {lib : WireLib} {nd : RaftNode} {ev : Event} (hev : ev.startsElection = false) :
    next lib nd ev = nd.next lib ev := by
  cases ev with
  | electionTimeout | timeoutNowElection => cases hev
  | _ => rfl

end Release

namespace RaftNode

variable {lib : WireLib} {nd nd' : RaftNode} {ev : Event}

theorem keepsTerm_of_startsElection (hev : ev.startsElection = true) : nd.KeepsTerm ev := by
  refine keepsTerm_of_eq_none ?_
  cases ev with
  | electionTimeout | timeoutNowElection => rfl
  | _ => cases hev

theorem currentTerm_le_next_iff (h : Release.next lib nd ev = some nd') :
    nd.state.currentTerm ≤ nd'.state.currentTerm ↔
      nd.KeepsTerm ev ∧ (ev.startsElection = true → nd.state.currentTerm + 1 < u64) := by
  cases hev : ev.startsElection with
  | true =>
    rw [Release.next_currentTerm hev h, le_wrappingAdd_one_iff u64 (by decide)]
    exact ⟨fun hlt => ⟨keepsTerm_of_startsElection hev, fun _ => hlt⟩, fun hk => hk.2 rfl⟩
  | false =>
    rw [Release.next_eq hev] at h
    obtain ⟨eff, hstep, rfl⟩ := Option.map_eq_some_iff.mp h
    rw [(transition_of_step hstep).currentTerm_le_iff]
    exact (and_iff_left fun hstarts => absurd hstarts (by decide)).symm

/-- The term of a node never decreases along a run exactly when no captured step-down of the run
installs a term below the current one and no election starts in the last term of a `u64`. -/
theorem term_monotone_iff (lib : WireLib) (nd : RaftNode) (evs : List Event) :
    Runs.Along (Release.next lib)
        (fun nd ev => ∀ nd', Release.next lib nd ev = some nd' →
          nd.state.currentTerm ≤ nd'.state.currentTerm) nd evs ↔
      Runs.Along (Release.next lib)
        (fun nd ev => (Release.next lib nd ev).isSome → nd.KeepsTerm ev ∧
          (ev.startsElection = true → nd.state.currentTerm + 1 < u64)) nd evs := by
  refine Runs.along_congr (fun nd ev => ?_) nd evs
  cases hnext : Release.next lib nd ev with
  | none =>
    refine iff_of_true (fun nd' h => ?_) (fun h => ?_)
    · cases h
    · cases h
  | some nd₁ =>
    have hiff := currentTerm_le_next_iff hnext
    constructor
    · exact fun h _ => hiff.mp (h nd₁ rfl)
    · rintro hk nd' hnd'
      obtain rfl := Option.some.inj hnd'
      exact hiff.mpr (hk rfl)

/-- Candidate 1 asks node 2 in term 1, learns of term 5 from candidate 3, and then handles the
reply of node 2, which was in term 3. -/
theorem term_decreases :
    ¬ ∀ (lib : WireLib) (nd : RaftNode) (evs : List Event),
      Runs.Along (Release.next lib)
        (fun nd ev => ∀ nd', Release.next lib nd ev = some nd' →
          nd.state.currentTerm ≤ nd'.state.currentTerm) nd evs := by
  intro hall
  have hrun := hall .standard (.new 1 [2, 3])
    [.electionTimeout [2, 3], .deliver 0 3 (.voteRequest ⟨5, 3, 0, 0⟩),
      .deliver 0 2 (.voteReply ⟨1, 1, 0, 0⟩ ⟨3, false⟩)]
  have hlast := ((hrun.2 _ rfl).2 _ rfl).1 _ rfl
  exact absurd hlast (by decide)

end RaftNode
end NomadLite
