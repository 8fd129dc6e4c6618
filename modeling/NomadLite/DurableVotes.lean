import NomadLite.CrashRecovery
import NomadLite.VoteOnce

/-!
# Votes across restarts

A reply or a request leaves the node only after the hard state has been written, the
term before the vote. A process that stops between the two is started again in the new
term with the vote of an older one, which nobody has seen in that term. So a vote is
never given twice as long as no operation takes it back in memory.
-/

namespace NomadLite

structure DurableVoter where
  node : DurableNode
  supported : List (ℕ × ℕ)
deriving DecidableEq

namespace DurableOp

def support (s : RaftState) : DurableOp → Option (ℕ × ℕ)
  | .handleVoteRequest req =>
    if (handleRequestVote s req).2.voteGranted then
      some ((handleRequestVote s req).1.currentTerm, req.candidateId)
    else none
  | .startElection myId => some ((s.becomeCandidate myId).currentTerm, myId)
  | _ => none

/-- An `AppendEntries` request of the node's own term finds it a follower or without a vote, a
step-down against a captured term leads into a greater term, or there is no vote to lose, and an
election finds a next term. -/
def KeepsOwnVote (s : RaftState) : DurableOp → Prop
  | .handleAppendEntries req =>
    req.term = s.currentTerm → s.role = .follower ∨ s.votedFor = none
  | .stepDown term => s.currentTerm < term ∨ (term = s.currentTerm ∧ s.votedFor = none)
  | .startElection _ => s.currentTerm + 1 < MachineWord.u64
  | _ => True

instance (s : RaftState) : (op : DurableOp) → Decidable (op.KeepsOwnVote s)
  | .handleAppendEntries _ => inferInstanceAs (Decidable (_ → _))
  | .stepDown _ => inferInstanceAs (Decidable (_ ∨ _))
  | .startElection _ => inferInstanceAs (Decidable (s.currentTerm + 1 < MachineWord.u64))
  | .handleVoteRequest _ | .handleInstallSnapshot _ | .handleAppendCommand _
  | .finishElection .. | .handleAppendReply .. | .handleSnapshotReply .. | .getCommittedEntries
  | .maybeCompactLog .. => isTrue trivial

end DurableOp

def CrashAction.KeepsOwnVote (v : DurableVoter) : CrashAction → Prop
  | .run op | .crash op _ => op.KeepsOwnVote v.node.state

instance (v : DurableVoter) : (action : CrashAction) → Decidable (action.KeepsOwnVote v)
  | .run op | .crash op _ => inferInstanceAs (Decidable (op.KeepsOwnVote v.node.state))

namespace DurableVoter

def start : DurableVoter := ⟨.start, []⟩

/-- An operation that is cut short supports nobody: its reply or its requests are not sent. -/
def step (lib : WireLib) (v : DurableVoter) : CrashAction → Option DurableVoter
  | .run op => (v.node.step lib op).map fun node =>
      ⟨node, (op.support v.node.state).toList ++ v.supported⟩
  | .crash op writes => (v.node.crashStep lib (.crash op writes)).map fun node =>
      ⟨node, v.supported⟩

end DurableVoter

/-! ### Term and vote on disk -/

def DiskWrite.isBallot : DiskWrite → Bool
  | .putTerm _ | .putVotedFor _ => true
  | _ => false

namespace Disk

def SameBallot (d d' : Disk) : Prop := d'.term = d.term ∧ d'.votedFor = d.votedFor

theorem sameBallot_writeAll (d : Disk) {ws : List DiskWrite} (h : ∀ w ∈ ws, w.isBallot = false) :
    d.SameBallot (d.writeAll ws) := by
  induction ws generalizing d with
  | nil => exact ⟨rfl, rfl⟩
  | cons w ws ih =>
    obtain ⟨hterm, hvote⟩ := ih (d.write w) fun w' hw' => h w' (List.mem_cons_of_mem _ hw')
    have hfirst : d.SameBallot (d.write w) := by
      have hw := h w (List.mem_cons_self ..)
      cases w with
      | putTerm term => cases hw
      | putVotedFor votedFor => cases hw
      | _ => exact ⟨rfl, rfl⟩
    exact ⟨hterm.trans hfirst.1, hvote.trans hfirst.2⟩

/-- A hard state cut short: nothing of it, the term alone, or term and vote. -/
theorem ballot_take (d : Disk) (s : RaftState) {ws : List DiskWrite}
    (h : ∀ w ∈ ws, w.isBallot = false) (k : ℕ) :
    d.SameBallot (d.writeAll ((s.saveHardState ++ ws).take k)) ∨
      ((d.writeAll ((s.saveHardState ++ ws).take k)).term = some s.currentTerm ∧
        ((d.writeAll ((s.saveHardState ++ ws).take k)).votedFor = d.votedFor ∨
          (d.writeAll ((s.saveHardState ++ ws).take k)).votedFor = some s.votedFor)) := by
  rcases k with _ | _ | k
  · exact .inl ⟨rfl, rfl⟩
  · exact .inr ⟨rfl, .inl rfl⟩
  · have hrest : ∀ w ∈ ((DiskWrite.putLogOffset s.logOffset) :: ws).take k,
        w.isBallot = false := fun w hw => by
      rcases List.mem_cons.mp (List.mem_of_mem_take hw) with rfl | hw
      · rfl
      · exact h w hw
    obtain ⟨hterm, hvote⟩ := sameBallot_writeAll
      (d.writeAll [.putTerm s.currentTerm, .putVotedFor s.votedFor]) hrest
    exact .inr ⟨hterm, .inr hvote⟩

end Disk

theorem isBallot_saveSnapshot (s : RaftState) (d : Disk) :
    ∀ w ∈ s.saveSnapshot d, w.isBallot = false := by
  intro w hw
  rw [RaftState.saveSnapshot] at hw
  cases hsnap : s.snapshot with
  | none =>
    rw [hsnap] at hw
    exact absurd hw List.not_mem_nil
  | some snapshot =>
    rw [hsnap] at hw
    rcases List.mem_append.mp hw with hw | hw
    · simp only [List.mem_cons, List.not_mem_nil, or_false] at hw
      rcases hw with rfl | rfl <;> rfl
    · split_ifs at hw
      · obtain ⟨i, -, rfl⟩ := List.mem_map.mp hw
        rfl
      · exact absurd hw List.not_mem_nil

theorem isBallot_truncateFrom (d : Disk) (i : ℕ) :
    ∀ w ∈ d.truncateFrom i, w.isBallot = false := by
  intro w hw
  obtain ⟨i, -, rfl⟩ := List.mem_map.mp hw
  rfl

theorem DurableOp.exec_ballot (lib : WireLib) {s : RaftState} {op : DurableOp}
    (h : op.savesHardState s = false) :
    (op.exec lib s).currentTerm = s.currentTerm ∧ (op.exec lib s).votedFor = s.votedFor := by
  cases op.recipe lib s .empty with
  | hardState _ _ _ hsaves =>
    rw [hsaves] at h
    cases h
  | volatile hsame =>
    obtain ⟨hterm, hvote, -⟩ := PersistedState.mk.inj hsame
    exact ⟨hterm, hvote⟩
  | appendEntries req hop | installSnapshot req hop =>
    subst hop
    cases h
  | appendCommand command hop hrole =>
    subst hop
    rw [exec, if_pos hrole]
    exact ⟨rfl, rfl⟩
  | compaction lastApplied lastAppliedTerm jobs workers hop =>
    subst hop
    obtain ⟨log, logOffset, snapshot, hcompact⟩ :=
      s.compactLog_eq ⟨lastApplied, lastAppliedTerm, jobs, workers⟩
    rw [exec, hcompact]
    exact ⟨rfl, rfl⟩

/-- An operation writes the hard state first, or it has nothing to do with term and vote. -/
theorem DurableOp.ballot_writes (lib : WireLib) (s : RaftState) (d : Disk) (op : DurableOp) :
    (∃ ws, op.writes lib s d = (op.exec lib s).saveHardState ++ ws ∧
        ∀ w ∈ ws, w.isBallot = false) ∨
      (op.savesHardState s = false ∧ ∀ w ∈ op.writes lib s d, w.isBallot = false) := by
  cases op.recipe lib s d with
  | hardState _ _ _ _ hwrites =>
    exact .inl ⟨[], hwrites.trans (List.append_nil _).symm, by simp⟩
  | volatile _ hsaves hwrites => exact .inr ⟨hsaves, by simp [hwrites]⟩
  | appendEntries req hop =>
    subst hop
    refine .inl ⟨_, rfl, fun w hw => ?_⟩
    split_ifs at hw
    · rcases List.mem_append.mp hw with hw | hw
      · exact isBallot_truncateFrom d _ w hw
      · obtain ⟨e, -, rfl⟩ := List.mem_map.mp hw
        rfl
    · exact isBallot_truncateFrom d _ w hw
    · exact absurd hw List.not_mem_nil
  | installSnapshot req hop =>
    subst hop
    refine .inl ⟨_, rfl, fun w hw => ?_⟩
    split_ifs at hw
    · exact isBallot_saveSnapshot _ d w hw
    · exact absurd hw List.not_mem_nil
  | appendCommand command hop hrole =>
    subst hop
    refine .inr ⟨rfl, fun w hw => ?_⟩
    rw [writes, if_pos hrole] at hw
    obtain rfl := List.mem_singleton.mp hw
    rfl
  | compaction lastApplied lastAppliedTerm jobs workers hop =>
    subst hop
    exact .inr ⟨rfl, isBallot_saveSnapshot _ d⟩

theorem DurableOp.keepsVote_exec (lib : WireLib) {s : RaftState} {op : DurableOp}
    (h : op.KeepsOwnVote s) : s.KeepsVote (op.exec lib s) := by
  have hquiet : op.savesHardState s = false → s.KeepsVote (op.exec lib s) := fun hsaves =>
    .of_eq (exec_ballot lib hsaves).1 (exec_ballot lib hsaves).2
  cases op with
  | handleVoteRequest req => exact keepsVote_handleRequestVote s req
  | handleAppendEntries req => exact keepsVote_handleAppendEntries lib h
  | handleInstallSnapshot req => exact keepsVote_handleInstallSnapshot lib s req
  | startElection myId => exact .inl (Nat.lt_succ_self _)
  | stepDown term =>
    rcases h with hlt | ⟨heq, hnone⟩
    · exact .inl hlt
    · exact .inr ⟨heq, .inl hnone⟩
  | handleAppendReply peer resp =>
    by_cases hterm : s.currentTerm < resp.term
    · rw [exec, RaftState.handleAppendReply, if_pos hterm]
      exact .inl hterm
    · exact hquiet (decide_eq_false hterm)
  | handleSnapshotReply peer lastIncludedIndex resp =>
    by_cases hterm : s.currentTerm < resp.term
    · rw [exec, RaftState.handleSnapshotReply, if_pos hterm]
      exact .inl hterm
    · exact hquiet (decide_eq_false hterm)
  | handleAppendCommand | finishElection | getCommittedEntries | maybeCompactLog =>
    exact hquiet rfl

theorem DurableOp.support_votedFor (lib : WireLib) {s : RaftState} {op : DurableOp} {p : ℕ × ℕ}
    (h : op.support s = some p) :
    p.1 = (op.exec lib s).currentTerm ∧ (op.exec lib s).votedFor = some p.2 := by
  cases op with
  | handleVoteRequest req =>
    rw [support] at h
    split_ifs at h with hgranted
    obtain rfl := Option.some.inj h
    exact ⟨rfl, handleRequestVote_granted hgranted⟩
  | startElection myId =>
    obtain rfl := Option.some.inj h
    exact ⟨rfl, rfl⟩
  | _ => cases h

namespace Voter

variable {s' : RaftState} {v : Voter}

theorem Inv.of_keepsVote (hinv : v.Inv) (hkeep : v.state.KeepsVote s') :
    Inv ⟨s', v.supported⟩ :=
  ⟨fun _ hp => hinv.held_of_keepsVote hkeep hp, hinv.unique⟩

theorem Inv.support (hinv : Inv ⟨s', v.supported⟩) {p : ℕ × ℕ} (hterm : p.1 = s'.currentTerm)
    (hvote : s'.votedFor = some p.2) : Inv ⟨s', p :: v.supported⟩ := by
  have hnew : ∀ q ∈ v.supported, p.1 = q.1 → p.2 = q.2 := fun q hq heq =>
    Option.some.inj (hvote.symm.trans ((hinv.held q hq).2 (heq ▸ hterm)))
  constructor
  · rintro q (_ | ⟨_, hq⟩)
    · exact ⟨hterm.le, fun _ => hvote⟩
    · exact hinv.held q hq
  · rintro q (_ | ⟨_, hq⟩) r (_ | ⟨_, hr⟩) heq
    · rfl
    · exact hnew r hr heq
    · exact (hnew q hq heq.symm).symm
    · exact hinv.unique q hq r hr heq

end Voter

/-! ### The hard state cut short -/

/-- The term and the vote a restart finds. Without a stored term it finds no vote either. -/
structure Disk.HoldsBallot (d : Disk) (t : ℕ) (c : Option ℕ) : Prop where
  term_eq : d.term.getD 0 = t
  vote_eq : d.votedFor.getD none = c
  fresh : d.term = none → c = none

namespace Disk.HoldsBallot

variable {lib : WireLib} {s : RaftState} {d d' : Disk} {t : ℕ} {c : Option ℕ}

theorem of_sameBallot (h : d.HoldsBallot t c) (hsame : d.SameBallot d') : d'.HoldsBallot t c := by
  obtain ⟨hterm, hvote⟩ := hsame
  exact ⟨hterm ▸ h.term_eq, hvote ▸ h.vote_eq, hterm ▸ h.fresh⟩

theorem of_term (hterm : d.term = some t) (hvote : d.votedFor.getD none = c) :
    d.HoldsBallot t c :=
  ⟨by rw [hterm]; rfl, hvote, fun hnone => by rw [hterm] at hnone; cases hnone⟩

theorem newWithStorage_load (h : d.HoldsBallot t c) :
    (RaftState.newWithStorage d.load).currentTerm = t ∧
      (RaftState.newWithStorage d.load).votedFor = c := by
  cases hterm : d.term with
  | none =>
    rw [Disk.load, hterm, ← h.term_eq, hterm, h.fresh hterm]
    exact ⟨rfl, rfl⟩
  | some term =>
    rw [Disk.load, hterm, ← h.term_eq, hterm]
    exact ⟨rfl, h.vote_eq⟩

/-- A completed operation leaves the term and the vote on disk that it leaves in memory. -/
theorem exec (h : d.HoldsBallot s.currentTerm s.votedFor) (op : DurableOp) :
    (d.writeAll (op.writes lib s d)).HoldsBallot (op.exec lib s).currentTerm
      (op.exec lib s).votedFor := by
  rcases op.ballot_writes lib s d with ⟨ws, hws, hrest⟩ | ⟨hsaves, hrest⟩
  · rw [hws, Disk.writeAll_append]
    have hsaved : (d.writeAll (op.exec lib s).saveHardState).HoldsBallot
        (op.exec lib s).currentTerm (op.exec lib s).votedFor := .of_term rfl rfl
    exact hsaved.of_sameBallot (Disk.sameBallot_writeAll _ hrest)
  · obtain ⟨hterm, hvote⟩ := op.exec_ballot lib hsaves
    rw [hterm, hvote]
    exact h.of_sameBallot (d.sameBallot_writeAll hrest)

/-- An operation cut after some of its writes leaves the old ballot, the new term with the old
vote, or the new ballot. -/
theorem cut (h : d.HoldsBallot s.currentTerm s.votedFor) (lib : WireLib) (op : DurableOp) (k : ℕ) :
    ∃ t c, (d.writeAll ((op.writes lib s d).take k)).HoldsBallot t c ∧
      ((t = s.currentTerm ∧ c = s.votedFor) ∨
        (t = (op.exec lib s).currentTerm ∧ (c = s.votedFor ∨ c = (op.exec lib s).votedFor))) := by
  rcases op.ballot_writes lib s d with ⟨ws, hws, hrest⟩ | ⟨-, hrest⟩
  · rw [hws]
    rcases d.ballot_take (op.exec lib s) hrest k with hsame | ⟨hterm, hvote | hvote⟩
    · exact ⟨_, _, h.of_sameBallot hsame, .inl ⟨rfl, rfl⟩⟩
    · exact ⟨_, _, .of_term hterm (hvote ▸ h.vote_eq), .inr ⟨rfl, .inl rfl⟩⟩
    · exact ⟨_, _, .of_term hterm (by rw [hvote]; rfl), .inr ⟨rfl, .inr rfl⟩⟩
  · exact ⟨_, _, h.of_sameBallot (d.sameBallot_writeAll fun w hw =>
      hrest w (List.mem_of_mem_take hw)), .inl ⟨rfl, rfl⟩⟩

end Disk.HoldsBallot

/-! ### Runs with crashes -/

namespace DurableVoter

variable {lib : WireLib} {v v' : DurableVoter}

structure Inv (v : DurableVoter) : Prop where
  voter : Voter.Inv ⟨v.node.state, v.supported⟩
  saved : v.node.disk.HoldsBallot v.node.state.currentTerm v.node.state.votedFor

theorem inv_start : start.Inv := by
  refine ⟨⟨?_, ?_⟩, ⟨rfl, rfl, fun _ => rfl⟩⟩
  · intro p hp
    cases hp
  · intro p hp
    cases hp

theorem eq_of_run {op : DurableOp} (hs : v.step lib (.run op) = some v') :
    v' = ⟨⟨op.exec lib v.node.state,
      v.node.disk.writeAll (op.writes lib v.node.state v.node.disk)⟩,
      (op.support v.node.state).toList ++ v.supported⟩ := by
  obtain ⟨node, hnode, rfl⟩ := Option.map_eq_some_iff.mp hs
  obtain ⟨-, rfl⟩ := DurableNode.eq_of_step hnode
  rfl

theorem eq_of_crash {op : DurableOp} {k : ℕ} (hs : v.step lib (.crash op k) = some v') :
    v' = ⟨.restart (v.node.disk.writeAll ((op.writes lib v.node.state v.node.disk).take k)),
      v.supported⟩ := by
  obtain ⟨node, hnode, rfl⟩ := Option.map_eq_some_iff.mp hs
  rw [DurableNode.crashStep] at hnode
  split_ifs at hnode
  rw [Option.some.inj hnode]

theorem Inv.run (hinv : v.Inv) {op : DurableOp} (hkeep : op.KeepsOwnVote v.node.state)
    (hs : v.step lib (.run op) = some v') : v'.Inv := by
  obtain rfl := eq_of_run hs
  refine ⟨?_, hinv.saved.exec op⟩
  have hvoter := hinv.voter.of_keepsVote (op.keepsVote_exec lib hkeep)
  change Voter.Inv ⟨op.exec lib v.node.state, (op.support v.node.state).toList ++ v.supported⟩
  cases hsupport : op.support v.node.state with
  | none => exact hvoter
  | some p =>
    obtain ⟨hterm, hvote⟩ := op.support_votedFor lib hsupport
    exact hvoter.support hterm hvote

/-- A restart keeps the votes too: with the new term alone on disk there is no vote in it. -/
theorem Inv.crash (hinv : v.Inv) {op : DurableOp} (hkeep : op.KeepsOwnVote v.node.state) (k : ℕ)
    (hs : v.step lib (.crash op k) = some v') : v'.Inv := by
  obtain rfl := eq_of_crash hs
  have hexec := op.keepsVote_exec lib hkeep
  obtain ⟨t, c, hholds, hcases⟩ := hinv.saved.cut lib op k
  obtain ⟨hterm, hvote⟩ := hholds.newWithStorage_load
  refine ⟨hinv.voter.of_keepsVote ?_, ?_⟩
  · rcases hcases with ⟨rfl, rfl⟩ | ⟨rfl, rfl | rfl⟩
    · exact .of_eq hterm hvote
    · rcases hexec with hlt | ⟨heq, -⟩
      · exact .inl (hterm.symm ▸ hlt)
      · exact .of_eq (hterm.trans heq) hvote
    · rw [RaftState.KeepsVote, ← hterm, ← hvote] at hexec
      exact hexec
  · change Disk.HoldsBallot _ (RaftState.newWithStorage _).currentTerm
      (RaftState.newWithStorage _).votedFor
    rw [hterm, hvote]
    exact hholds

theorem Inv.step (hinv : v.Inv) {action : CrashAction} (hkeep : action.KeepsOwnVote v)
    (hs : v.step lib action = some v') : v'.Inv := by
  cases action with
  | run op => exact hinv.run hkeep hs
  | crash op k => exact hinv.crash hkeep k hs

/-- Along operations and crashes at any write, none of which takes a vote back within its term, a
node supports one candidate in each term and is never in a term before one it has voted in. -/
theorem votes_survive_crashes (lib : WireLib)
    (h : Runs.Reach (DurableVoter.step lib) (fun v action => action.KeepsOwnVote v) start v) :
    (∀ T c c', (T, c) ∈ v.supported → (T, c') ∈ v.supported → c = c') ∧
      ∀ T c, (T, c) ∈ v.supported → T ≤ v.node.state.currentTerm ∧
        (T = v.node.state.currentTerm → v.node.state.votedFor = some c) := by
  have hinv : v.Inv := h.invariant inv_start fun hinv hkeep hs => hinv.step hkeep hs
  exact ⟨fun T c c' hc hc' => hinv.voter.unique _ hc _ hc' rfl,
    fun T c hc => hinv.voter.held (T, c) hc⟩

/-- The node votes for candidate 2 in term 1 and is stopped when it has written term 2 for a request
of candidate 3. With the vote of term 1 it refuses candidate 3 in term 2 and supports 2. -/
theorem votes_survive_stop_before_vote :
    ∃ v, Runs.Reach (DurableVoter.step .standard) (fun v action => action.KeepsOwnVote v) start v ∧
      (1, 2) ∈ v.supported ∧ (2, 2) ∈ v.supported ∧ (2, 3) ∉ v.supported := by
  obtain ⟨v, hreach, hmem⟩ := Runs.exists_reach_of_guardedRun
    (DurableVoter.step .standard) (fun v action => action.KeepsOwnVote v)
    (fun v => (1, 2) ∈ v.supported ∧ (2, 2) ∈ v.supported) start
    [.run (.handleVoteRequest ⟨1, 2, 0, 0⟩), .crash (.handleVoteRequest ⟨2, 3, 0, 0⟩) 1,
      .run (.handleVoteRequest ⟨2, 3, 0, 0⟩), .run (.handleVoteRequest ⟨2, 2, 0, 0⟩)]
    (by decide +kernel)
  refine ⟨v, hreach, hmem.1, hmem.2, fun h => ?_⟩
  have heq := (votes_survive_crashes .standard hreach).1 2 2 3 hmem.2 h
  omega

end DurableVoter
end NomadLite
