import NomadLite.ReleaseCalls
import NomadLite.StandardWire

/-!
# One vote per term

A `Voter` is a Raft state with the candidates it has supported, term by term. A
candidate that receives an `AppendEntries` request of its own term forgets the vote
it gave itself, and can then vote for another candidate in that term. A candidacy in
the last term of a `u64` leads back to term 0. On runs that avoid these two steps a
support lasts as long as its term.
-/

namespace NomadLite

open MachineWord

structure Voter where
  state : RaftState
  supported : List (ℕ × ℕ)
deriving DecidableEq

def Call.support (lib : WireLib) (s : RaftState) (call : Call) : Option (ℕ × ℕ) :=
  match call with
  | .requestVote req =>
    if (handleRequestVote s req).2.voteGranted then
      some ((Release.exec lib s call).currentTerm, req.candidateId)
    else none
  | .becomeCandidate myId => some ((Release.exec lib s call).currentTerm, myId)
  | _ => none

namespace Voter

def step (lib : WireLib) (v : Voter) (call : Call) : Option Voter :=
  some ⟨Release.exec lib v.state call, (call.support lib v.state).toList ++ v.supported⟩

def start (s : RaftState) : Voter := ⟨s, []⟩

/-- An `AppendEntries` request of the node's own term finds it a follower, or without a vote, and
a candidacy finds a next term. -/
def KeepsOwnVote (v : Voter) : Call → Prop
  | .appendEntries req =>
    req.term = v.state.currentTerm → v.state.role = .follower ∨ v.state.votedFor = none
  | .becomeCandidate _ => v.state.currentTerm + 1 < u64
  | _ => True

instance (v : Voter) : (call : Call) → Decidable (v.KeepsOwnVote call)
  | .appendEntries req => inferInstanceAs (Decidable (req.term = v.state.currentTerm →
      v.state.role = .follower ∨ v.state.votedFor = none))
  | .becomeCandidate _ => inferInstanceAs (Decidable (v.state.currentTerm + 1 < u64))
  | .appendEntry _ | .getCommittedEntries | .compactLog .. | .requestVote _
  | .installSnapshot _ => .isTrue trivial

structure Inv (v : Voter) : Prop where
  held : ∀ p ∈ v.supported,
    p.1 ≤ v.state.currentTerm ∧ (p.1 = v.state.currentTerm → v.state.votedFor = some p.2)
  unique : ∀ p ∈ v.supported, ∀ q ∈ v.supported, p.1 = q.1 → p.2 = q.2

end Voter

theorem Call.keepsVote_release (lib : WireLib) {v : Voter} {call : Call}
    (h : v.KeepsOwnVote call) : v.state.KeepsVote (Release.exec lib v.state call) := by
  by_cases hcand : ∃ myId, call = .becomeCandidate myId
  · obtain ⟨myId, rfl⟩ := hcand
    rw [Release.exec, Release.becomeCandidate, wrappingAdd_eq u64 h]
    exact .inl (Nat.lt_succ_self _)
  · have hkeep : v.state.KeepsVote (call.exec lib v.state) := by
      cases call with
      | appendEntry command => exact .of_eq rfl rfl
      | getCommittedEntries => exact .of_eq rfl rfl
      | compactLog term jobs workers => exact RaftState.keepsVote_compactLog _ _
      | requestVote req => exact keepsVote_handleRequestVote _ _
      | appendEntries req => exact keepsVote_handleAppendEntries lib h
      | installSnapshot req => exact keepsVote_handleInstallSnapshot lib _ _
      | becomeCandidate myId => exact absurd ⟨myId, rfl⟩ hcand
    obtain ⟨hterm, hvote⟩ := Release.exec_ballot lib v.state fun myId heq => hcand ⟨myId, heq⟩
    rw [RaftState.KeepsVote, hterm, hvote]
    exact hkeep

theorem handleRequestVote_granted {s : RaftState} {req : VoteRequest}
    (h : (handleRequestVote s req).2.voteGranted = true) :
    (handleRequestVote s req).1.votedFor = some req.candidateId := by
  rw [handleRequestVote] at h ⊢
  split_ifs at h ⊢
  rfl

theorem Call.support_votedFor {lib : WireLib} {s : RaftState} {call : Call} {p : ℕ × ℕ}
    (h : call.support lib s = some p) :
    p.1 = (Release.exec lib s call).currentTerm ∧
      (Release.exec lib s call).votedFor = some p.2 := by
  cases call with
  | requestVote req =>
    rw [Call.support] at h
    split_ifs at h with hg
    obtain rfl := Option.some.inj h
    exact ⟨rfl, handleRequestVote_granted hg⟩
  | becomeCandidate myId =>
    obtain rfl := Option.some.inj h
    exact ⟨rfl, rfl⟩
  | appendEntry command => cases h
  | getCommittedEntries => cases h
  | compactLog term jobs workers => cases h
  | appendEntries req => cases h
  | installSnapshot req => cases h

namespace Voter

variable {lib : WireLib} {v v' : Voter} {call : Call}

theorem Inv.held_of_keepsVote {s' : RaftState} (hinv : v.Inv) (hkeep : v.state.KeepsVote s')
    {p : ℕ × ℕ} (hp : p ∈ v.supported) :
    p.1 ≤ s'.currentTerm ∧ (p.1 = s'.currentTerm → s'.votedFor = some p.2) := by
  obtain ⟨hle, hvote⟩ := hinv.held p hp
  have hmono := hkeep.currentTerm_le
  refine ⟨hle.trans hmono, fun heq => ?_⟩
  exact hkeep.votedFor_eq (by omega) (hvote (by omega))

theorem Inv.step (hinv : v.Inv) (hcond : v.KeepsOwnVote call) (hs : v.step lib call = some v') :
    v'.Inv := by
  obtain rfl := Option.some.inj hs
  have hold : ∀ p ∈ v.supported, _ := fun p hp =>
    hinv.held_of_keepsVote (call.keepsVote_release lib hcond) hp
  cases hsup : call.support lib v.state with
  | none =>
    simp only [Option.toList_none, List.nil_append]
    exact ⟨hold, hinv.unique⟩
  | some p =>
    obtain ⟨hterm, hvote⟩ := Call.support_votedFor hsup
    have hnew : ∀ q ∈ v.supported, p.1 = q.1 → p.2 = q.2 := fun q hq heq =>
      Option.some.inj (hvote.symm.trans ((hold q hq).2 (heq ▸ hterm)))
    simp only [Option.toList_some, List.singleton_append]
    constructor
    · rintro q (_ | ⟨_, hq⟩)
      · exact ⟨hterm.le, fun _ => hvote⟩
      · exact hold q hq
    · rintro q (_ | ⟨_, hq⟩) r (_ | ⟨_, hr⟩) heq
      · rfl
      · exact hnew r hr heq
      · exact (hnew q hq heq.symm).symm
      · exact hinv.unique q hq r hr heq

/-- Along calls that never take a vote back within a term, a node supports one candidate in
each term. -/
theorem supports_one_candidate (lib : WireLib) (s : RaftState)
    (h : Runs.Reach (Voter.step lib) KeepsOwnVote (start s) v) (T c c' : ℕ)
    (hc : (T, c) ∈ v.supported) (hc' : (T, c') ∈ v.supported) : c = c' := by
  have hstart : (start s).Inv := by constructor <;> intro p hp <;> cases hp
  have hinv : v.Inv := h.invariant hstart fun hinv hcond hs => hinv.step hcond hs
  exact hinv.unique _ hc _ hc' rfl

/-- A node that moved to term 2 before it voted there for candidate 2 did not support 3. -/
theorem supports_one_candidate_term_two :
    ∃ v, Runs.Reach (Voter.step .standard) KeepsOwnVote (start .new) v ∧
      (2, 2) ∈ v.supported ∧ (2, 3) ∉ v.supported := by
  obtain ⟨v, hreach, hmem⟩ := Runs.exists_reach_of_guardedRun
    (Voter.step .standard) KeepsOwnVote (fun v => (2, 2) ∈ v.supported) (start .new)
    [.becomeCandidate 1, .appendEntries ⟨2, 3, 0, 0, [], 0⟩, .requestVote ⟨2, 2, 0, 0⟩] (by decide)
  refine ⟨v, hreach, hmem, fun h => ?_⟩
  have heq := supports_one_candidate .standard .new hreach 2 2 3 hmem h
  omega

/-- Candidate 1 hears from a leader of its own term 1 and then votes for candidate 2. -/
theorem supports_two_candidates :
    ¬ ∀ (lib : WireLib) (s : RaftState) (v : Voter),
      Runs.Reach (Voter.step lib) (fun v call => call.Fits v.state) (start s) v →
      ∀ T c c' : ℕ, (T, c) ∈ v.supported → (T, c') ∈ v.supported → c = c' := by
  intro hall
  obtain ⟨v, hreach, hone, htwo⟩ := Runs.exists_reach_of_guardedRun
    (Voter.step .standard) (fun v call => call.Fits v.state)
    (fun v => (1, 1) ∈ v.supported ∧ (1, 2) ∈ v.supported) (start .new)
    [.becomeCandidate 1, .appendEntries ⟨1, 3, 0, 0, [], 0⟩, .requestVote ⟨1, 2, 0, 0⟩] (by decide)
  have heq := hall .standard .new v hreach 1 1 2 hone htwo
  omega

end Voter
end NomadLite
