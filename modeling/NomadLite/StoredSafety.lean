import NomadLite.DurableVotes
import NomadLite.StoredCluster

/-!
# Safety of a cluster that restarts from its disks

For Election Safety it does not matter where a process is stopped. The term is put
before the vote, so that a node comes back with its old ballot, with the new one, or in
the new term with a vote of an older term, which stands for nobody in the new one. The
entries are not as well protected: a stop inside a truncation or a late put can lose
them, and what was committed is safe as long as every operation is completed.
-/

namespace NomadLite

open MajorityElection

/-! ### Term and vote of a step -/

namespace Disk.HoldsBallot

variable {lib : WireLib} {nd : RaftNode} {d : Disk} {ev : Event} {eff : Effect}

theorem step (h : d.HoldsBallot nd.state.currentTerm nd.state.votedFor)
    (hstep : nd.step lib ev = some eff) :
    (d.writeAll (nd.diskWrites lib d ev)).HoldsBallot eff.node.state.currentTerm
      eff.node.state.votedFor := by
  rw [RaftNode.state_of_step hstep, RaftNode.stateAfter, RaftNode.diskWrites]
  cases nd.durableOp ev with
  | none => exact h
  | some op => exact h.exec op

theorem step_cut (h : d.HoldsBallot nd.state.currentTerm nd.state.votedFor)
    (hstep : nd.step lib ev = some eff) (k : ℕ) :
    ∃ t c, (d.writeAll ((nd.diskWrites lib d ev).take k)).HoldsBallot t c ∧
      ((t = nd.state.currentTerm ∧ c = nd.state.votedFor) ∨
        (t = eff.node.state.currentTerm ∧
          (c = nd.state.votedFor ∨ c = eff.node.state.votedFor))) := by
  rw [RaftNode.state_of_step hstep, RaftNode.stateAfter, RaftNode.diskWrites]
  cases nd.durableOp ev with
  | none => exact ⟨_, _, by rw [Option.map_none, Option.getD_none, List.take_nil]; exact h,
      .inl ⟨rfl, rfl⟩⟩
  | some op => exact h.cut lib op k

end Disk.HoldsBallot

namespace StoredCluster

variable {lib : WireLib} {ids : List ℕ} {sc sc' : StoredCluster} {a : Action} {x : ℕ}

/-! ### Elections -/

structure HasBallots (ids : List ℕ) (sc : StoredCluster) : Prop where
  ballots : Cluster.HasBallots ids sc.cluster
  disks : ∀ x ∈ ids, (sc.disks x).HoldsBallot (sc.cluster.nodes x).state.currentTerm
    (sc.cluster.nodes x).state.votedFor

theorem hasBallots_start (ids : List ℕ) : (start ids).HasBallots ids where
  ballots := Cluster.hasBallots_start ids
  disks _ _ := ⟨rfl, rfl, fun _ => rfl⟩

theorem HasBallots.apply (h : sc.HasBallots ids) {eff : Effect} {d : Disk}
    {pending : ℕ → Option LogEntry} (hballots : Cluster.HasBallots ids (sc.cluster.apply x eff))
    (hd : d.HoldsBallot eff.node.state.currentTerm eff.node.state.votedFor) :
    HasBallots ids ⟨sc.cluster.apply x eff, Function.update sc.disks x d, pending⟩ where
  ballots := hballots
  disks y hy := by
    by_cases hyx : y = x
    · subst hyx
      simpa only [Cluster.apply, Function.update_self] using hd
    · simpa only [Cluster.apply, Function.update_of_ne hyx] using h.disks y hy


theorem HasBallots.act (h : sc.HasBallots ids) (hids : ids.Nodup)
    (hq : sc.cluster.KeepsBallots ids a) (hs : sc.step lib ids (.act a) = some sc') :
    sc'.HasBallots ids := by
  obtain ⟨cl, hcl, rfl⟩ := eq_of_act hs
  have hballots := h.ballots.step hids hq hcl
  obtain ⟨eff, hx, -, hstep, rfl⟩ := Cluster.step_eq_some hcl
  exact h.apply hballots ((h.disks _ hx).step hstep)

/-- Neither half of `handle_append_command` has to do with the ballot. -/
theorem HasBallots.beginAppend (h : sc.HasBallots ids) (hids : ids.Nodup) {command : Command}
    (hq : sc.cluster.KeepsBallots ids ⟨x, .appendCommand command⟩)
    (hs : sc.step lib ids (.beginAppend x command) = some sc') : sc'.HasBallots ids := by
  rw [step] at hs
  split_ifs at hs
  obtain ⟨cl, hcl, rfl⟩ := Option.map_eq_some_iff.mp hs
  refine ⟨h.ballots.step hids hq hcl, fun y hy => ?_⟩
  obtain ⟨eff, hx, -, hstep, rfl⟩ := Cluster.step_eq_some hcl
  by_cases hyx : y = x
  · subst hyx
    rw [Cluster.apply_nodes]
    cases RaftNode.transition_of_step hstep with
    | appendCommand => exact h.disks y hy
  · simp only [Cluster.apply, Function.update_of_ne hyx]
    exact h.disks y hy

theorem HasBallots.finishAppend (h : sc.HasBallots ids)
    (hs : sc.step lib ids (.finishAppend x) = some sc') : sc'.HasBallots ids := by
  obtain ⟨entry, -, rfl⟩ := Option.map_eq_some_iff.mp hs
  refine ⟨h.ballots, fun y hy => ?_⟩
  by_cases hyx : y = x
  · subst hyx
    simp only [Function.update_self]
    refine (h.disks y hy).of_sameBallot (Disk.sameBallot_writeAll _ fun w hw => ?_)
    rw [List.mem_singleton.mp hw]
    rfl
  · simp only [Function.update_of_ne hyx]
    exact h.disks y hy

theorem HasBallots.revive (h : sc.HasBallots ids) {d : Disk} {t : ℕ} {c : Option ℕ}
    (hd : d.HoldsBallot t c) (hballots : Cluster.HasBallots ids (sc.revive x d).cluster) :
    (sc.revive x d).HasBallots ids := by
  refine h.apply hballots ?_
  obtain ⟨hterm, hvote⟩ := hd.newWithStorage_load
  change d.HoldsBallot (RaftState.newWithStorage d.load).currentTerm
    (RaftState.newWithStorage d.load).votedFor
  rw [hterm, hvote]
  exact hd

theorem HasBallots.restart (h : sc.HasBallots ids) (hx : x ∈ ids) :
    (sc.revive x (sc.disks x)).HasBallots ids := by
  obtain ⟨hterm, hvote⟩ := (h.disks x hx).newWithStorage_load
  exact h.revive (h.disks x hx) (h.ballots.revived hx hterm hvote)

theorem HasBallots.stop (h : sc.HasBallots ids) (hids : ids.Nodup)
    (hq : sc.cluster.KeepsBallots ids a) {k : ℕ} (hs : sc.step lib ids (.stop a k) = some sc') :
    sc'.HasBallots ids := by
  obtain ⟨cl, hcl, rfl⟩ := Option.map_eq_some_iff.mp hs
  obtain ⟨eff, hx, hpacket, hstep, -⟩ := Cluster.step_eq_some hcl
  obtain ⟨t, c, hd, hcases⟩ := (h.disks _ hx).step_cut hstep k
  refine h.revive hd ?_
  obtain ⟨hterm, hvote⟩ := hd.newWithStorage_load
  have hold : t = (sc.cluster.nodes a.node).state.currentTerm →
      c = (sc.cluster.nodes a.node).state.votedFor →
      Cluster.HasBallots ids (sc.revive a.node
        ((sc.disks a.node).writeAll ((sc.writes lib a).take k))).cluster := fun ht hc =>
    h.ballots.revived hx (hterm.trans ht) (hvote.trans hc)
  obtain ⟨b, hinv, hlinked⟩ := h.ballots
  have hnode := hlinked.node _ hx
  -- What the whole step would have done to the ballots.
  obtain ⟨b', hext, hinv', hself, -⟩ :=
    hnode.simulated hinv hids hx (RaftNode.transition_of_step hstep)
      (fun p hp => hlinked.packet p (hpacket p hp)) fun t ht => (hq t ht).ballots hx hlinked
  rcases hcases with ⟨ht, hc⟩ | ⟨ht, hc | hc⟩
  · exact hold ht hc
  · have hle := hext.moves.term_le
    rw [hnode.term_eq, hself.term_eq, ← ht] at hle
    rcases hle.lt_or_eq with hlt | heq
    · have hskip : b.term a.node < t := hnode.term_eq ▸ hlt
      exact Cluster.hasBallots_newWithStorage hlinked hx
        ⟨Ballots.moves_skip hskip, subset_rfl, subset_rfl⟩ (hinv.skip hskip)
        ((Function.update_self ..).trans hterm.symm)
        (hnode.vote_eq.trans (hc.symm.trans hvote.symm)) (by simp [Ballots.skip])
    · exact hold heq.symm hc
  · exact Cluster.hasBallots_newWithStorage hlinked hx
      (hext.trans ⟨Ballots.moves_resign, subset_rfl, subset_rfl⟩) hinv'.resign
      (hself.term_eq.trans (ht.symm.trans hterm.symm))
      (hself.vote_eq.trans (hc.symm.trans hvote.symm)) (by simp [Ballots.resign])

theorem HasBallots.step (h : sc.HasBallots ids) (hids : ids.Nodup) {sa : StoredAction}
    (hq : sa.Meets (Cluster.KeepsBallots ids) sc) (hs : sc.step lib ids sa = some sc') :
    sc'.HasBallots ids := by
  cases sa with
  | act a => exact h.act hids hq.1 hs
  | beginAppend x command => exact h.beginAppend hids hq.1 hs
  | finishAppend x => exact h.finishAppend hs
  | stop a k => exact h.stop hids hq.1 hs
  | restart x =>
    obtain ⟨hx, rfl⟩ := eq_of_restart hs
    exact h.restart hx

/-- Election Safety does not depend on the nodes staying up: a process may be stopped before, after
and between any two writes of a step, and the put of an appended entry may come late. -/
theorem one_leader_despite_stops (lib : WireLib) (hids : ids.Nodup)
    (h : Runs.Reach (step lib ids) (StoredAction.Meets (Cluster.KeepsBallots ids)) (start ids) sc)
    {x y : ℕ} {s s' : RaftState} (hx : (x, .becameLeader s) ∈ sc.cluster.history)
    (hy : (y, .becameLeader s') ∈ sc.cluster.history) (hterm : s.currentTerm = s'.currentTerm) :
    x = y := by
  have hballots : sc.HasBallots ids :=
    h.invariant (hasBallots_start ids) fun hb hq hs => hb.step hids hq hs
  exact hballots.ballots.oneLeaderPerTerm x y s s' hx hy hterm

/-- Leader 1 of term 1 is stopped when it has written the term of a request of candidate 2, with
the put of an entry still under way. It comes back in term 2 with its own vote of term 1. Candidate
2 is elected by node 3. -/
def stoppedBeforeVote : List StoredAction :=
  (Cluster.electedBy 1 3 1 0 0).map .act ++
    [.act ⟨2, .electionTimeout []⟩, .act ⟨2, .finishElection 0⟩, .beginAppend 1 .noop,
      .act ⟨2, .electionTimeout [1, 3]⟩, .stop ⟨1, .deliver 0 2 (.voteRequest ⟨2, 2, 0, 0⟩)⟩ 1,
      .act ⟨1, .deliver 0 2 (.voteRequest ⟨2, 2, 0, 0⟩)⟩,
      .act ⟨2, .deliver 0 1 (.voteReply ⟨2, 2, 0, 0⟩ ⟨2, false⟩)⟩,
      .act ⟨3, .deliver 0 2 (.voteRequest ⟨2, 2, 0, 0⟩)⟩,
      .act ⟨2, .deliver 0 3 (.voteReply ⟨2, 2, 0, 0⟩ ⟨2, true⟩)⟩, .act ⟨2, .finishElection 0⟩]

theorem one_leader_after_stop : ∃ sc,
    Runs.Reach (step .standard [1, 2, 3]) (StoredAction.Meets (Cluster.KeepsBallots [1, 2, 3]))
        (start [1, 2, 3]) sc ∧ sc.cluster.leaders = [(1, 1), (2, 2)] ∧
      (sc.cluster.nodes 1).state.currentTerm = 2 ∧ (sc.cluster.nodes 1).state.votedFor = some 1 ∧
      ∀ x y s s', (x, .becameLeader s) ∈ sc.cluster.history →
        (y, .becameLeader s') ∈ sc.cluster.history → s.currentTerm = s'.currentTerm → x = y := by
  obtain ⟨sc, hreach, hleaders, hterm, hvote⟩ := Runs.exists_reach_of_guardedRun
    (step .standard [1, 2, 3]) (StoredAction.Meets (Cluster.KeepsBallots [1, 2, 3]))
    (fun sc => sc.cluster.leaders = [(1, 1), (2, 2)] ∧
      (sc.cluster.nodes 1).state.currentTerm = 2 ∧ (sc.cluster.nodes 1).state.votedFor = some 1)
    (start [1, 2, 3]) stoppedBeforeVote (by decide +kernel)
  exact ⟨sc, hreach, hleaders, hterm, hvote, fun x y s s' hx hy heq =>
    one_leader_despite_stops .standard (by decide) hreach hx hy heq⟩

/-! ### Entries -/

theorem aligned_of_keepsPromises (hids : ids.Nodup) {cl : Cluster}
    (h : Runs.Reach (Cluster.faultyStep lib ids)
      (FaultyAction.Meets (Cluster.KeepsPromises lib ids)) (Cluster.start ids) cl) :
    Aligned ids cl := fun x hx => by
  obtain ⟨g, hg⟩ := Cluster.exists_hasLogs_of_faulty hids h
  exact (hg.linked.node x hx).holds.aligned

def restartedThenElected : List StoredAction :=
  Cluster.committedByTwo.map .act ++ [.restart 1, .restart 2, .restart 3] ++
    (Cluster.electedBy 2 3 2 1 1).map .act

theorem aligned_of_keepsReplayed (hids : ids.Nodup) {cl : Cluster}
    (h : Runs.Reach (Cluster.faultyStep lib ids)
      (FaultyAction.Meets (Cluster.KeepsReplayed lib ids)) (Cluster.start ids) cl) :
    Aligned ids cl := fun x hx => by
  obtain ⟨g, hg, -⟩ := Cluster.hasCommits_of_faulty hids h
  exact (hg.linked.node x hx).holds.aligned

end StoredCluster
end NomadLite
