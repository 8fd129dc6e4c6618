import NomadLite.CommitCount
import NomadLite.VoteCount

/-!
# Majorities of the commit rule

For the members of a cluster the sorted vector of the reply handler lists how far each of
them is: the peers by their match index, the leader by its last index. The commit rule takes
the member in the middle. With an even number of members that is the lower half of a tie, so
an index held by exactly half of the cluster can be committed. Half of the cluster still meets
every majority of voters.
-/

namespace NomadLite

theorem perm_cons_peersOf {ids : List ℕ} {x : ℕ} (hids : ids.Nodup) (hx : x ∈ ids) :
    ids.Perm (x :: peersOf ids x) := by
  have hnodup : (x :: peersOf ids x).Nodup :=
    List.nodup_cons.mpr ⟨fun hmem => (mem_peersOf.mp hmem).2 rfl, hids.filter _⟩
  refine (List.perm_ext_iff_of_nodup hids hnodup).mpr fun p => ?_
  rw [List.mem_cons, mem_peersOf]
  constructor
  · exact fun hp => (eq_or_ne p x).imp_right fun hne => ⟨hp, hne⟩
  · rintro (rfl | ⟨hp, -⟩)
    · exact hx
    · exact hp

theorem IndexMap.perm_sortedValues {m : IndexMap} {ps : List ℕ} (hps : ps.Nodup)
    (hkeys : ∀ p, p ∈ m ↔ p ∈ ps) : (ps.map fun p => (m.lookup p).getD 0).Perm m.sortedValues := by
  induction m using Finmap.induction_on with
  | _ al =>
    have hperm : ps.Perm al.keys := (List.perm_ext_iff_of_nodup hps al.nodupKeys).mpr fun p =>
      (hkeys p).symm
    have hvalues : al.keys.map (fun p => (al.lookup p).getD 0) = al.entries.map Sigma.snd := by
      rw [AList.keys, List.keys, List.map_map]
      refine List.map_congr_left fun e he => ?_
      rw [Function.comp_apply, AList.mem_lookup_iff.mpr he, Option.getD_some]
    exact (hperm.map _).trans (hvalues ▸ (List.perm_insertionSort _ _).symm)

namespace RaftState

def progress (s : RaftState) (x p : ℕ) : ℕ :=
  if p = x then s.lastLogIndex else (s.matchIndex.lookup p).getD 0

def membersAt (s : RaftState) (ids : List ℕ) (x index : ℕ) : ℕ :=
  ids.countP fun p => index ≤ s.progress x p

section Members

variable {s : RaftState} {ids : List ℕ} {x : ℕ} (hids : ids.Nodup) (hx : x ∈ ids)
  (hkeys : ∀ p, p ∈ s.matchIndex ↔ p ∈ peersOf ids x)

include hids hx hkeys

theorem perm_progress : (ids.map (s.progress x)).Perm s.matchIndices := by
  have hpeers : (peersOf ids x).map (s.progress x) =
      (peersOf ids x).map fun p => (s.matchIndex.lookup p).getD 0 :=
    List.map_congr_left fun p hp => if_neg (mem_peersOf.mp hp).2
  have hself : s.progress x x = s.lastLogIndex := if_pos rfl
  have hcons := (perm_cons_peersOf hids hx).map (s.progress x)
  rw [List.map_cons, hself, hpeers] at hcons
  refine hcons.trans (List.Perm.trans ?_ s.perm_matchIndices.symm)
  exact ((IndexMap.perm_sortedValues (hids.filter _) hkeys).cons _).trans
    (List.perm_append_singleton _ _).symm

theorem reached_matchIndices (index : ℕ) :
    SortedCount.reached s.matchIndices index = s.membersAt ids x index := by
  rw [← SortedCount.reached_perm (perm_progress hids hx hkeys), SortedCount.reached,
    List.countP_map, membersAt]
  rfl

/-- The commit rule takes the greatest index that a majority has reached, unless the cluster is
split into halves. -/
theorem majorityIndex_greatest_iff :
    (ids.length / 2 + 1 ≤ s.membersAt ids x s.majorityIndex ∧
      ∀ index, ids.length / 2 + 1 ≤ s.membersAt ids x index → index ≤ s.majorityIndex) ↔
    ∀ index, 2 * s.membersAt ids x index ≠ ids.length := by
  have hlen : s.matchIndices.length = ids.length := by
    rw [← (perm_progress hids hx hkeys).length_eq, List.length_map]
  have hiff := SortedCount.isGreatestReached_middle_iff s.pairwise_matchIndices
    s.half_lt_length_matchIndices
  rw [← s.majorityIndex_eq_getElem] at hiff
  simpa only [SortedCount.IsGreatestReached, hlen, reached_matchIndices hids hx hkeys] using hiff

end Members

theorem mem_recordMatch {s : RaftState} {peer m p : ℕ} (hpeer : peer ∈ s.matchIndex) :
    p ∈ (s.recordMatch peer m).matchIndex ↔ p ∈ s.matchIndex := by
  rw [recordMatch, Finmap.mem_insert, or_iff_right_iff_imp]
  rintro rfl
  exact hpeer

theorem progress_recordMatch {s : RaftState} {x peer : ℕ} (hne : peer ≠ x) (m p : ℕ) :
    (s.recordMatch peer m).progress x p = if p = peer then m else s.progress x p := by
  rcases eq_or_ne p peer with rfl | hp
  · rw [if_pos rfl, progress, if_neg hne, recordMatch, Finmap.lookup_insert, Option.getD_some]
  · rw [if_neg hp, progress, progress, recordMatch, Finmap.lookup_insert_of_ne _ hp]
    rfl

end RaftState

/-- Only a successful reply to a leader raises the commit index, and it does so by the majority
rule. -/
theorem RaftNode.raised_handleAppendReply {nd : RaftNode} {peer : ℕ} {resp : AppendEntriesResponse}
    (hraised : nd.state.commitIndex < (nd.handleAppendReply peer resp).node.state.commitIndex) :
    ∃ s, s = nd.state.recordMatch peer resp.matchIndex ∧ s.mayCommit s.majorityIndex ∧
      (nd.handleAppendReply peer resp).node.state =
        { s with commitIndex := s.majorityIndex } := by
  refine ⟨_, rfl, ?_⟩
  rw [handleAppendReply] at hraised ⊢
  dsimp only at hraised ⊢
  split_ifs at hraised ⊢ with hterm hsuccess hmay
  · exact absurd hraised (lt_irrefl _)
  · exact ⟨hmay, rfl⟩
  · exact absurd hraised (lt_irrefl _)
  · have hsame : (nd.state.decrementNext peer).commitIndex = nd.state.commitIndex := by
      obtain ⟨nextIndex, hdecrement⟩ := nd.state.decrementNext_eq peer
      rw [hdecrement]
    exact absurd hraised hsame.not_gt
  · exact absurd hraised (lt_irrefl _)

/-- A commit index raised by a reply is the greatest index of a majority exactly when the reply
leaves no index that half of the members hold and the other half do not. -/
theorem commit_needs_majority_iff {ids : List ℕ} {nd : RaftNode} {peer : ℕ}
    {resp : AppendEntriesResponse} (hids : ids.Nodup) (hself : nd.id ∈ ids)
    (hkeys : ∀ p, p ∈ nd.state.matchIndex ↔ p ∈ peersOf ids nd.id)
    (hpeer : peer ∈ peersOf ids nd.id)
    (hraised : nd.state.commitIndex < (nd.handleAppendReply peer resp).node.state.commitIndex) :
    (ids.length / 2 + 1 ≤ (nd.handleAppendReply peer resp).node.state.membersAt ids nd.id
        (nd.handleAppendReply peer resp).node.state.commitIndex ∧
      (∀ index, ids.length / 2 + 1 ≤
          (nd.handleAppendReply peer resp).node.state.membersAt ids nd.id index →
        index ≤ (nd.handleAppendReply peer resp).node.state.commitIndex) ∧
      ((nd.handleAppendReply peer resp).node.state.getEntry
          (nd.handleAppendReply peer resp).node.state.commitIndex).map LogEntry.term =
        some (nd.handleAppendReply peer resp).node.state.currentTerm) ↔
    ∀ index, 2 * (ids.countP fun p => index ≤
      if p = peer then resp.matchIndex else nd.state.progress nd.id p) ≠ ids.length := by
  obtain ⟨s, hs, hmay, hstate⟩ := RaftNode.raised_handleAppendReply hraised
  have hkeys' : ∀ p, p ∈ s.matchIndex ↔ p ∈ peersOf ids nd.id := fun p => by
    rw [hs, RaftState.mem_recordMatch ((hkeys peer).mpr hpeer), hkeys]
  have hmembers : ∀ index, (ids.countP fun p => index ≤
      if p = peer then resp.matchIndex else nd.state.progress nd.id p) =
        s.membersAt ids nd.id index := fun index => by
    simp only [hs, RaftState.membersAt, RaftState.progress_recordMatch (mem_peersOf.mp hpeer).2]
  rw [hstate]
  simp only [hmembers]
  refine Iff.trans ?_ (RaftState.majorityIndex_greatest_iff hids hself hkeys')
  constructor
  · rintro ⟨hreached, hgreatest, -⟩
    exact ⟨hreached, hgreatest⟩
  · rintro ⟨hreached, hgreatest⟩
    exact ⟨hreached, hgreatest, hmay.2⟩

namespace Cluster

def firstOfTwoTaken : List Action :=
  electedBy 1 2 1 0 0 ++ [⟨1, .appendCommand .noop⟩, ⟨1, .replicateTick⟩,
    ⟨2, .deliver 0 1 (.appendEntries .replication (wholeLogRequest 1 1 [⟨1, 1, .noop⟩]))⟩,
    ⟨1, .appendCommand .noop⟩]

/-- With three nodes the reply of node 2 commits the first entry only. -/
theorem two_of_three_commit :
    ∃ cl, Runs.Reach (step .standard [1, 2, 3]) (fun _ _ => True) (start [1, 2, 3]) cl ∧
      ((cl.nodes 1).handleAppendReply 2 ⟨1, true, 1⟩).node.state.commitIndex = 1 ∧
      2 ≤ ((cl.nodes 1).handleAppendReply 2 ⟨1, true, 1⟩).node.state.membersAt [1, 2, 3] 1
        ((cl.nodes 1).handleAppendReply 2 ⟨1, true, 1⟩).node.state.commitIndex := by
  obtain ⟨cl, hreach, hid, hkeys, hcommit, hraised⟩ := Runs.exists_reach_of_guardedRun
    (step .standard [1, 2, 3]) (fun _ _ => True)
    (fun cl => (cl.nodes 1).id = 1 ∧ (cl.nodes 1).state.matchIndex.keys = {2, 3} ∧
      (cl.nodes 1).state.commitIndex = 0 ∧
      ((cl.nodes 1).handleAppendReply 2 ⟨1, true, 1⟩).node.state.commitIndex = 1)
    (start [1, 2, 3]) firstOfTwoTaken (by decide +kernel)
  refine ⟨cl, hreach, hraised, ?_⟩
  have hids : [1, 2, 3].Nodup := by decide
  have hpeers : ∀ p, p ∈ (cl.nodes 1).state.matchIndex ↔ p ∈ peersOf [1, 2, 3] (cl.nodes 1).id := by
    intro p
    rw [← Finmap.mem_keys, hkeys, hid, mem_peersOf, Finset.mem_insert, Finset.mem_singleton]
    simp only [List.mem_cons, List.not_mem_nil, or_false]
    omega
  have hlt : (cl.nodes 1).state.commitIndex <
      ((cl.nodes 1).handleAppendReply 2 ⟨1, true, 1⟩).node.state.commitIndex := by
    rw [hraised, hcommit]
    exact Nat.one_pos
  have hmajority := (commit_needs_majority_iff hids (by rw [hid]; decide) hpeers
    (by rw [hid]; decide) hlt).mpr fun index heq => by
      rw [List.length_cons, List.length_cons, List.length_cons, List.length_nil] at heq
      omega
  rw [hid] at hmajority
  exact hmajority.1

/-- With two nodes the reply of node 2 for the first entry commits the second one as well, which
only the leader holds. -/
theorem half_of_two_commit :
    ¬ ∀ (lib : WireLib) (ids : List ℕ) (cl : Cluster), ids.Nodup →
      Runs.Reach (step lib ids) (fun _ _ => True) (start ids) cl → ∀ x ∈ ids,
      (cl.nodes x).state.role = .leader → ∀ peer ∈ peersOf ids x, ∀ req resp,
      ⟨peer, x, .appendReply .replication req resp⟩ ∈ cl.network →
      (cl.nodes x).state.commitIndex <
        ((cl.nodes x).handleAppendReply peer resp).node.state.commitIndex →
      ids.length / 2 + 1 ≤ ((cl.nodes x).handleAppendReply peer resp).node.state.membersAt ids x
        ((cl.nodes x).handleAppendReply peer resp).node.state.commitIndex := by
  intro hall
  obtain ⟨cl, hreach, hrole, hpacket, hcommit, hfew⟩ := Runs.exists_reach_of_guardedRun
    (step .standard [1, 2]) (fun _ _ => True)
    (fun cl => (cl.nodes 1).state.role = .leader ∧
      ⟨2, 1, .appendReply .replication (wholeLogRequest 1 1 [⟨1, 1, .noop⟩]) ⟨1, true, 1⟩⟩ ∈
        cl.network ∧
      (cl.nodes 1).state.commitIndex <
        ((cl.nodes 1).handleAppendReply 2 ⟨1, true, 1⟩).node.state.commitIndex ∧
      ((cl.nodes 1).handleAppendReply 2 ⟨1, true, 1⟩).node.state.membersAt [1, 2] 1
        ((cl.nodes 1).handleAppendReply 2 ⟨1, true, 1⟩).node.state.commitIndex < 2)
    (start [1, 2]) firstOfTwoTaken (by decide +kernel)
  exact absurd (hall .standard [1, 2] cl (by decide) hreach 1 (by decide) hrole 2 (by decide) _ _
    hpacket hcommit) (not_le.mpr hfew)

end Cluster

/-- Every majority of voters contains the leader or a peer that has reached the index which the
commit rule chooses. -/
theorem commit_quorum_meets_votes {ids : List ℕ} {nd : RaftNode} {voters : Finset ℕ}
    (hids : ids.Nodup) (hself : nd.id ∈ ids) (hpeers : nd.peers = peersOf ids nd.id)
    (hkeys : ∀ p, p ∈ nd.state.matchIndex ↔ p ∈ peersOf ids nd.id)
    (hvoters : voters ⊆ ids.toFinset) (hwon : nd.majority ≤ voters.card) :
    ∃ v ∈ voters, v = nd.id ∨
      ∃ m, nd.state.matchIndex.lookup v = some m ∧ nd.state.majorityIndex ≤ m := by
  obtain ⟨C, hcard, hC⟩ := RaftState.exists_quorum (hids.filter _)
    (fun hmem => (mem_peersOf.mp hmem).2 rfl) hkeys
  have hlen := length_peersOf hids hself
  have hsub : C ⊆ ids.toFinset := by
    intro v hv
    rw [List.mem_toFinset]
    rcases hC v hv with rfl | ⟨m, hm, -⟩
    · exact hself
    · exact (mem_peersOf.mp ((hkeys v).mp (Finmap.mem_of_lookup_eq_some hm))).1
  have hmeet : (voters ∩ C).Nonempty := by
    refine Finset.inter_nonempty_of_card_lt_card_add_card hvoters hsub ?_
    rw [RaftNode.majority, hpeers] at hwon
    rw [List.toFinset_card_of_nodup hids]
    rw [peersOf] at hlen hwon
    omega
  obtain ⟨v, hv⟩ := hmeet
  exact ⟨v, (Finset.mem_inter.mp hv).1, hC v (Finset.mem_inter.mp hv).2⟩

def leaderOfThree : RaftNode :=
  (RaftNode.new 1 [2, 3]).withState
    (((RaftState.new.becomeLeader 1 [2, 3]).recordMatch 2 5).recordMatch 3 4)

theorem commit_quorum_meets_two_votes :
    leaderOfThree.state.majorityIndex = 4 ∧ ∃ v ∈ ({2, 3} : Finset ℕ), v = leaderOfThree.id ∨
      ∃ m, leaderOfThree.state.matchIndex.lookup v = some m ∧ 4 ≤ m := by
  have hmajority : leaderOfThree.state.majorityIndex = 4 := by decide
  have hkeys : leaderOfThree.state.matchIndex.keys = {2, 3} := by decide
  have hids : [1, 2, 3].Nodup := by decide
  refine ⟨hmajority, ?_⟩
  rw [← hmajority]
  refine commit_quorum_meets_votes hids (by decide) rfl (fun p => ?_) (by decide) (by decide)
  rw [← Finmap.mem_keys, hkeys]
  change p ∈ _ ↔ p ∈ [2, 3]
  simp

end NomadLite
