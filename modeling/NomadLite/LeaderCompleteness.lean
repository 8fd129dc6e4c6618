import NomadLite.ClusterLog
import NomadLite.StandardWire

/-!
# Leader Completeness

What a leader commits by counting is committed in the view, and the leaders of later
terms were elected with it. The code loses it in three ways: a follower cuts entries
that a late request does not mention, it reports its last index for a request that
checked less, and a leader counts replies of an earlier term of its own.
-/

namespace NomadLite
namespace Cluster

variable {ids : List ℕ} {cl : Cluster}

def KeepsCommitted (lib : WireLib) (cl : Cluster) (a : Action) : Prop :=
  (cl.nodes a.node).KeepsTerm a.event ∧ (cl.nodes a.node).KeepsOffset a.event ∧
    (cl.nodes a.node).KeepsReported lib a.event

instance (lib : WireLib) (cl : Cluster) (a : Action) : Decidable (cl.KeepsCommitted lib a) :=
  inferInstanceAs (Decidable (_ ∧ _ ∧ _))

theorem HasLogs.committed_elected {lib : WireLib} {g : LogView} (hg : HasLogs lib True ids g cl)
    {x : ℕ} {s : RaftState} (hs : (x, .advancedCommit s) ∈ cl.history) {i : ℕ} (hpos : 0 < i)
    (hi : i ≤ s.commitIndex) :
    ∃ e, (i ≤ s.logOffset ∨ (s.getEntry i).map (LogEntry.onWire lib) = some e) ∧
      ∀ y s', (y, .becameLeader s') ∈ cl.history → s.currentTerm < s'.currentTerm →
        i ≤ s'.logOffset ∨ (s'.getEntry i).map (LogEntry.onWire lib) = some e := by
  obtain ⟨h₀, hholds, hle, hcommitted, -⟩ := hg.linked.note x _ hs trivial
  have hget : h₀[i - 1]? = some h₀[i - 1] := List.getElem?_eq_getElem (by omega)
  refine ⟨h₀[i - 1], ?_, fun y s' hs' hlt => ?_⟩
  · rcases le_or_gt i s.logOffset with hoff | hoff
    · exact .inl hoff
    · exact .inr ((hholds.getEntry hoff).trans hget)
  · obtain ⟨h', ext, hholds', hleader, hext, -⟩ := hg.linked.note y _ hs'
    have hpre := hcommitted.isPrefix_elected hg.sound.matched (hg.sound.safe trivial) hlt hleader
      hext
    rcases le_or_gt i s'.logOffset with hoff | hoff
    · exact .inl hoff
    · refine .inr ((hholds'.getEntry hoff).trans (ReplicatedLog.getElem?_of_isPrefix hpre ?_))
      rw [List.getElem?_take_of_lt (by omega), hget]

/-- What leader `x` of a term had at index `i` when it committed that index by counting is what
every leader of a later term has there, in its log or covered by its offset. -/
theorem leader_completeness (lib : WireLib) (hids : ids.Nodup)
    (h : Runs.Reach (step lib ids) (KeepsCommitted lib) (start ids) cl)
    (hone : cl.OneLeaderPerTerm) {x : ℕ} {s : RaftState}
    (hs : (x, .advancedCommit s) ∈ cl.history) {i : ℕ} (hpos : 0 < i) (hi : i ≤ s.commitIndex) :
    ∃ e, (i ≤ s.logOffset ∨ (s.getEntry i).map (LogEntry.onWire lib) = some e) ∧
      ∀ y s', (y, .becameLeader s') ∈ cl.history → s.currentTerm < s'.currentTerm →
        i ≤ s'.logOffset ∨ (s'.getEntry i).map (LogEntry.onWire lib) = some e := by
  obtain ⟨g, hg⟩ := exists_hasLogs True hids
    (h.mono fun _ _ hq => ⟨hq.1, hq.2.1, fun _ => hq.2.2⟩) hone
  exact hg.committed_elected hs hpos hi

def electedState : ℕ × Note → Option (ℕ × RaftState)
  | (x, .becameLeader s) => some (x, s)
  | _ => none

def committedState : ℕ × Note → Option (ℕ × RaftState)
  | (x, .advancedCommit s) => some (x, s)
  | _ => none

theorem note_of_electedState {p : ℕ × Note} {x : ℕ} {s : RaftState} (hp : p ∈ cl.history)
    (h : electedState p = some (x, s)) : (x, .becameLeader s) ∈ cl.history := by
  obtain ⟨y, n⟩ := p
  cases n with
  | becameLeader s' =>
    obtain ⟨rfl, rfl⟩ := Prod.mk.inj (Option.some.inj h)
    exact hp
  | advancedCommit | applied => cases h

theorem note_of_committedState {p : ℕ × Note} {x : ℕ} {s : RaftState} (hp : p ∈ cl.history)
    (h : committedState p = some (x, s)) : (x, .advancedCommit s) ∈ cl.history := by
  obtain ⟨y, n⟩ := p
  cases n with
  | advancedCommit s' =>
    obtain ⟨rfl, rfl⟩ := Prod.mk.inj (Option.some.inj h)
    exact hp
  | becameLeader | applied => cases h

def CommitThenLeader (test : ℕ × RaftState → ℕ × RaftState → Prop) (cl : Cluster) : Prop :=
  ∃ p ∈ cl.history.filterMap committedState, ∃ q ∈ cl.history.filterMap electedState, test p q

instance (test : ℕ × RaftState → ℕ × RaftState → Prop) [∀ p q, Decidable (test p q)]
    (cl : Cluster) : Decidable (cl.CommitThenLeader test) :=
  inferInstanceAs (Decidable (∃ p ∈ _, _))

theorem CommitThenLeader.exists_notes {test : ℕ × RaftState → ℕ × RaftState → Prop}
    (h : cl.CommitThenLeader test) : ∃ x s y s', (x, .advancedCommit s) ∈ cl.history ∧
      (y, .becameLeader s') ∈ cl.history ∧ test (x, s) (y, s') := by
  obtain ⟨⟨x, s⟩, hp, ⟨y, s'⟩, hq, htest⟩ := h
  obtain ⟨n, hn, hs⟩ := List.mem_filterMap.mp hp
  obtain ⟨n', hn', hs'⟩ := List.mem_filterMap.mp hq
  exact ⟨x, s, y, s', note_of_committedState hn hs, note_of_electedState hn' hs', htest⟩

/-- Leader 1 commits an entry that node 2 has; node 2 leads term 2 and still has it. -/
theorem leader_completeness_next_term :
    ∃ cl s s', Runs.Reach (step .standard [1, 2, 3]) (KeepsCommitted .standard) (start [1, 2, 3]) cl ∧
      cl.OneLeaderPerTerm ∧ (1, .advancedCommit s) ∈ cl.history ∧
      (2, .becameLeader s') ∈ cl.history ∧ 1 ≤ s.commitIndex ∧ s.currentTerm < s'.currentTerm ∧
      (1 ≤ s'.logOffset ∨ (s'.getEntry 1).isSome) := by
  obtain ⟨cl, hreach, hone, hnotes⟩ := Runs.exists_reach_of_guardedRun
    (step .standard [1, 2, 3]) (KeepsCommitted .standard)
    (fun cl => cl.OneLeaderPerTerm ∧ cl.CommitThenLeader fun p q =>
      p.1 = 1 ∧ q.1 = 2 ∧ 1 ≤ p.2.commitIndex ∧ p.2.currentTerm < q.2.currentTerm)
    (start [1, 2, 3])
    (electedBy 1 2 1 0 0 ++ [⟨1, .appendCommand .noop⟩, ⟨1, .replicateTick⟩,
      ⟨2, .deliver 0 1 (.appendEntries .replication (wholeLogRequest 1 1 [⟨1, 1, .noop⟩]))⟩,
      ⟨1, .deliver 0 2 (.appendReply .replication (wholeLogRequest 1 1 [⟨1, 1, .noop⟩])
        ⟨1, true, 1⟩)⟩] ++ electedBy 2 3 2 1 1)
    (by decide +kernel)
  obtain ⟨x, s, y, s', hn, hn', hx, hy, hcommit, hterm⟩ := hnotes.exists_notes
  obtain rfl : x = 1 := hx
  obtain rfl : y = 2 := hy
  obtain ⟨e, -, hlater⟩ := leader_completeness .standard (by decide) hreach hone hn one_pos hcommit
  refine ⟨cl, s, s', hreach, hone, hn, hn', hcommit, hterm, ?_⟩
  refine (hlater 2 s' hn' hterm).imp_right fun he => ?_
  rw [← Option.isSome_map, he]
  rfl

/-- Leader 1 sends its log twice, with one and with two entries. Node 2 acknowledges both entries,
then handles the first request and cuts the second entry. Leader 1 commits it all the same, and
node 2 leads term 2 without it. -/
theorem committed_entry_lost :
    ¬ ∀ (lib : WireLib) (ids : List ℕ) (cl : Cluster), ids.Nodup →
      Runs.Reach (step lib ids) (fun _ _ => True) (start ids) cl → cl.OneLeaderPerTerm →
      ∀ (x : ℕ) (s : RaftState), (x, .advancedCommit s) ∈ cl.history →
        ∀ i, 0 < i → i ≤ s.commitIndex →
        ∃ e, (i ≤ s.logOffset ∨ (s.getEntry i).map (LogEntry.onWire lib) = some e) ∧
          ∀ y s', (y, .becameLeader s') ∈ cl.history → s.currentTerm < s'.currentTerm →
            i ≤ s'.logOffset ∨ (s'.getEntry i).map (LogEntry.onWire lib) = some e := by
  intro hall
  obtain ⟨cl, hreach, hone, hnotes⟩ := Runs.exists_reach_of_guardedRun
    (step .standard [1, 2, 3]) (fun _ _ => True)
    (fun cl => cl.OneLeaderPerTerm ∧ cl.CommitThenLeader fun p q =>
      2 ≤ p.2.commitIndex ∧ p.2.currentTerm < q.2.currentTerm ∧ q.2.logOffset = 0 ∧
        q.2.getEntry 2 = none) (start [1, 2, 3])
    (electedBy 1 2 1 0 0 ++ [⟨1, .appendCommand .noop⟩, ⟨1, .replicateTick⟩,
      ⟨1, .appendCommand .noop⟩, ⟨1, .replicateTick⟩,
      ⟨2, .deliver 0 1 (.appendEntries .replication
        (wholeLogRequest 1 1 [⟨1, 1, .noop⟩, ⟨1, 2, .noop⟩]))⟩,
      ⟨2, .deliver 0 1 (.appendEntries .replication (wholeLogRequest 1 1 [⟨1, 1, .noop⟩]))⟩,
      ⟨1, .deliver 0 2 (.appendReply .replication
        (wholeLogRequest 1 1 [⟨1, 1, .noop⟩, ⟨1, 2, .noop⟩]) ⟨1, true, 2⟩)⟩] ++
      electedBy 2 3 2 1 1)
    (by decide +kernel)
  obtain ⟨x, s, y, s', hn, hn', hcommit, hterm, hoff, hnone⟩ := hnotes.exists_notes
  have hoff : s'.logOffset = 0 := hoff
  have hnone : s'.getEntry 2 = none := hnone
  obtain ⟨e, -, hlater⟩ :=
    hall .standard [1, 2, 3] cl (by decide) hreach hone x s hn 2 two_pos hcommit
  rcases hlater y s' hn' hterm with hle | hsome
  · omega
  · rw [hnone] at hsome
    cases hsome

end Cluster
end NomadLite
