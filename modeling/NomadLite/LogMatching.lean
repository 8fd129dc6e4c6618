import NomadLite.ClusterLog
import NomadLite.StandardWire

/-!
# Log Matching

Without compaction a node holds its whole log, and the view anchors every log in the
logs of the leaders. So two logs that agree on the index and term of an entry agree
up to it. Only a step-down that lowers the term breaks this: the same node can then
lead one term twice, with different logs.
-/

namespace NomadLite
namespace Cluster

variable {ids : List ℕ} {cl : Cluster}

/-- In every run of the append-only fragment with one leader per term and without a step-down that
lowers the term, logs that agree on the index and term of an entry agree up to it. -/
theorem log_matching (lib : WireLib) (hids : ids.Nodup)
    (h : Runs.Reach (step lib ids)
      (fun cl a => a.event.AppendOnly ∧ (cl.nodes a.node).KeepsTerm a.event) (start ids) cl)
    (hone : cl.OneLeaderPerTerm) {x y : ℕ} (hx : x ∈ ids) (hy : y ∈ ids) {e e' : LogEntry}
    (he : e ∈ (cl.nodes x).state.log) (he' : e' ∈ (cl.nodes y).state.log)
    (hindex : e.index = e'.index) (hterm : e.term = e'.term) {i : ℕ} (hi : i ≤ e.index) :
    ((cl.nodes x).state.getEntry i).map (LogEntry.onWire lib) =
      ((cl.nodes y).state.getEntry i).map (LogEntry.onWire lib) := by
  obtain ⟨hreach, hunc⟩ := reach_uncompacted
    (h.mono fun _ _ hq => ⟨Event.AppendOnly.noCompaction hq.1, hq.2⟩)
  obtain ⟨g, hg⟩ := exists_hasLogs False hids
    (hreach.mono fun _ _ hq => ⟨hq.2.2, hq.2.1, False.elim⟩) hone
  have hzero := fun x hx => hunc.offset (x := x) hx
  have hnode := hg.linked.node
  obtain ⟨j, hj⟩ := List.mem_iff_getElem?.mp he
  obtain ⟨j', hj'⟩ := List.mem_iff_getElem?.mp he'
  have hjx := (hnode x hx).holds.aligned j e hj
  have hjy := (hnode y hy).holds.aligned j' e' hj'
  have hget := (hnode x hx).holds.getEntry_of_mem (hzero x hx) hj
  have hget' := (hnode y hy).holds.getEntry_of_mem (hzero y hy) hj'
  rw [hzero x hx] at hjx
  rw [hzero y hy] at hjy
  obtain rfl : j = j' := by omega
  have htake := (hg.sound.matched.log_anchored x).take_eq_take (hg.sound.matched.log_anchored y)
    hget hget' hterm
  rcases Nat.eq_zero_or_pos i with rfl | hpos
  · rfl
  · rw [(hnode x hx).holds.getEntry (by rw [hzero x hx]; exact hpos),
      (hnode y hy).holds.getEntry (by rw [hzero y hy]; exact hpos)]
    have hsame := congrArg (fun l => l[i - 1]?) htake
    simpa only [List.getElem?_take_of_lt (show i - 1 < j + 1 by omega)] using hsame

/-- Node 2 takes over the entry that leader 1 has appended. -/
theorem log_matching_replicated :
    ∃ cl, Runs.Reach (step .standard [1, 2, 3])
        (fun cl a => a.event.AppendOnly ∧ (cl.nodes a.node).KeepsTerm a.event)
        (start [1, 2, 3]) cl ∧ cl.OneLeaderPerTerm ∧
      ⟨1, 1, .noop⟩ ∈ (cl.nodes 1).state.log ∧ ⟨1, 1, .noop⟩ ∈ (cl.nodes 2).state.log ∧
      ((cl.nodes 1).state.getEntry 1).map (LogEntry.onWire .standard) =
        ((cl.nodes 2).state.getEntry 1).map (LogEntry.onWire .standard) := by
  obtain ⟨cl, hreach, hone, hleader, hfollower⟩ := Runs.exists_reach_of_guardedRun
    (step .standard [1, 2, 3])
    (fun cl a => a.event.AppendOnly ∧ (cl.nodes a.node).KeepsTerm a.event)
    (fun cl => cl.OneLeaderPerTerm ∧ ⟨1, 1, .noop⟩ ∈ (cl.nodes 1).state.log ∧
      ⟨1, 1, .noop⟩ ∈ (cl.nodes 2).state.log) (start [1, 2, 3])
    (electedBy 1 2 1 0 0 ++ [⟨1, .appendCommand .noop⟩, ⟨1, .replicateTick⟩,
      ⟨2, .deliver 0 1 (.appendEntries .replication (wholeLogRequest 1 1 [⟨1, 1, .noop⟩]))⟩])
    (by decide +kernel)
  exact ⟨cl, hreach, hone, hleader, hfollower, log_matching .standard (by decide) hreach hone
    (by decide) (by decide) hleader hfollower rfl rfl le_rfl⟩

/-- Leader 1 of term 3 has replicated two entries to node 2 when the reply to a heartbeat of its
term 1 takes it back to term 2. There it loses its log to the leader of term 2, is elected in
term 3 again and appends another entry of index 2 and term 3. -/
theorem logs_diverge_after_lowered_term :
    ¬ ∀ (lib : WireLib) (ids : List ℕ) (cl : Cluster), ids.Nodup →
      Runs.Reach (step lib ids) (fun _ a => a.event.AppendOnly) (start ids) cl →
      cl.OneLeaderPerTerm → ∀ x ∈ ids, ∀ y ∈ ids, ∀ e ∈ (cl.nodes x).state.log,
        ∀ e' ∈ (cl.nodes y).state.log, e.index = e'.index → e.term = e'.term → ∀ i ≤ e.index,
        ((cl.nodes x).state.getEntry i).map (LogEntry.onWire lib) =
          ((cl.nodes y).state.getEntry i).map (LogEntry.onWire lib) := by
  intro hall
  obtain ⟨cl, hreach, hone, e, he, e', he', hindex, hterm, hi, hne⟩ :=
    Runs.exists_reach_of_guardedRun (step .standard [1, 2, 3]) (fun _ a => a.event.AppendOnly)
      (fun cl => cl.OneLeaderPerTerm ∧ ∃ e ∈ (cl.nodes 1).state.log,
        ∃ e' ∈ (cl.nodes 2).state.log, e.index = e'.index ∧ e.term = e'.term ∧ 1 ≤ e.index ∧
          ((cl.nodes 1).state.getEntry 1).map (LogEntry.onWire .standard) ≠
            ((cl.nodes 2).state.getEntry 1).map (LogEntry.onWire .standard)) (start [1, 2, 3])
      (electedBy 1 2 1 0 0 ++ electedBy 2 3 2 0 0 ++
        [⟨1, .heartbeatTick⟩, ⟨2, .deliver 0 1 (.appendEntries .heartbeat ⟨1, 1, 0, 0, [], 0⟩)⟩,
          ⟨3, .deliver 0 1 (.appendEntries .heartbeat ⟨1, 1, 0, 0, [], 0⟩)⟩,
          ⟨2, .appendCommand (.registerWorker 0)⟩, ⟨2, .replicateTick⟩,
          ⟨1, .deliver 0 3 (.appendReply .heartbeat ⟨1, 1, 0, 0, [], 0⟩ ⟨2, false, 0⟩)⟩] ++
        electedBy 1 3 3 0 0 ++
        [⟨1, .appendCommand (.registerWorker 1)⟩, ⟨1, .appendCommand (.registerWorker 2)⟩,
          ⟨1, .replicateTick⟩,
          ⟨2, .deliver 0 1 (.appendEntries .replication
            (wholeLogRequest 3 1 [⟨3, 1, .registerWorker 1⟩, ⟨3, 2, .registerWorker 2⟩]))⟩,
          ⟨1, .deliver 0 2 (.appendReply .heartbeat ⟨1, 1, 0, 0, [], 0⟩ ⟨2, false, 0⟩)⟩,
          ⟨1, .deliver 0 2 (.appendEntries .replication
            (wholeLogRequest 2 2 [⟨2, 1, .registerWorker 0⟩]))⟩] ++
        electedBy 1 3 3 1 2 ++ [⟨1, .appendCommand (.registerWorker 3)⟩])
      (by decide +kernel)
  exact hne (hall .standard [1, 2, 3] cl (by decide) hreach hone 1 (by decide) 2 (by decide)
    e he e' he' hindex hterm 1 hi)

end Cluster
end NomadLite
