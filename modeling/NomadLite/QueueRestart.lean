import NomadLite.SettledQueues
import NomadLite.StoredCluster

/-!
# Queues of nodes that start again

A node that stops loses its queue, its assigner, its mailbox and the calls it was
serving. It starts with an empty queue and whatever its disk holds, and its scheduler
loop rebuilds the queue from the stored snapshot and goes through the later entries of
the log once more. A job that is in a queue after some entries is in the same state
whenever a node has come to these entries again. Of the disk only the snapshot matters
for that, and a step that is cut short leaves the old one or the new one.
-/

namespace NomadLite

open Runs

def ClientCall.cutOff (x : ℕ) (nd : RaftNode) (call : ClientCall) : ClientCall :=
  if call.node = x ∧ call.stage.isReturned = false then
    call.finish nd (.error ⟨.unavailable, "transport error"⟩)
  else call

def ForwardCall.cutOff (x : ℕ) (call : ForwardCall) : ForwardCall :=
  if call.receiver = x ∧ call.stage.isAnswered = false then { call with stage := .answered false }
  else call

def Host.restarted (host : Host) : Host :=
  { host with queue := .new, draining := false, running := true, mailbox := [] }

/-- The Raft step that is part of a step of the whole system and writes to a disk. -/
def JobEvent.raftAction (jc : JobCluster) : JobEvent → Option Action
  | .service (.raft a) => some a
  | .service (.handleMessage x) =>
    match (jc.host x).mailbox with
    | .appendCommand command _ :: _ => some ⟨x, .appendCommand command⟩
    | _ => none
  | .schedule x (.finishCompaction jobs workers) =>
    some ⟨x, .finishCompaction (jobs.map Job.toSnapshot) workers⟩
  | _ => none

structure StoredJobs where
  jobs : JobCluster
  disks : ℕ → Disk
  pending : ℕ → Option LogEntry

/-- `beginAppend` is a step in which the raft loop appends an entry whose put follows with
`finishAppend`. -/
inductive StoredJobEvent where
  | act (ev : JobEvent)
  | beginAppend (x : ℕ)
  | finishAppend (x : ℕ)
  | stop (ev : JobEvent) (writes : ℕ)
  | restart (x : ℕ)

/-- Messages that are under way to other nodes arrive all the same. -/
def JobCluster.revive (jc : JobCluster) (x : ℕ) (stored : Option PersistedState) : JobCluster :=
  { jc with
    service :=
      { cluster := jc.service.cluster.apply x
          ⟨.newWithStorage (jc.node x).id (jc.node x).peers stored, [], []⟩
        hosts := Function.update jc.service.hosts x (jc.host x).restarted
        calls := jc.service.calls.map (ClientCall.cutOff x (jc.node x)) }
    sites := Function.update jc.sites x .new
    forwards := jc.forwards.map (ForwardCall.cutOff x) }

namespace StoredJobs

def start (ids : List ℕ) (peers : ℕ → List PeerConfig) : StoredJobs :=
  ⟨.start ids peers, fun _ => .empty, fun _ => none⟩

def writes (lib : WireLib) (sj : StoredJobs) (a : Action) : List DiskWrite :=
  (sj.jobs.node a.node).diskWrites lib (sj.disks a.node) a.event

def revive (sj : StoredJobs) (x : ℕ) (d : Disk) : StoredJobs where
  jobs := sj.jobs.revive x d.load
  disks := Function.update sj.disks x d
  pending := Function.update sj.pending x none

def step (lib : WireLib) (ids : List ℕ) (sj : StoredJobs) : StoredJobEvent → Option StoredJobs
  | .act ev => (sj.jobs.step lib ids ev).map fun jc =>
      match ev.raftAction sj.jobs with
      | some a => { sj with
          jobs := jc
          disks := Function.update sj.disks a.node
            ((sj.disks a.node).writeAll (sj.writes lib a)) }
      | none => { sj with jobs := jc }
  | .beginAppend x =>
    if sj.pending x = none then
      (sj.jobs.step lib ids (.service (.handleMessage x))).map fun jc =>
        { sj with
          jobs := jc
          pending := Function.update sj.pending x ((sj.jobs.handled x).head?.map Prod.snd) }
    else none
  | .finishAppend x => (sj.pending x).map fun entry =>
      { sj with
        disks := Function.update sj.disks x ((sj.disks x).writeAll (Disk.appendEntry entry))
        pending := Function.update sj.pending x none }
  | .stop ev k =>
    match sj.jobs.step lib ids ev, ev.raftAction sj.jobs with
    | some _, some a =>
      some (sj.revive a.node ((sj.disks a.node).writeAll ((sj.writes lib a).take k)))
    | _, _ => none
  | .restart x => if x ∈ ids then some (sj.revive x (sj.disks x)) else none

end StoredJobs

def StoredJobs.Fits (sj : StoredJobs) (ev : JobEvent) : Prop :=
  ∀ a ∈ ev.raftAction sj.jobs, ∀ op ∈ (sj.jobs.node a.node).durableOp a.event,
    op.Fits (sj.jobs.node a.node).state

instance (sj : StoredJobs) (ev : JobEvent) : Decidable (sj.Fits ev) :=
  inferInstanceAs (Decidable (∀ a ∈ ev.raftAction sj.jobs,
    ∀ op ∈ (sj.jobs.node a.node).durableOp a.event, _))

/-- The condition is asked of every step that begins, also of one that is cut short. -/
def StoredJobEvent.Meets (Q : JobCluster → JobEvent → Prop) (sj : StoredJobs) :
    StoredJobEvent → Prop
  | .act ev | .stop ev _ => Q sj.jobs ev ∧ sj.Fits ev
  | .beginAppend x =>
    Q sj.jobs (.service (.handleMessage x)) ∧ sj.Fits (.service (.handleMessage x))
  | .finishAppend _ | .restart _ => True

instance (Q : JobCluster → JobEvent → Prop) [∀ jc ev, Decidable (Q jc ev)] (sj : StoredJobs) :
    (sev : StoredJobEvent) → Decidable (sev.Meets Q sj)
  | .act ev | .stop ev _ => inferInstanceAs (Decidable (Q sj.jobs ev ∧ sj.Fits ev))
  | .beginAppend x => inferInstanceAs (Decidable (Q sj.jobs (.service (.handleMessage x)) ∧
      sj.Fits (.service (.handleMessage x))))
  | .finishAppend _ | .restart _ => isTrue trivial

theorem Follows.total {core core' ideal : Option JobCore} (h : Follows core ideal)
    (h' : Follows core' ideal) : Follows core core' ∨ Follows core' core := by
  rcases h with rfl | ⟨rfl, c, rfl, hfin⟩
  · exact .inr h'
  · rcases h' with rfl | ⟨rfl, -⟩
    · exact .inl (.inr ⟨rfl, c, rfl, hfin⟩)
    · exact .inl (.inl rfl)

/-! ### The snapshot on disk -/

theorem Disk.putSnapshot_of_writeAll {d : Disk} {ws : List DiskWrite} {snap : Snapshot}
    (h : (d.writeAll ws).snapshot = some snap) :
    d.snapshot = some snap ∨ DiskWrite.putSnapshot snap ∈ ws := by
  induction ws generalizing d with
  | nil => exact .inl h
  | cons w ws ih =>
    rcases ih h with hold | hlater
    · cases w with
      | putSnapshot snapshot =>
        obtain rfl := Option.some.inj hold
        exact .inr (.head _)
      | _ => exact .inl hold
    · exact .inr (.tail _ hlater)

theorem RaftState.snapshot_of_saveSnapshot {s : RaftState} {d : Disk} {snap : Snapshot}
    (h : DiskWrite.putSnapshot snap ∈ s.saveSnapshot d) : s.snapshot = some snap := by
  rw [saveSnapshot] at h
  cases hsnap : s.snapshot with
  | none =>
    rw [hsnap] at h
    cases h
  | some snapshot =>
    rw [hsnap] at h
    rcases List.mem_append.mp h with hhead | hdelete
    · rcases List.mem_cons.mp hhead with heq | hoffset
      · rw [DiskWrite.putSnapshot.inj heq]
      · cases List.mem_singleton.mp hoffset
    · split_ifs at hdelete
      · obtain ⟨i, -, heq⟩ := List.mem_map.mp hdelete
        cases heq
      · cases hdelete

/-- Whichever operation stores a snapshot, it is the one in memory. -/
theorem DurableOp.snapshot_of_writes {lib : WireLib} {s : RaftState} {d : Disk} {op : DurableOp}
    {snap : Snapshot} (h : DiskWrite.putSnapshot snap ∈ op.writes lib s d) :
    (op.exec lib s).snapshot = some snap := by
  have hhard : ∀ s' : RaftState, DiskWrite.putSnapshot snap ∉ s'.saveHardState := fun s' hmem => by
    simp [RaftState.saveHardState, Disk.saveHardState] at hmem
  cases op.recipe lib s d with
  | hardState _ _ _ _ hwrites =>
    rw [hwrites] at h
    exact absurd h (hhard _)
  | volatile _ _ hwrites =>
    rw [hwrites] at h
    cases h
  | appendEntries req hop =>
    subst hop
    rcases List.mem_append.mp h with hmem | hmem
    · exact absurd hmem (hhard _)
    · have hcut : ∀ i, DiskWrite.putSnapshot snap ∉ d.truncateFrom i := fun i hmem => by
        obtain ⟨j, -, heq⟩ := List.mem_map.mp hmem
        cases heq
      split_ifs at hmem
      · rcases List.mem_append.mp hmem with hmem | hmem
        · exact absurd hmem (hcut _)
        · obtain ⟨e, -, heq⟩ := List.mem_map.mp hmem
          cases heq
      · exact absurd hmem (hcut _)
      · cases hmem
  | installSnapshot req hop =>
    subst hop
    rcases List.mem_append.mp h with hmem | hmem
    · exact absurd hmem (hhard _)
    · split_ifs at hmem
      · exact RaftState.snapshot_of_saveSnapshot hmem
      · cases hmem
  | appendCommand command hop hrole =>
    subst hop
    rw [writes, if_pos hrole] at h
    cases List.mem_singleton.mp h
  | compaction lastApplied lastAppliedTerm jobs workers hop =>
    subst hop
    exact RaftState.snapshot_of_saveSnapshot h

/-- A step that is cut short leaves the old snapshot or the one in memory after the step. -/
theorem RaftNode.snapshot_of_cut {lib : WireLib} {nd : RaftNode} {d : Disk} {ev : Event} {k : ℕ}
    {snap : Snapshot}
    (h : (d.writeAll ((nd.diskWrites lib d ev).take k)).snapshot = some snap) :
    d.snapshot = some snap ∨ (nd.stateAfter lib ev).snapshot = some snap := by
  refine (Disk.putSnapshot_of_writeAll h).imp_right fun hmem => ?_
  have hmem := List.mem_of_mem_take hmem
  rw [diskWrites] at hmem
  rw [stateAfter]
  cases hop : nd.durableOp ev with
  | none =>
    rw [hop] at hmem
    cases hmem
  | some op =>
    rw [hop] at hmem
    exact op.snapshot_of_writes hmem

namespace JobCluster

variable {lib : WireLib} {ids : List ℕ} {jc jc' : JobCluster} {ev : JobEvent} {a : Action}

theorem state_of_raftAction (hstep : jc.step lib ids ev = some jc')
    (ha : ev.raftAction jc = some a) :
    (jc'.node a.node).state = (jc.node a.node).stateAfter lib a.event := by
  have hcluster : ∀ {cl' : Cluster}, jc.service.cluster.step lib ids a = some cl' →
      (cl'.nodes a.node).state = (jc.node a.node).stateAfter lib a.event := fun hcl => by
    obtain ⟨eff, -, -, heff, rfl⟩ := Cluster.step_eq_some hcl
    rw [Cluster.apply_nodes]
    exact RaftNode.state_of_step heff
  cases stepped_of_step hstep with
  | @service sev svc hev hsvc =>
    cases sev with
    | raft b =>
      obtain rfl := Option.some.inj ha
      cases Service.stepped_of_step hsvc with
      | raft hcl => exact hcluster hcl
    | handleMessage x =>
      rw [JobEvent.raftAction] at ha
      split at ha
      · next command caller rest hmail =>
        obtain rfl := Option.some.inj ha
        rcases Service.cluster_of_appendCommand hsvc hmail with hcl | ⟨hrole, hsame⟩
        · exact hcluster hcl
        · change (svc.cluster.nodes x).state = _
          rw [hsame]
          exact (if_neg hrole).symm
      · cases ha
    | _ => cases ha
  | @schedule x sev sc hloops hsc =>
    cases sev with
    | finishCompaction jobs workers =>
      obtain rfl := Option.some.inj ha
      cases Scheduler.stepped_of_step hsc with
      | @finishCompaction _ _ effect _ _ heff =>
        have hnode : (jc.node x).step lib
            (.finishCompaction (jobs.map Job.toSnapshot) workers) = some effect := heff
        change (Function.update jc.service.cluster.nodes x _ x).state = _
        rw [Function.update_self]
        exact RaftNode.state_of_step hnode
    | _ => cases ha
  | _ => cases ha

/-- No step with a part that writes to a disk applies an entry. -/
theorem committed_of_raftAction (hstep : jc.step lib ids ev = some jc')
    (ha : ev.raftAction jc = some a) : jc'.committed = jc.committed := by
  cases stepped_of_step hstep with
  | service => rfl
  | @schedule x sev sc hloops hsc =>
    cases sev with
    | finishCompaction => rfl
    | _ => cases ha
  | _ => cases ha

theorem committed_isPrefix_committing (jc : JobCluster) (site : Site) (ev : SchedulerEvent) :
    jc.committed <+: jc.committing lib site ev := by
  unfold committing
  split
  · split_ifs
    · exact List.prefix_refl _
    · exact List.prefix_append ..
  · exact List.prefix_refl _

theorem committed_isPrefix_of_step {ev : JobEvent} (hstep : jc.step lib ids ev = some jc') :
    jc.committed <+: jc'.committed := by
  cases stepped_of_step hstep with
  | schedule => exact committed_isPrefix_committing ..
  | _ => exact List.prefix_refl _

end JobCluster

/-! ### Nodes that come back -/

theorem RaftState.snapshot_newWithStorage {d : Disk} {snap : Snapshot}
    (h : (newWithStorage d.load).snapshot = some snap) : d.snapshot = some snap := by
  rw [Disk.load] at h
  cases hterm : d.term with
  | none =>
    rw [hterm] at h
    cases h
  | some term =>
    rw [hterm] at h
    exact h

/-- The stored snapshot comes back, and is queued for the scheduler loop. -/
theorem Cluster.Keeps.revive {lib : WireLib} {P : Snapshot → Prop} {cl : Cluster}
    (h : cl.Keeps lib P) (x id : ℕ) (peers : List ℕ) {d : Disk} (hd : ∀ snap ∈ d.snapshot, P snap) :
    (cl.apply x ⟨.newWithStorage id peers d.load, [], []⟩).Keeps lib P where
  node y := by
    by_cases hy : y = x
    · have hsnap : ∀ snap ∈ (RaftState.newWithStorage d.load).snapshot, P snap := fun snap hsnap =>
        hd snap (RaftState.snapshot_newWithStorage hsnap)
      rw [hy, Cluster.apply_nodes]
      exact ⟨hsnap, hsnap⟩
    · change RaftNode.Keeps P (Function.update cl.nodes x _ y)
      rw [Function.update_of_ne hy]
      exact h.node y
  network p hp := by
    change p ∈ cl.network ++ [] at hp
    rw [List.append_nil] at hp
    exact h.network p hp

theorem ClientCall.job_cutOff {x : ℕ} {nd : RaftNode} {call : ClientCall} {job : Job}
    (h : job ∈ (call.cutOff x nd).stage.job) : job ∈ call.stage.job := by
  rw [ClientCall.cutOff] at h
  split_ifs at h
  · cases h
  · exact h

/-- An empty queue follows the log from its beginning. -/
theorem JobCluster.Accounted.revive {lib : WireLib} {jc : JobCluster} (h : jc.Accounted lib)
    (x : ℕ) {d : Disk} (hd : ∀ snap ∈ d.snapshot, snap.Records jc.committed) :
    (jc.revive x d.load).Accounted lib where
  commands := h.commands
  fresh call hcall job hjob := by
    obtain ⟨call', hcall', rfl⟩ := List.mem_map.mp hcall
    exact h.fresh call' hcall' job (ClientCall.job_cutOff hjob)
  ended y := by
    change (Function.update jc.sites x .new y).worker.Ended
    by_cases hy : y = x
    · rw [hy, Function.update_self]
      trivial
    · rw [Function.update_of_ne hy]
      exact h.ended y
  tracks y := by
    change (Function.update jc.sites x .new y).Tracks jc.committed
      (Function.update jc.service.hosts x (jc.host x).restarted y).queue
    by_cases hy : y = x
    · rw [hy, Function.update_self, Function.update_self]
      exact .new _
    · rw [Function.update_of_ne hy, Function.update_of_ne hy]
      exact h.tracks y
  snapshots := h.snapshots.revive x _ _ hd
  phases y := by
    change ∀ snap ∈ (Function.update jc.sites x .new y).phase.snapshot, _
    by_cases hy : y = x
    · rw [hy, Function.update_self]
      exact forall_mem_none
    · rw [Function.update_of_ne hy]
      exact h.phases y

namespace StoredJobs

variable {lib : WireLib} {ids : List ℕ} {sj sj' : StoredJobs} {ev : JobEvent} {x : ℕ}

structure Accounted (lib : WireLib) (sj : StoredJobs) : Prop where
  jobs : sj.jobs.Accounted lib
  disks : ∀ x, ∀ snap ∈ (sj.disks x).snapshot, snap.Records sj.jobs.committed

theorem accounted_start (lib : WireLib) (ids : List ℕ) (peers : ℕ → List PeerConfig) :
    (start ids peers).Accounted lib where
  jobs := JobCluster.accounted_start lib ids peers
  disks _ := forall_mem_none

namespace Accounted

theorem records_of_step (h : sj.Accounted lib) {jc : JobCluster}
    (hs : sj.jobs.step lib ids ev = some jc) (x : ℕ) :
    ∀ snap ∈ (sj.disks x).snapshot, snap.Records jc.committed := by
  obtain ⟨later, hlater⟩ := JobCluster.committed_isPrefix_of_step hs
  rw [← hlater]
  exact fun snap hsnap => (h.disks x snap hsnap).append later

theorem records_of_cut (h : sj.Accounted lib) {jc : JobCluster} {a : Action}
    (hs : sj.jobs.step lib ids ev = some jc) (hjc : jc.Accounted lib)
    (ha : ev.raftAction sj.jobs = some a) (k : ℕ) :
    ∀ snap ∈ ((sj.disks a.node).writeAll ((sj.writes lib a).take k)).snapshot,
      snap.Records jc.committed := by
  intro snap hsnap
  rcases RaftNode.snapshot_of_cut hsnap with hold | hnew
  · exact h.records_of_step hs a.node snap hold
  · rw [← JobCluster.state_of_raftAction hs ha] at hnew
    exact (hjc.snapshots.node a.node).1 snap hnew

theorem update (h : sj.Accounted lib) {jc : JobCluster} (hs : sj.jobs.step lib ids ev = some jc)
    (hjc : jc.Accounted lib) {d : Disk} (hd : ∀ snap ∈ d.snapshot, snap.Records jc.committed)
    (pending : ℕ → Option LogEntry) :
    Accounted lib ⟨jc, Function.update sj.disks x d, pending⟩ where
  jobs := hjc
  disks y := by
    by_cases hy : y = x
    · simpa only [hy, Function.update_self] using hd
    · simpa only [Function.update_of_ne hy] using h.records_of_step hs y

theorem act (h : sj.Accounted lib) (hord : sj.jobs.Orderly lib ev)
    (hs : sj.step lib ids (.act ev) = some sj') : sj'.Accounted lib := by
  obtain ⟨jc, hjc, rfl⟩ := Option.map_eq_some_iff.mp hs
  have hacc := h.jobs.step hord hjc
  cases ha : ev.raftAction sj.jobs with
  | none => exact ⟨hacc, h.records_of_step hjc⟩
  | some a =>
    have hrecords := h.records_of_cut hjc hacc ha (sj.writes lib a).length
    rw [List.take_length] at hrecords
    exact h.update hjc hacc hrecords sj.pending

theorem beginAppend (h : sj.Accounted lib)
    (hord : sj.jobs.Orderly lib (.service (.handleMessage x)))
    (hs : sj.step lib ids (.beginAppend x) = some sj') : sj'.Accounted lib := by
  rw [StoredJobs.step] at hs
  split_ifs at hs
  obtain ⟨jc, hjc, rfl⟩ := Option.map_eq_some_iff.mp hs
  exact ⟨h.jobs.step hord hjc, h.records_of_step hjc⟩

theorem finishAppend (h : sj.Accounted lib) (hs : sj.step lib ids (.finishAppend x) = some sj') :
    sj'.Accounted lib := by
  obtain ⟨entry, -, rfl⟩ := Option.map_eq_some_iff.mp hs
  refine ⟨h.jobs, fun y => ?_⟩
  by_cases hy : y = x
  · simp only [hy, Function.update_self]
    exact h.disks x
  · simp only [Function.update_of_ne hy]
    exact h.disks y

theorem revive (h : sj.Accounted lib) {d : Disk}
    (hd : ∀ snap ∈ d.snapshot, snap.Records sj.jobs.committed) : (sj.revive x d).Accounted lib where
  jobs := h.jobs.revive x hd
  disks y := by
    by_cases hy : y = x
    · simp only [StoredJobs.revive, hy, Function.update_self]
      exact hd
    · simp only [StoredJobs.revive, Function.update_of_ne hy]
      exact h.disks y

theorem stop (h : sj.Accounted lib) (hord : sj.jobs.Orderly lib ev) {k : ℕ}
    (hs : sj.step lib ids (.stop ev k) = some sj') : sj'.Accounted lib := by
  rw [StoredJobs.step] at hs
  split at hs
  · next jc a hjc ha =>
    obtain rfl := Option.some.inj hs
    refine h.revive ?_
    rw [← JobCluster.committed_of_raftAction hjc ha]
    exact h.records_of_cut hjc (h.jobs.step hord hjc) ha k
  · cases hs

theorem step (h : sj.Accounted lib) {sev : StoredJobEvent}
    (hq : sev.Meets (JobCluster.Orderly lib) sj) (hs : sj.step lib ids sev = some sj') :
    sj'.Accounted lib := by
  cases sev with
  | act ev => exact h.act hq.1 hs
  | beginAppend x => exact h.beginAppend hq.1 hs
  | finishAppend x => exact h.finishAppend hs
  | stop ev k => exact h.stop hq.1 hs
  | restart x =>
    rw [StoredJobs.step] at hs
    split_ifs at hs
    obtain rfl := Option.some.inj hs
    exact h.revive (h.disks x)

end Accounted

theorem committed_isPrefix_of_step {sev : StoredJobEvent} (hs : sj.step lib ids sev = some sj') :
    sj.jobs.committed <+: sj'.jobs.committed := by
  cases sev with
  | act ev =>
    obtain ⟨jc, hjc, rfl⟩ := Option.map_eq_some_iff.mp hs
    have hpre := JobCluster.committed_isPrefix_of_step hjc
    cases ev.raftAction sj.jobs <;> exact hpre
  | beginAppend x =>
    rw [step] at hs
    split_ifs at hs
    obtain ⟨jc, hjc, rfl⟩ := Option.map_eq_some_iff.mp hs
    exact JobCluster.committed_isPrefix_of_step hjc
  | finishAppend x =>
    obtain ⟨entry, -, rfl⟩ := Option.map_eq_some_iff.mp hs
    exact List.prefix_refl _
  | stop ev k =>
    rw [step] at hs
    split at hs
    · obtain rfl := Option.some.inj hs
      exact List.prefix_refl _
    · cases hs
  | restart x =>
    rw [step] at hs
    split_ifs at hs
    obtain rfl := Option.some.inj hs
    exact List.prefix_refl _

def restartedFollower : List StoredJobEvent :=
  .restart 2 :: (JobCluster.raftSteps [⟨1, .heartbeatTick⟩,
    ⟨2, .deliver 0 1 (.appendEntries .heartbeat ⟨1, 1, 0, 0, [], 1⟩)⟩] ++
      JobCluster.application 2).map .act

end StoredJobs
end NomadLite
