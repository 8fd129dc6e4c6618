import NomadLite.JobAccounts

/-!
# Snapshots contain the applied prefix

A snapshot is taken from a queue that client calls and loops write to before their
entries are committed, after the lock that fixed `last_applied` has been released. It
records the applied entries in runs where every snapshot is taken without outstanding
writes. The code does not look at them: a job whose entry is not committed gets into a
snapshot.
-/

namespace NomadLite

open Runs

namespace JobCluster

/-- In runs of orderly steps every snapshot that a node has stored holds the jobs of the entries
up to its index, less evicted ones. -/
theorem snapshots_record_prefix (lib : WireLib) (ids : List ℕ) (peers : ℕ → List PeerConfig)
    {jc : JobCluster} (h : Reach (step lib ids) (Orderly lib) (start ids peers) jc) {x : ℕ}
    {snap : Snapshot} (hsnap : (jc.node x).state.snapshot = some snap) :
    snap.Records jc.committed := by
  have hacc : jc.Accounted lib := accounted_of_reach (fun _ _ hord => hord) h
  exact (hacc.snapshots.node x).1 snap hsnap

/-! ### A log long enough to be compacted -/

structure Grown (x n : ℕ) (jc jc' : JobCluster) : Prop where
  sites : jc'.sites = jc.sites
  host : jc'.host x = jc.host x
  committed : jc'.committed = jc.committed
  node : ∃ log : List LogEntry, log.length = (jc.node x).state.log.length + n ∧
    jc'.node x = (jc.node x).withState { (jc.node x).state with log := log }

def Leads (x : ℕ) (jc : JobCluster) : Prop :=
  (jc.node x).state.role = .leader ∧ (jc.host x).running = true ∧ (jc.host x).mailbox = []

instance (x : ℕ) (jc : JobCluster) : Decidable (jc.Leads x) := inferInstanceAs (Decidable (_ ∧ _ ∧ _))

section Growing

variable (lib : WireLib) {ids : List ℕ} {Q : JobCluster → JobEvent → Prop} {jc : JobCluster} {x : ℕ}

theorem Grown.leads {n : ℕ} {jc' : JobCluster} (h : Grown x n jc jc') (hleads : jc.Leads x) :
    jc'.Leads x := by
  obtain ⟨log, -, hnode⟩ := h.node
  rw [Leads, h.host, hnode]
  exact hleads

theorem Grown.trans {n m : ℕ} {jc' jc'' : JobCluster} (h : Grown x n jc jc')
    (h' : Grown x m jc' jc'') : Grown x (n + m) jc jc'' where
  sites := h'.sites.trans h.sites
  host := h'.host.trans h.host
  committed := h'.committed.trans h.committed
  node := by
    obtain ⟨log, hlength, hnode⟩ := h.node
    obtain ⟨log', hlength', hnode'⟩ := h'.node
    rw [hnode] at hlength' hnode'
    refine ⟨log', ?_, hnode'⟩
    rw [hlength', ← Nat.add_assoc, ← hlength]
    rfl

theorem exists_forward (ids : List ℕ) {c : ℕ} {call : ForwardCall} (hcall : jc.forwards[c]? = some call)
    (hreceiver : call.receiver = x) (hstage : call.stage = .received) (hne : call.updates ≠ [])
    (hrunning : (jc.host x).running = true) (hmailbox : (jc.host x).mailbox = []) :
    ∃ jc', step lib ids jc (.forward c) = some jc' ∧ jc'.sites = jc.sites ∧
      jc'.host x = (jc.host x).push (.appendCommand (call.command lib) none) ∧
      jc'.committed = jc.committed ∧ jc'.node x = jc.node x := by
  subst hreceiver
  have hsend : (jc.host call.receiver).send (call.command lib) =
      some ((jc.host call.receiver).push (.appendCommand (call.command lib) none)) := by
    have hup : ¬ (jc.host call.receiver).running = false := by
      rw [hrunning]
      exact Bool.noConfusion
    rw [Host.send, if_neg hup, if_pos]
    rw [Host.hasRoom, hmailbox]
    rfl
  have hmove : call.step lib (jc.host call.receiver) =
      some ((jc.host call.receiver).push (.appendCommand (call.command lib) none),
        { call with stage := .sent }) := by
    simp only [ForwardCall.step, hstage, if_neg hne, hsend, Option.map_some, if_pos hrunning]
  have hstep : step lib ids jc (.forward c) = some
      { jc.set call.receiver ((jc.host call.receiver).push
          (.appendCommand (call.command lib) none), jc.sites call.receiver) with
        forwards := jc.forwards.set c { call with stage := .sent } } := by
    simp only [step, hcall, hmove, Option.map_some]
  refine ⟨_, hstep, ?_, ?_, rfl, rfl⟩
  · exact Function.update_eq_self _ _
  · exact Function.update_self ..

theorem exists_handleMessage (hx : x ∈ ids) (hrole : (jc.node x).state.role = .leader)
    {command : Command} (hmailbox : (jc.host x).mailbox = [.appendCommand command none]) :
    ∃ jc', step lib ids jc (.service (.handleMessage x)) = some jc' ∧ jc'.sites = jc.sites ∧
      jc'.host x = { jc.host x with mailbox := [] } ∧ jc'.committed = jc.committed ∧
      jc'.node x = (jc.node x).withState ((jc.node x).state.appendEntry command) := by
  have hbox : (jc.service.hosts x).mailbox = [.appendCommand command none] := hmailbox
  obtain ⟨svc, hsvc⟩ := Service.exists_handleMessage lib hx hrole (hbox ▸ List.cons_ne_nil _ _)
  have hstep : step lib ids jc (.service (.handleMessage x)) =
      some (jc.serve (.handleMessage x) svc) := by
    have hservices : (ServiceEvent.handleMessage x).isServices = true := rfl
    rw [step, if_pos hservices]
    exact congrArg (Option.map _) hsvc
  obtain ⟨message, rest, hmail, hhosts, -⟩ := Service.handleMessage_cases hsvc
  obtain ⟨rfl, rfl⟩ := List.cons.inj (hmail.symm.trans hbox)
  rcases Service.cluster_of_appendCommand hsvc hbox with hcl | ⟨hnot, -⟩
  · obtain ⟨eff, -, -, heff, hcluster⟩ := Cluster.step_eq_some hcl
    refine ⟨_, hstep, rfl, ?_, rfl, ?_⟩
    · change svc.hosts x = _
      rw [hhosts]
      exact Function.update_self ..
    · change svc.cluster.nodes x = _
      rw [hcluster, Cluster.apply_nodes]
      cases RaftNode.transition_of_step heff with
      | appendCommand => rfl
  · exact absurd hrole hnot

/-- A report from another node makes the log of the leader longer. -/
theorem exists_grown_one (hx : x ∈ ids) (hleads : jc.Leads x)
    (hreceive : ∀ jc updates, Q jc (.forwardJobStatus x updates))
    (hforward : ∀ jc c, Q jc (.forward c)) (hhandle : ∀ jc, Q jc (.service (.handleMessage x))) :
    ∃ jc', Reach (step lib ids) Q jc jc' ∧ Grown x 1 jc jc' := by
  obtain ⟨hrole, hrunning, hmailbox⟩ := hleads
  obtain ⟨call, hcall⟩ : ∃ call : ForwardCall, call = ⟨x, [⟨"", 0, 0, none, none⟩], .received⟩ :=
    ⟨_, rfl⟩
  obtain ⟨jc₀, hjc₀⟩ : ∃ jc₀ : JobCluster, jc₀ = { jc with forwards := jc.forwards ++ [call] } :=
    ⟨_, rfl⟩
  have hstep₀ : step lib ids jc (.forwardJobStatus x call.updates) = some jc₀ := by
    rw [hjc₀, hcall]
    rfl
  have hget : jc₀.forwards[jc.forwards.length]? = some call := by
    rw [hjc₀]
    exact List.getElem?_concat_length
  obtain ⟨jc₁, hstep₁, hsites₁, hhost₁, hcommitted₁, hnode₁⟩ :=
    exists_forward (x := x) lib ids hget (by rw [hcall]) (by rw [hcall])
      (by rw [hcall]; exact List.cons_ne_nil _ _) (by rw [hjc₀]; exact hrunning)
      (by rw [hjc₀]; exact hmailbox)
  rw [hjc₀] at hsites₁ hhost₁ hcommitted₁ hnode₁
  have hmailbox₁ : (jc₁.host x).mailbox = [.appendCommand (call.command lib) none] := by
    rw [hhost₁]
    change (jc.host x).mailbox ++ _ = _
    rw [hmailbox]
    rfl
  obtain ⟨jc₂, hstep₂, hsites₂, hhost₂, hcommitted₂, hnode₂⟩ :=
    exists_handleMessage lib hx (by rw [hnode₁]; exact hrole) hmailbox₁
  refine ⟨jc₂, ((Reach.init.next (hreceive ..) hstep₀).next (hforward ..) hstep₁).next
    (hhandle _) hstep₂, hsites₂.trans hsites₁, ?_, hcommitted₂.trans hcommitted₁, ?_⟩
  · rw [hhost₂, hhost₁, ← hmailbox]
    rfl
  · rw [hnode₂, hnode₁]
    exact ⟨_, List.length_append, rfl⟩

theorem exists_grown (hx : x ∈ ids) (hleads : jc.Leads x)
    (hreceive : ∀ jc updates, Q jc (.forwardJobStatus x updates))
    (hforward : ∀ jc c, Q jc (.forward c)) (hhandle : ∀ jc, Q jc (.service (.handleMessage x)))
    (n : ℕ) : ∃ jc', Reach (step lib ids) Q jc jc' ∧ Grown x n jc jc' := by
  induction n with
  | zero => exact ⟨jc, .init, rfl, rfl, rfl, _, rfl, rfl⟩
  | succ n ih =>
    obtain ⟨jc₁, hreach₁, hgrown₁⟩ := ih
    obtain ⟨jc₂, hreach₂, hgrown₂⟩ := exists_grown_one lib hx (hgrown₁.leads hleads)
      hreceive hforward hhandle
    exact ⟨jc₂, hreach₁.trans hreach₂, hgrown₁.trans hgrown₂⟩

def MayCompact (x : ℕ) (jobs : List Job) (workers : List ℕ) (jc : JobCluster) : Prop :=
  jc.Leads x ∧ (jc.sites x).phase = .applying [] ∧ (jc.node x).compaction = none ∧
    (jc.node x).state.logOffset < (jc.node x).state.lastApplied ∧ (jc.queue x).AllJobs jobs ∧
    (jc.sites x).assigner.AllWorkers workers

instance (x : ℕ) (jobs : List Job) (workers : List ℕ) (jc : JobCluster) :
    Decidable (jc.MayCompact x jobs workers) := inferInstanceAs (Decidable (_ ∧ _ ∧ _ ∧ _ ∧ _ ∧ _))

theorem step_schedule {lib : WireLib} {ev : SchedulerEvent} {sc : Scheduler} (hx : x ∈ ids)
    (hloops : ev.isLoops (jc.sites x).drain = true) (h : (jc.scheduler x).step lib ev = some sc) :
    step lib ids jc (.schedule x ev) = some (jc.schedule lib x ev sc) := by
  rw [step, if_pos ⟨hx, hloops⟩, h, Option.map_some]

theorem exists_beginCompaction (hx : x ∈ ids) (hphase : (jc.sites x).phase = .applying [])
    (hnone : (jc.node x).compaction = none)
    (hlong : RaftNode.logCompactionThreshold ≤ (jc.node x).state.log.length)
    (happlied : (jc.node x).state.lastApplied ≠ 0) :
    ∃ jc', step lib ids jc (.schedule x .beginCompaction) = some jc' ∧
      jc'.sites x = { jc.sites x with phase := .compacting } ∧ jc'.queue x = jc.queue x ∧
      jc'.committed = jc.committed ∧ jc'.node x = { jc.node x with
        compaction := some ⟨(jc.node x).state.lastApplied,
          RaftNode.lastAppliedTerm (jc.node x).state⟩ } := by
  have heff : (jc.scheduler x).node.beginCompaction = some ⟨{ jc.node x with
      compaction := some ⟨(jc.node x).state.lastApplied,
        RaftNode.lastAppliedTerm (jc.node x).state⟩ }, [], []⟩ := if_pos ⟨hnone, hlong, happlied⟩
  have hscheduler : (jc.scheduler x).step lib .beginCompaction =
      some (jc.scheduler x).beginCompaction := if_pos hphase
  rw [Scheduler.beginCompaction, heff] at hscheduler
  refine ⟨_, step_schedule hx rfl hscheduler, ?_, ?_, rfl, ?_⟩
  · exact Function.update_self ..
  · exact congrArg Host.queue (Function.update_self ..)
  · exact Function.update_self ..

theorem exists_finishCompaction {jobs : List Job} {workers : List ℕ} {c : Compaction}
    (hx : x ∈ ids) (hphase : (jc.sites x).phase = .compacting)
    (hc : (jc.node x).compaction = some c) (hjobs : (jc.queue x).AllJobs jobs)
    (hworkers : (jc.sites x).assigner.AllWorkers workers)
    (hoffset : (jc.node x).state.logOffset < c.lastApplied) :
    ∃ jc', step lib ids jc (.schedule x (.finishCompaction jobs workers)) = some jc' ∧
      jc'.committed = jc.committed ∧ (jc'.node x).state.snapshot =
        some ⟨c.lastApplied, c.lastAppliedTerm, jobs.map Job.toSnapshot, workers⟩ := by
  have heff : (jc.scheduler x).node.finishCompaction (jobs.map Job.toSnapshot) workers =
      some ⟨{ jc.node x with
        state := (jc.node x).state.compactLog
          ⟨c.lastApplied, c.lastAppliedTerm, jobs.map Job.toSnapshot, workers⟩
        compaction := none }, [], []⟩ := by
    rw [RaftNode.finishCompaction, show (jc.scheduler x).node.compaction = some c from hc]
    rfl
  have hscheduler : (jc.scheduler x).step lib (.finishCompaction jobs workers) =
      ((jc.scheduler x).node.finishCompaction (jobs.map Job.toSnapshot) workers).map fun effect =>
        { jc.scheduler x with node := effect.node, phase := .waiting } :=
    if_pos ⟨hphase, hjobs, hworkers⟩
  rw [heff, Option.map_some] at hscheduler
  refine ⟨_, step_schedule hx rfl hscheduler, rfl, ?_⟩
  change (Function.update jc.service.cluster.nodes x _ x).state.snapshot = _
  rw [Function.update_self]
  change ((jc.node x).state.compactLog _).snapshot = _
  rw [RaftState.compactLog, if_neg (not_le.mpr hoffset)]

/-- Once the log is long enough the node takes a snapshot of its queue. -/
theorem exists_compacted {jobs : List Job} {workers : List ℕ} (hx : x ∈ ids)
    (hmay : jc.MayCompact x jobs workers)
    (hreceive : ∀ jc updates, Q jc (.forwardJobStatus x updates))
    (hforward : ∀ jc c, Q jc (.forward c)) (hhandle : ∀ jc, Q jc (.service (.handleMessage x)))
    (hbegin : ∀ jc, Q jc (.schedule x .beginCompaction)) :
    ∃ jc₁ jc₂ term, Reach (step lib ids) Q jc jc₁ ∧
      step lib ids jc₁ (.schedule x (.finishCompaction jobs workers)) = some jc₂ ∧
      (jc₁.node x).compaction = some ⟨(jc.node x).state.lastApplied, term⟩ ∧
      (jc₁.sites x).applied = (jc.sites x).applied ∧
      (jc₁.sites x).outstanding = (jc.sites x).outstanding ∧ jc₂.committed = jc.committed ∧
      (jc₂.node x).state.snapshot =
        some ⟨(jc.node x).state.lastApplied, term, jobs.map Job.toSnapshot, workers⟩ := by
  obtain ⟨hleads, hphase, hnone, hoffset, hjobs, hworkers⟩ := hmay
  obtain ⟨jc₀, hreach, hgrown⟩ := exists_grown lib hx hleads hreceive hforward hhandle
    RaftNode.logCompactionThreshold
  obtain ⟨log, hlength, hnode⟩ := hgrown.node
  have hsite : jc₀.sites x = jc.sites x := congrFun hgrown.sites x
  have hqueue : jc₀.queue x = jc.queue x := congrArg Host.queue hgrown.host
  obtain ⟨jc₁, hstep₁, hsite₁, hqueue₁, hcommitted₁, hnode₁⟩ := exists_beginCompaction lib hx
    (by rw [hsite, hphase]) (by rw [hnode]; exact hnone)
    (by rw [hnode]; exact hlength ▸ Nat.le_add_left ..)
    (by rw [hnode]; exact ((Nat.zero_le _).trans_lt hoffset).ne')
  have hcompaction : (jc₁.node x).compaction = some ⟨(jc.node x).state.lastApplied,
      RaftNode.lastAppliedTerm (jc₀.node x).state⟩ := by
    rw [hnode₁, hnode]
    rfl
  obtain ⟨jc₂, hstep₂, hcommitted₂, hsnapshot⟩ := exists_finishCompaction lib hx
    (by rw [hsite₁]) hcompaction (by rw [hqueue₁, hqueue]; exact hjobs)
    (by rw [hsite₁, hsite]; exact hworkers) (by rw [hnode₁, hnode]; exact hoffset)
  refine ⟨jc₁, jc₂, _, hreach.next (hbegin _) hstep₁, hstep₂, hcompaction, ?_, ?_,
    hcommitted₂.trans (hcommitted₁.trans hgrown.committed), hsnapshot⟩
  · rw [hsite₁, hsite]
  · rw [hsite₁, hsite]

end Growing

/-! ### Two runs -/

def raftSteps (as : List Action) : List JobEvent := as.map fun a => .service (.raft a)

def submission (x c : ℕ) (id : Uuid) : List JobEvent :=
  [.service (.submitJob x ⟨"true", none⟩), .service (.call c .checkLeader),
    .service (.call c (.checkQueue id .epoch)), .service (.call c .send),
    .service (.handleMessage x), .service (.call c .receive), .service (.call c .addJob)]

def replication (x y term : ℕ) (entries : List LogEntry) : List JobEvent :=
  raftSteps [⟨x, .replicateTick⟩,
    ⟨y, .deliver 0 x (.appendEntries .replication (Cluster.wholeLogRequest term x entries))⟩,
    ⟨x, .deliver 0 y (.appendReply .replication (Cluster.wholeLogRequest term x entries)
      ⟨term, true, entries.length⟩)⟩,
    ⟨x, .heartbeatTick⟩,
    ⟨y, .deliver 0 x (.appendEntries .heartbeat ⟨term, x, 0, 0, [], entries.length⟩)⟩]

def application (x : ℕ) : List JobEvent :=
  [.schedule x .changed, .schedule x .takePendingSnapshot, .schedule x .getCommittedEntries,
    .schedule x (.applyEntry ⟨.epoch, 0⟩)]

def pendingJob (id : Uuid) : Job := .withId id "true" .epoch

def submitEntry (index : ℕ) (id : Uuid) : LogEntry := ⟨1, index, .submitJob id "true" .epoch none⟩

def firstJob : List JobEvent :=
  raftSteps (Cluster.electedBy 1 2 1 0 0) ++ submission 1 0 7 ++
    replication 1 2 1 [submitEntry 1 7] ++ application 1

theorem snapshots_record_first_job : ∃ jc snap,
    Reach (step .standard [1, 2]) (Orderly .standard) (start [1, 2] fun _ => []) jc ∧
      (jc.node 1).state.snapshot = some snap ∧ snap.lastIncludedIndex = 1 ∧
      snap.core 7 = some (.fresh 7 "true" none) ∧ snap.Records jc.committed := by
  obtain ⟨jc, hreach, hmay, hlast, happlied, houtstanding⟩ :=
    exists_reach_of_guardedRun (step .standard [1, 2]) (Orderly .standard)
      (fun jc => jc.MayCompact 1 [pendingJob 7] [] ∧ (jc.node 1).state.lastApplied = 1 ∧
        (jc.sites 1).applied = 1 ∧ (jc.sites 1).outstanding = [])
      (start [1, 2] fun _ => []) firstJob (by decide +kernel)
  obtain ⟨jc₁, jc₂, term, hreach₁, hstep, hcompaction, happlied₁, houtstanding₁, -, hsnap⟩ :=
    exists_compacted .standard (Q := Orderly .standard) (show 1 ∈ [1, 2] by decide) hmay
      (fun _ _ => trivial) (fun _ _ => trivial) (fun _ => trivial) fun _ => trivial
  rw [hlast] at hcompaction hsnap
  have hord : jc₁.Orderly .standard (.schedule 1 (.finishCompaction [pendingJob 7] [])) := by
    intro c hc
    rw [hcompaction] at hc
    refine .inr ⟨?_, houtstanding₁.trans houtstanding⟩
    rw [← Option.some.inj hc, happlied₁, happlied]
  have hall := (hreach.trans hreach₁).next hord hstep
  exact ⟨jc₂, _, hall, hsnap, rfl, rfl, snapshots_record_prefix _ _ _ hall hsnap⟩

/-- Job 8 is in the queue of its leader, not yet committed, when the snapshot of the first entry
is taken. -/
theorem snapshot_has_uncommitted_job : ∃ jc snap,
    Reach (step .standard [1, 2]) (fun _ _ => True) (start [1, 2] fun _ => []) jc ∧
      (jc.node 1).state.snapshot = some snap ∧ snap.lastIncludedIndex = 1 ∧
      snap.core 8 = some (.fresh 8 "true" none) ∧ (replay (jc.committed.take 1)).core 8 = none ∧
      ¬ snap.Records jc.committed := by
  obtain ⟨jc, hreach, hmay, hlast, hcommitted⟩ :=
    exists_reach_of_guardedRun (step .standard [1, 2]) (fun _ _ => True)
      (fun jc => jc.MayCompact 1 [pendingJob 7, pendingJob 8] [] ∧
        (jc.node 1).state.lastApplied = 1 ∧ jc.committed = [(submitEntry 1 7).command])
      (start [1, 2] fun _ => []) (firstJob ++ submission 1 1 8) (by decide +kernel)
  obtain ⟨jc₁, jc₂, term, hreach₁, hstep, -, -, -, hcommitted₂, hsnap⟩ :=
    exists_compacted .standard (Q := fun _ _ => True) (show 1 ∈ [1, 2] by decide) hmay
      (fun _ _ => trivial) (fun _ _ => trivial) (fun _ => trivial) fun _ => trivial
  rw [hlast] at hsnap
  rw [hcommitted] at hcommitted₂
  have hnone : (replay (jc₂.committed.take 1)).core 8 = none := by
    rw [hcommitted₂]
    decide +kernel
  refine ⟨jc₂, _, (hreach.trans hreach₁).next trivial hstep, hsnap, rfl, rfl, hnone, fun h => ?_⟩
  have hfollows := h.follows 8
  rw [hnone] at hfollows
  exact Option.some_ne_none _ hfollows.eq_of_some.symm

end JobCluster
end NomadLite
