import NomadLite.SnapshotPrefix

/-!
# Queues once the proposals have settled

Nothing is under way any more and all nodes have applied the same entries. Then two
queues agree on a job exactly when no direct write to it is left without its entry.
The code leaves such a write behind whenever a proposal is refused: the scheduler loop
marks a job as running, leadership moves on, and nobody takes the mark back.
-/

namespace NomadLite

open Optimistic Runs

def Stage.isReturned : Stage → Bool
  | .returned _ => true
  | _ => false

def ForwardStage.isAnswered : ForwardStage → Bool
  | .answered _ => true
  | _ => false

theorem Rebased.status_ne {id : Uuid} {core core' : JobCore} {w : DirectWrite}
    {ws : List DirectWrite}
    (h : Valid (DirectWrite.Pre id) DirectWrite.eff (some core) (w :: ws))
    (hcore' : ahead DirectWrite.eff (some core) (w :: ws) = some core') :
    core'.status ≠ core.status := by
  cases w with
  | submitted job => exact absurd h.1.1 (Option.some_ne_none _)
  | assigned workerId =>
    obtain ⟨⟨c, heq, hpending⟩, hrest⟩ := h
    obtain rfl := Option.some.inj heq
    rw [hpending]
    rcases writes_of_running (by rfl) hrest with rfl | ⟨u, rfl, hid, hrep, hcid⟩
    · rw [← Option.some.inj hcore']
      exact JobStatus.noConfusion
    · change some ((core.assign workerId).applyStatus u) = some core' at hcore'
      rw [← Option.some.inj hcore', eff_finished hid hcid rfl]
      intro hstatus
      have hfin := hrep.finished
      rw [show u.status = .pending from hstatus] at hfin
      cases hfin
  | finished u =>
    obtain ⟨⟨hid, hrep, c, heq, hcid, hrunning⟩, hrest⟩ := h
    obtain rfl := Option.some.inj heq
    rw [DirectWrite.eff, Option.map_some, eff_finished hid hcid hrunning] at hrest
    obtain rfl := writes_of_finished hrep.finished hrest
    change some (core.applyStatus u) = some core' at hcore'
    rw [← Option.some.inj hcore', eff_finished hid hcid hrunning, hrunning]
    intro hstatus
    have hfin := hrep.finished
    rw [show u.status = .running from hstatus] at hfin
    cases hfin

namespace JobCluster

def SettledAt (jc : JobCluster) (x : ℕ) : Prop :=
  (jc.sites x).phase = .waiting ∧ (jc.sites x).drain = .idle ∧
    ((jc.sites x).worker = .starting ∨ (jc.sites x).worker = .waiting) ∧
    (jc.host x).mailbox = [] ∧ (jc.sites x).applied = jc.committed.length ∧
    (jc.node x).state.lastApplied = (jc.node x).state.commitIndex ∧
    ∀ e ∈ (jc.node x).state.log, e.index ≤ (jc.node x).state.commitIndex

instance (jc : JobCluster) (x : ℕ) : Decidable (jc.SettledAt x) :=
  inferInstanceAs (Decidable (_ ∧ _ ∧ _ ∧ _ ∧ _ ∧ _ ∧ ∀ e ∈ (jc.node x).state.log, _))

/-- No node is in the middle of a step, everything proposed has been answered, everything appended
is committed or gone, and all nodes have applied the whole log. -/
def Settled (ids : List ℕ) (jc : JobCluster) : Prop :=
  (∀ x ∈ ids, jc.SettledAt x) ∧ (∀ call ∈ jc.service.calls, call.stage.isReturned = true) ∧
    ∀ call ∈ jc.forwards, call.stage.isAnswered = true

instance (ids : List ℕ) (jc : JobCluster) : Decidable (jc.Settled ids) :=
  inferInstanceAs (Decidable ((∀ x ∈ ids, _) ∧ (∀ call ∈ jc.service.calls, _) ∧
    ∀ call ∈ jc.forwards, _))

/-- Two queues agree on a job, where one of them has no direct write to it outstanding, exactly
when the other has none either. -/
theorem settled_queues_agree_iff (lib : WireLib) {ids : List ℕ} (peers : ℕ → List PeerConfig)
    {jc : JobCluster} (h : Reach (step lib ids) (Orderly lib) (start ids peers) jc)
    (hsettled : jc.Settled ids) {x y : ℕ} (hx : x ∈ ids) (hy : y ∈ ids) {id : Uuid} {job job' : Job}
    (hjob : (jc.queue x).getJob id = some job) (hjob' : (jc.queue y).getJob id = some job')
    (hy' : (jc.sites y).writesOn id = []) :
    (job.status = job'.status ∧ job.assignedWorker = job'.assignedWorker) ↔
      (jc.sites x).writesOn id = [] := by
  have hacc : jc.Accounted lib := accounted_of_reach (fun _ _ hord => hord) h
  have happlied : (jc.sites x).applied = (jc.sites y).applied := by
    obtain ⟨-, -, -, -, hax, -⟩ := hsettled.1 x hx
    obtain ⟨-, -, -, -, hay, -⟩ := hsettled.1 y hy
    rw [hax, hay]
  have hcore : (jc.queue x).core id = some job.core := Option.map_eq_some_iff.mpr ⟨job, hjob, rfl⟩
  have hcore' : (jc.queue y).core id = some job'.core :=
    Option.map_eq_some_iff.mpr ⟨job', hjob', rfl⟩
  have hahead := (hacc.tracks x).core_eq_ahead hcore
  have hreplayed := (hacc.tracks y).core_eq_ahead hcore'
  have hvalid := ((hacc.tracks x).rebased id).valid
  rw [hy'] at hreplayed
  change _ = (replay (jc.committed.take (jc.sites y).applied)).core id at hreplayed
  rw [Site.replayed, happlied, ← hreplayed, hcore'] at hahead hvalid
  rw [hcore] at hahead
  constructor
  · rintro ⟨hstatus, -⟩
    cases hws : (jc.sites x).writesOn id with
    | nil => rfl
    | cons w ws =>
      rw [hws] at hahead hvalid
      exact absurd hstatus (Rebased.status_ne hvalid hahead.symm)
  · intro hws
    rw [hws] at hahead
    have heq : job.core = job'.core := Option.some.inj hahead
    exact ⟨congrArg JobCore.status heq, congrArg JobCore.assignedWorker heq⟩

def bothApplied : List JobEvent :=
  firstJob ++ [.schedule 1 .beginCompaction] ++ application 2 ++ [.schedule 2 .beginCompaction]

def jobAt (jc : JobCluster) (x : ℕ) (id : Uuid) : Option (JobStatus × Option ℕ) :=
  ((jc.queue x).getJob id).map fun job => (job.status, job.assignedWorker)

theorem jobAt_eq_some {jc : JobCluster} {x : ℕ} {id : Uuid} {s : JobStatus × Option ℕ}
    (h : jc.jobAt x id = some s) :
    ∃ job, (jc.queue x).getJob id = some job ∧ (job.status, job.assignedWorker) = s :=
  Option.map_eq_some_iff.mp h

theorem settled_queues_agree_on_submission : ∃ jc,
    Reach (step .standard [1, 2]) (Orderly .standard) (start [1, 2] fun _ => []) jc ∧
      jc.Settled [1, 2] ∧ ∃ job job', (jc.queue 1).getJob 7 = some job ∧
        (jc.queue 2).getJob 7 = some job' ∧ (jc.sites 2).writesOn 7 = [] ∧
        job.status = job'.status ∧ job.assignedWorker = job'.assignedWorker := by
  obtain ⟨jc, hreach, hsettled, hat, hat', hwrites, hwrites'⟩ :=
    exists_reach_of_guardedRun (step .standard [1, 2]) (Orderly .standard)
      (fun jc => jc.Settled [1, 2] ∧ jc.jobAt 1 7 = some (.pending, none) ∧
        jc.jobAt 2 7 = some (.pending, none) ∧ (jc.sites 1).writesOn 7 = [] ∧
        (jc.sites 2).writesOn 7 = [])
      (start [1, 2] fun _ => []) bothApplied (by decide +kernel)
  obtain ⟨job, hjob, -⟩ := jobAt_eq_some hat
  obtain ⟨job', hjob', -⟩ := jobAt_eq_some hat'
  have hagree := (settled_queues_agree_iff .standard (fun _ => []) hreach hsettled
    (by decide) (by decide) hjob hjob' hwrites').mpr hwrites
  exact ⟨jc, hreach, hsettled, job, job', hjob, hjob', hwrites', hagree⟩

def assignmentRefused : List JobEvent :=
  bothApplied ++ [.workerHeartbeat 1 2 0, .drain 1 .checkLeader, .drain 1 (.choose 7 2 0),
    .drain 1 .mark, .drain 1 .count] ++ raftSteps (Cluster.electedBy 2 1 2 1 1) ++
    [.drain 1 .send, .service (.handleMessage 1), .drain 1 (.chooseNone 0)]

theorem refused_assignment_stays : ∃ jc,
    Reach (step .standard [1, 2]) (fun _ _ => True) (start [1, 2] fun _ => []) jc ∧
      jc.Settled [1, 2] ∧ jc.jobAt 1 7 = some (.running, some 2) ∧
      jc.jobAt 2 7 = some (.pending, none) :=
  exists_reach_of_guardedRun (step .standard [1, 2]) (fun _ _ => True)
    (fun jc => jc.Settled [1, 2] ∧ jc.jobAt 1 7 = some (.running, some 2) ∧
      jc.jobAt 2 7 = some (.pending, none))
    (start [1, 2] fun _ => []) assignmentRefused (by decide +kernel)

end JobCluster
end NomadLite
