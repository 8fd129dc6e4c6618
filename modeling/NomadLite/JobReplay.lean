import NomadLite.DirectWrites

/-!
# The queue that replays the log

`replay` applies commands to an empty queue and evicts nothing: the queues of all the
nodes are compared with it. It never holds more active jobs than its capacity, so a
queue rebuilt from a snapshot of it only ever leaves out finished jobs.
-/

namespace NomadLite

def replay (commands : List Command) : JobQueue :=
  commands.foldl (JobQueue.applyCommand .epoch) .new

theorem replay_concat (commands : List Command) (c : Command) :
    replay (commands ++ [c]) = (replay commands).applyCommand .epoch c := List.foldl_concat ..

theorem core_replay_concat (commands : List Command) (c : Command) (id : Uuid) :
    (replay (commands ++ [c])).core id =
      c.act (!(replay commands).isFull) id ((replay commands).core id) := by
  rw [replay_concat, JobQueue.core_applyCommand]

theorem core_replay_nil (id : Uuid) : (replay []).core id = none :=
  JobQueue.core_eq_none.mpr (Finmap.lookup_empty id)

theorem replay_maxJobs (commands : List Command) :
    (replay commands).maxJobs = JobQueue.defaultMaxJobs := by
  induction commands using List.reverseRecOn with
  | nil => rfl
  | append_singleton commands c ih => rw [replay_concat, JobQueue.applyCommand_maxJobs, ih]

/-! ### Active jobs -/

namespace JobQueue

variable {q : JobQueue} {id : Uuid}

def activeIds (q : JobQueue) : Finset Uuid where
  val := (q.jobs.entries.filter fun entry => entry.2.status.isActive = true).map Sigma.fst
  nodup := Multiset.nodup_of_le (Multiset.map_le_map (Multiset.filter_le ..))
    (Multiset.nodup_keys.mpr q.jobs.nodupKeys)

theorem activeJobCount_eq_card (q : JobQueue) : q.activeJobCount = q.activeIds.card := by
  rw [activeJobCount, countActive, Multiset.countP_eq_card_filter]
  exact (Multiset.card_map ..).symm

theorem mem_activeIds :
    id ∈ q.activeIds ↔ ∃ core, q.core id = some core ∧ core.status.isActive = true := by
  constructor
  · intro h
    obtain ⟨⟨id', job⟩, hentry, rfl⟩ := Multiset.mem_map.mp h
    obtain ⟨hmem, hact⟩ := Multiset.mem_filter.mp hentry
    exact ⟨job.core, Option.map_eq_some_iff.mpr ⟨job, Finmap.lookup_eq_some_iff.mpr hmem, rfl⟩,
      hact⟩
  · rintro ⟨core, hcore, hact⟩
    obtain ⟨job, hjob, rfl⟩ := Option.map_eq_some_iff.mp hcore
    exact Multiset.mem_map.mpr
      ⟨⟨id, job⟩, Multiset.mem_filter.mpr ⟨Finmap.lookup_eq_some_iff.mp hjob, hact⟩, rfl⟩

end JobQueue

/-- An active job was active before the command, or is the one it submits. -/
theorem Command.active_of_act {c : Command} {room : Bool} {id : Uuid} {core : Option JobCore}
    {core' : JobCore} (h : c.act room id core = some core') (hact : core'.status.isActive = true)
    (hrep : c.Reports) :
    (∃ old, core = some old ∧ old.status.isActive = true) ∨
      c.submitted = some id ∧ room = true := by
  cases core with
  | some old =>
    left
    rw [act_some] at h
    refine ⟨old, rfl, ?_⟩
    by_contra hfin
    have hend := JobCore.finished_applyCommand (Bool.not_eq_true _ ▸ hfin) hrep
    rw [Option.some.inj h, hact] at hend
    cases hend
  | none =>
    right
    by_cases hsub : c.submitted = some id
    · refine ⟨hsub, ?_⟩
      cases c with
      | submitJob jobId command createdAt image =>
        by_contra hroom
        rw [act, if_neg fun hc => hroom hc.2.2] at h
        cases h
      | _ => cases hsub
    · rw [act_none hsub] at h
      cases h

theorem JobQueue.activeJobCount_applyCommand_le {q : JobQueue} {c : Command} (now : DateTime)
    (h : q.activeJobCount ≤ q.maxJobs) (hrep : c.Reports) :
    (q.applyCommand now c).activeJobCount ≤ q.maxJobs := by
  have hold : ∀ {id}, id ∈ (q.applyCommand now c).activeIds →
      id ∈ q.activeIds ∨ c.submitted = some id ∧ (!q.isFull) = true := by
    intro id hid
    obtain ⟨core, hcore, hact⟩ := mem_activeIds.mp hid
    rw [core_applyCommand] at hcore
    rcases Command.active_of_act hcore hact hrep with hwas | hnew
    · exact .inl (mem_activeIds.mpr hwas)
    · exact .inr hnew
  rw [activeJobCount_eq_card] at h ⊢
  cases hroom : q.isFull with
  | true =>
    refine (Finset.card_le_card fun id hid => ?_).trans h
    rcases hold hid with hwas | ⟨-, hfull⟩
    · exact hwas
    · rw [hroom] at hfull
      cases hfull
  | false =>
    have hlt : q.activeIds.card < q.maxJobs := by
      rw [← activeJobCount_eq_card]
      exact not_le.mp (of_decide_eq_false hroom)
    cases hsub : c.submitted with
    | none =>
      refine (Finset.card_le_card fun id hid => ?_).trans h
      rcases hold hid with hwas | ⟨hid, -⟩
      · exact hwas
      · rw [hsub] at hid
        cases hid
    | some jobId =>
      have hsubset : (q.applyCommand now c).activeIds ⊆ insert jobId q.activeIds := by
        intro id hid
        rcases hold hid with hwas | ⟨hid, -⟩
        · exact Finset.mem_insert_of_mem hwas
        · rw [hsub] at hid
          exact Option.some.inj hid ▸ Finset.mem_insert_self ..
      exact ((Finset.card_le_card hsubset).trans (Finset.card_insert_le ..)).trans hlt

theorem replay_active_le {commands : List Command} (h : ∀ c ∈ commands, c.Reports) :
    (replay commands).activeJobCount ≤ JobQueue.defaultMaxJobs := by
  induction commands using List.reverseRecOn with
  | nil => exact Nat.zero_le _
  | append_singleton commands c ih =>
    rw [List.forall_mem_append, List.forall_mem_singleton] at h
    have hle := ih h.1
    rw [← replay_maxJobs commands] at hle ⊢
    rw [replay_concat]
    exact JobQueue.activeJobCount_applyCommand_le .epoch hle h.2

/-! ### Assignments are final -/

def JobCore.AssignedTo (workerId : ℕ) (core : JobCore) : Prop :=
  core.assignedWorker = some workerId ∧ core.status ≠ .pending

namespace JobCore.AssignedTo

variable {core : JobCore} {c : Command} {workerId : ℕ}

theorem applyStatus (h : core.AssignedTo workerId) {u : JobStatusUpdate} (hu : u.Reports) :
    (core.applyStatus u).AssignedTo workerId := by
  unfold JobCore.applyStatus
  split_ifs
  · refine ⟨h.1, fun hpending => ?_⟩
    have hfin := hu.finished
    rw [show u.status = .pending from hpending] at hfin
    cases hfin
  · exact h

/-- A second assignment finds the job no longer pending. -/
theorem applyCommand (h : core.AssignedTo workerId) (hrep : c.Reports) :
    (core.applyCommand c).AssignedTo workerId :=
  applyCommand_induction h (fun u hu _ hcore => hcore.applyStatus (hrep.updates u hu))
    (fun _ _ _ hpending => absurd hpending h.2) fun _ => ⟨h.1, JobStatus.noConfusion⟩

end JobCore.AssignedTo

/-- An assigned job stays with its worker, and a finished one stays finished. -/
theorem replay_assigned {commands : List Command} (hrep : ∀ c ∈ commands, c.Reports) {id : Uuid}
    {core : JobCore} {workerId : ℕ} {n m : ℕ} (hnm : n ≤ m)
    (hcore : (replay (commands.take n)).core id = some core) (h : core.AssignedTo workerId) :
    ∃ core', (replay (commands.take m)).core id = some core' ∧ core'.AssignedTo workerId ∧
      (core.status.isActive = false → core'.status.isActive = false) := by
  induction m, hnm using Nat.le_induction with
  | base => exact ⟨core, hcore, h, fun hfin => hfin⟩
  | succ m _ ih =>
    obtain ⟨core', hcore', h', hfin'⟩ := ih
    rw [List.take_add_one]
    cases hget : commands[m]? with
    | none =>
      rw [Option.toList_none, List.append_nil]
      exact ⟨core', hcore', h', hfin'⟩
    | some c =>
      have hc := hrep c (List.mem_of_getElem? hget)
      rw [Option.toList_some, core_replay_concat, hcore', Command.act_some]
      exact ⟨_, rfl, h'.applyCommand hc, fun hfin =>
        JobCore.finished_applyCommand (hfin' hfin) hc⟩

/-! ### Worker `0` and the empty image -/

structure JobCore.Portable (core : JobCore) : Prop where
  image : core.image ≠ some ""
  assignedWorker : core.assignedWorker ≠ some 0
  executedBy : core.executedBy ≠ some 0

namespace JobCore.Portable

variable {core : JobCore} {c : Command}

theorem applyStatus (h : core.Portable) {u : JobStatusUpdate} (hu : u.executedBy ≠ 0) :
    (core.applyStatus u).Portable := by
  unfold JobCore.applyStatus
  split_ifs
  · exact ⟨h.image, h.assignedWorker, fun heq => hu (Option.some.inj heq)⟩
  · exact h

theorem applyCommand (h : core.Portable) (hc : c.Portable) : (core.applyCommand c).Portable := by
  refine applyCommand_induction h (fun u hu core' hcore' => ?_) (fun jobId workerId heq _ => ?_)
    fun _ => ⟨h.image, h.assignedWorker, h.executedBy⟩
  · exact hcore'.applyStatus (hc.executedBy_ne u hu)
  · rw [heq] at hc
    exact ⟨h.image, fun hzero => hc (Option.some.inj hzero), h.executedBy⟩

end JobCore.Portable

theorem Command.portable_of_act {c : Command} (hc : c.Portable) {room : Bool} {id : Uuid}
    {core : Option JobCore} (h : ∀ old ∈ core, old.Portable) :
    ∀ new ∈ c.act room id core, new.Portable := by
  intro new hnew
  cases core with
  | some old =>
    rw [act_some] at hnew
    exact Option.some.inj hnew ▸ (h old rfl).applyCommand hc
  | none =>
    cases c with
    | submitJob jobId command createdAt image =>
      rw [act] at hnew
      split_ifs at hnew
      · rw [← Option.some.inj hnew]
        exact ⟨hc, (Option.some_ne_none 0).symm, (Option.some_ne_none 0).symm⟩
      · cases hnew
    | _ => cases hnew

theorem replay_portable {commands : List Command} (h : ∀ c ∈ commands, c.Portable) (id : Uuid) :
    ∀ core ∈ (replay commands).core id, core.Portable := by
  induction commands using List.reverseRecOn with
  | nil =>
    intro core hcore
    rw [core_replay_nil] at hcore
    cases hcore
  | append_singleton commands c ih =>
    rw [List.forall_mem_append, List.forall_mem_singleton] at h
    rw [core_replay_concat]
    exact Command.portable_of_act h.2 (ih h.1)

end NomadLite
