import NomadLite.JobLedger

/-!
# Direct writes and the entries that confirm them

Per job there are three kinds of direct writes, and each leaves a state in which only
a later kind is possible: a job is submitted, then assigned, then finished. So the
entry of the first outstanding write changes the replayed job as the write has changed
the queue, it leaves the queue as it is, and it confirms no other write.
-/

namespace NomadLite

open Optimistic

namespace DirectWrite

variable {lib : WireLib} {id : Uuid} {c : Command}

def Pre (id : Uuid) : DirectWrite → Option JobCore → Prop
  | .submitted job, core =>
    core = none ∧ job.core = .fresh id job.command job.image ∧ job.image ≠ some ""
  | .assigned _, core => ∃ c, core = some c ∧ c.status = .pending
  | .finished u, core => u.jobId = id ∧ u.Reports ∧ ∃ c, core = some c ∧ c.id = id ∧
      c.status = .running

def eff : DirectWrite → Option JobCore → Option JobCore
  | .submitted job, _ => some job.core
  | .assigned workerId, core => core.map (JobCore.assign workerId)
  | .finished u, core => core.map (JobCore.applyStatus u)

theorem mem_jobIds_of_confirmedBy {w : DirectWrite} (h : w.ConfirmedBy lib id c) :
    id ∈ c.jobIds := by
  cases w with
  | submitted job =>
    cases c with
    | submitJob jobId command createdAt image =>
      obtain ⟨rfl, -⟩ := Command.submitJob.inj h
      exact List.mem_singleton_self _
    | _ => cases h
  | assigned workerId =>
    obtain rfl : c = .assignJob id workerId := h
    exact List.mem_singleton_self _
  | finished update =>
    have hmem : update.onWire lib ∈ (c.onWire lib).updates.filter (fun u => u.jobId = id) := by
      rw [show _ = [update.onWire lib] from h]
      exact List.mem_singleton_self _
    obtain ⟨hu, hid⟩ := List.mem_filter.mp hmem
    have hid : (update.onWire lib).jobId = id := of_decide_eq_true hid
    cases c with
    | updateJobStatus jobId status executedBy exitCode completedAt =>
      rw [← hid, List.mem_singleton.mp hu]
      exact List.mem_singleton_self _
    | batchUpdateJobStatus updates =>
      obtain ⟨v, hv, heq⟩ := List.mem_map.mp hu
      rw [← hid, ← heq]
      exact List.mem_map.mpr ⟨v, hv, rfl⟩
    | _ => cases hu

theorem reports_of_finished {u : JobStatusUpdate} (h : (finished u).ConfirmedBy lib id c)
    (hrep : c.Reports) : u.jobId = id ∧ u.Reports := by
  have hmem : u.onWire lib ∈ (c.onWire lib).updates.filter (fun u => u.jobId = id) := by
    rw [show _ = [u.onWire lib] from h]
    exact List.mem_singleton_self _
  obtain ⟨hu, hid⟩ := List.mem_filter.mp hmem
  refine ⟨of_decide_eq_true hid, ?_⟩
  change (u.onWire lib).Reports
  cases c with
  | updateJobStatus jobId status executedBy exitCode completedAt =>
    rw [List.mem_singleton.mp hu]
    exact hrep
  | batchUpdateJobStatus updates => exact Command.onWire_reports hrep _ hu
  | _ => cases hu

theorem act_of_finished {u : JobStatusUpdate} {core : JobCore}
    (h : (finished u).ConfirmedBy lib id c) (hid : core.id = id) (room : Bool) :
    (c.onWire lib).act room id (some core) = some (core.applyStatus u) := by
  have hupdates : (c.onWire lib).updates.filter (fun u => u.jobId = id) = [u.onWire lib] := h
  change _ = some (core.applyStatus (u.onWire lib))
  cases c with
  | updateJobStatus jobId status executedBy exitCode completedAt =>
    have hmem : u.onWire lib ∈ (Command.onWire lib
        (.updateJobStatus jobId status executedBy exitCode completedAt)).updates :=
      List.mem_of_mem_filter (hupdates ▸ List.mem_singleton_self _)
    have heq := List.mem_singleton.mp hmem
    rw [Command.act_of_submitted_eq_none rfl, Option.map_some, heq]
    rfl
  | batchUpdateJobStatus updates =>
    rw [Command.act_of_submitted_eq_none rfl, Option.map_some]
    change some ((updates.map (JobStatusUpdate.onWire lib)).foldl _ core) = _
    rw [JobCore.foldl_applyStatus, hid]
    exact congrArg (fun l => some (l.foldl (fun core u => core.applyStatus u) core)) hupdates
  | _ => cases hupdates

/-- What the entry of a first outstanding write does to the replayed job. -/
theorem act_of_confirmedBy {w : DirectWrite} {core : Option JobCore}
    (h : w.ConfirmedBy lib id c) (hcore : ∀ core' ∈ core, core'.id = id) (hpre : w.Pre id core) :
    (c.onWire lib).act true id core = w.eff core := by
  cases w with
  | submitted job =>
    obtain ⟨rfl, hfresh, himage⟩ := hpre
    rw [show c.onWire lib = _ from h, eff, hfresh, Command.onWire, Command.act,
      if_pos ⟨rfl, rfl, rfl⟩, Option.filter_ne_empty himage]
  | assigned workerId =>
    obtain ⟨core', rfl, hpending⟩ := hpre
    obtain rfl : c = .assignJob id workerId := h
    rw [Command.onWire, Command.act_of_submitted_eq_none rfl, Option.map_some,
      JobCore.applyCommand, if_pos ⟨hcore core' rfl, hpending⟩]
    rfl
  | finished u =>
    obtain ⟨-, -, core', rfl, hid, -⟩ := hpre
    exact act_of_finished h hid true

end DirectWrite

/-! ### A job in the queue and in the log -/

/-- The queue has what it should have, or the job has finished and was evicted. -/
def Follows (core ideal : Option JobCore) : Prop :=
  core = ideal ∨ core = none ∧ ∃ c, ideal = some c ∧ c.status.isActive = false

theorem Follows.eq_of_some {core : JobCore} {ideal : Option JobCore}
    (h : Follows (some core) ideal) : ideal = some core := by
  rcases h with h | ⟨h, -⟩
  · exact h.symm
  · cases h

theorem Follows.act {core ideal : Option JobCore} {c : Command} {id : Uuid} {room room' : Bool}
    (h : Follows core ideal) (hrep : c.Reports)
    (hroom : c.submitted = some id → ideal = none → room = room')
    (hevicted : c.submitted = some id → core = none → ideal = none) :
    Follows (c.act room id core) (c.act room' id ideal) := by
  rcases h with rfl | ⟨rfl, c', rfl, hfin⟩
  · left
    cases core with
    | some c' => rw [Command.act_some, Command.act_some]
    | none =>
      by_cases hsub : c.submitted = some id
      · rw [hroom hsub rfl]
      · rw [Command.act_none hsub, Command.act_none hsub]
  · right
    refine ⟨Command.act_none (fun hsub => ?_) room, _, c.act_some room' id c',
      JobCore.finished_applyCommand hfin hrep⟩
    exact Option.some_ne_none _ (hevicted hsub rfl)

structure Rebased (id : Uuid) (replayed : Option JobCore) (writes : List DirectWrite)
    (core : Option JobCore) : Prop where
  valid : Valid (DirectWrite.Pre id) DirectWrite.eff replayed writes
  follows : Follows core (ahead DirectWrite.eff replayed writes)

namespace Rebased

variable {lib : WireLib} {id : Uuid} {r core : Option JobCore} {ws : List DirectWrite}
  {w : DirectWrite} {c : Command}

theorem eff_finished {u : JobStatusUpdate} {c' : JobCore} (hid : u.jobId = id)
    (hc : c'.id = id) (hrun : c'.status = .running) :
    c'.applyStatus u =
      { c' with status := u.status, executedBy := some u.executedBy, exitCode := u.exitCode } := by
  refine if_pos ⟨hc.trans hid.symm, ?_⟩
  rw [hrun]
  exact JobStatus.noConfusion

theorem writes_of_finished {c' : JobCore} (hfin : c'.status.isActive = false)
    (h : Valid (DirectWrite.Pre id) DirectWrite.eff (some c') ws) : ws = [] := by
  cases ws with
  | nil => rfl
  | cons w ws =>
    exfalso
    cases w with
    | submitted job => exact absurd h.1.1 (Option.some_ne_none _)
    | assigned workerId =>
      obtain ⟨⟨c'', heq, hpending⟩, -⟩ := h
      rw [Option.some.inj heq, hpending] at hfin
      cases hfin
    | finished u =>
      obtain ⟨⟨-, -, c'', heq, -, hrun⟩, -⟩ := h
      rw [Option.some.inj heq, hrun] at hfin
      cases hfin

theorem writes_of_running {c' : JobCore} (hrun : c'.status = .running)
    (h : Valid (DirectWrite.Pre id) DirectWrite.eff (some c') ws) :
    ws = [] ∨ ∃ u : JobStatusUpdate, ws = [.finished u] ∧ u.jobId = id ∧ u.Reports ∧ c'.id = id := by
  cases ws with
  | nil => exact .inl rfl
  | cons w ws =>
    cases w with
    | submitted job => exact absurd h.1.1 (Option.some_ne_none _)
    | assigned workerId =>
      obtain ⟨⟨c'', heq, hpending⟩, -⟩ := h
      rw [Option.some.inj heq, hpending] at hrun
      cases hrun
    | finished u =>
      obtain ⟨⟨hid, hrep, c'', heq, hc, -⟩, hrest⟩ := h
      obtain rfl := Option.some.inj heq
      rw [DirectWrite.eff, Option.map_some, eff_finished hid hc hrun] at hrest
      exact .inr ⟨u, by rw [writes_of_finished hrep.finished hrest], hid, hrep, hc⟩

theorem not_confirmedBy (h : Valid (DirectWrite.Pre id) DirectWrite.eff r (w :: ws))
    (hc : w.ConfirmedBy lib id c) : ∀ w' ∈ ws, ¬ w'.ConfirmedBy lib id c := by
  obtain ⟨hpre, hrest⟩ := h
  cases w with
  | submitted job =>
    have hsub : c.onWire lib = _ := hc
    refine hrest.forall_mem (P := fun core => core ≠ none) (Option.some_ne_none _) ?_
    intro core w' hcore hw'
    cases w' with
    | submitted job' => exact absurd hw'.1 hcore
    | assigned workerId =>
      obtain ⟨c', rfl, -⟩ := hw'
      refine ⟨Option.some_ne_none _, fun hc' => ?_⟩
      obtain rfl : c = .assignJob id workerId := hc'
      cases hsub
    | finished u =>
      obtain ⟨-, -, c', rfl, -⟩ := hw'
      refine ⟨Option.some_ne_none _, fun hc' => ?_⟩
      rw [DirectWrite.ConfirmedBy, hsub] at hc'
      cases hc'
  | assigned workerId =>
    obtain ⟨c', rfl, -⟩ := hpre
    obtain rfl : c = .assignJob id workerId := hc
    rcases writes_of_running (by rfl) hrest with rfl | ⟨u, rfl, -⟩
    · exact fun w' hw' => absurd hw' List.not_mem_nil
    · intro w' hw' hc'
      rw [List.mem_singleton.mp hw'] at hc'
      cases hc'
  | finished u =>
    obtain ⟨hid, hrep, c', rfl, hcid, hrun⟩ := hpre
    rw [DirectWrite.eff, Option.map_some, eff_finished hid hcid hrun] at hrest
    rw [writes_of_finished hrep.finished hrest]
    exact fun w' hw' => absurd hw' List.not_mem_nil

theorem submitted_of_confirmedBy (h : w.ConfirmedBy lib id c) (hpre : w.Pre id none) :
    c.submitted = some id := by
  cases w with
  | submitted job =>
    cases c with
    | submitJob jobId command createdAt image =>
      obtain ⟨rfl, -⟩ := Command.submitJob.inj h
      rfl
    | _ => cases h
  | assigned workerId =>
    obtain ⟨c', hnone, -⟩ := hpre
    cases hnone
  | finished u =>
    obtain ⟨-, -, c', hnone, -⟩ := hpre
    cases hnone

theorem ahead_ne_none (h : Valid (DirectWrite.Pre id) DirectWrite.eff r ws) (hr : r ≠ none) :
    ahead DirectWrite.eff r ws ≠ none := by
  refine h.ahead_induction (P := fun core => core ≠ none) hr fun {core w} _ hw => ?_
  cases w with
  | submitted job => exact Option.some_ne_none _
  | assigned workerId =>
    obtain ⟨c', rfl, -⟩ := hw
    exact Option.some_ne_none _
  | finished u =>
    obtain ⟨-, -, c', rfl, -⟩ := hw
    exact Option.some_ne_none _

/-- A job has finished because the log says so, or because a result was stored. -/
theorem finished_of_ahead {c' c'' : JobCore}
    (h : Valid (DirectWrite.Pre id) DirectWrite.eff (some c') ws)
    (hahead : ahead DirectWrite.eff (some c') ws = some c'') (hfin : c''.status.isActive = false) :
    c'.status.isActive = false ∨ ∃ u, .finished u ∈ ws := by
  cases ws with
  | nil =>
    rw [← Option.some.inj hahead] at hfin
    exact .inl hfin
  | cons w ws =>
    cases w with
    | submitted job => exact absurd h.1.1 (Option.some_ne_none _)
    | assigned workerId =>
      rcases writes_of_running (by rfl) h.2 with rfl | ⟨u, rfl, -⟩
      · rw [← Option.some.inj hahead] at hfin
        cases hfin
      · exact .inr ⟨u, List.mem_cons_of_mem _ (List.mem_singleton_self _)⟩
    | finished u => exact .inr ⟨u, List.mem_cons_self ..⟩

/-- The entry of the first write changes nothing in the queue. -/
theorem act_ahead (h : Valid (DirectWrite.Pre id) DirectWrite.eff r (w :: ws))
    (hc : w.ConfirmedBy lib id c) (room : Bool) :
    (c.onWire lib).act room id (ahead DirectWrite.eff r (w :: ws)) =
      ahead DirectWrite.eff r (w :: ws) := by
  obtain ⟨hpre, hrest⟩ := h
  cases w with
  | submitted job =>
    have hsome := ahead_ne_none hrest (Option.some_ne_none _)
    rw [show c.onWire lib = _ from hc]
    exact if_neg fun hc' => hsome hc'.2.1
  | assigned workerId =>
    obtain ⟨c', rfl, -⟩ := hpre
    obtain rfl : c = .assignJob id workerId := hc
    rcases writes_of_running (by rfl) hrest with rfl | ⟨u, rfl, hid, hrep, hcid⟩
    · exact congrArg some (if_neg fun hp => JobStatus.noConfusion hp.2)
    · change some (JobCore.applyCommand ((c'.assign workerId).applyStatus u) _) =
        some ((c'.assign workerId).applyStatus u)
      rw [eff_finished hid hcid rfl]
      refine congrArg some (if_neg fun hp => ?_)
      have hpending : u.status = .pending := hp.2
      have hfin := hrep.finished
      rw [hpending] at hfin
      cases hfin
  | finished u =>
    obtain ⟨hid, hrep, c', rfl, hcid, hrun⟩ := hpre
    rw [DirectWrite.eff, Option.map_some, eff_finished hid hcid hrun] at hrest
    obtain rfl := writes_of_finished hrep.finished hrest
    change (c.onWire lib).act room id (some (c'.applyStatus u)) = some (c'.applyStatus u)
    rw [DirectWrite.act_of_finished hc ((c'.applyStatus_id u).trans hcid),
      eff_finished hid hcid hrun]
    refine congrArg some (if_pos ⟨hcid.trans hid.symm, fun hcan => ?_⟩)
    have hcancelled : u.status = .cancelled := hcan
    rcases hrep with hrep | hrep <;> rw [hcancelled] at hrep <;> cases hrep

theorem write (h : Rebased id r ws core) (hcore : core = ahead DirectWrite.eff r ws)
    (hpre : w.Pre id core) : Rebased id r (ws ++ [w]) (w.eff core) where
  valid := h.valid.concat (hcore ▸ hpre)
  follows := by
    rw [ahead_concat, ← hcore]
    exact .inl rfl

/-- An applied command keeps the relation when it is about another job, when nothing is
outstanding for the job, or when it is the entry of the first outstanding write. A submission has
to find the same room in the queue as in the replay, and no evicted job. -/
theorem apply (h : Rebased id r ws core) (hr : ∀ c' ∈ r, c'.id = id)
    (hcore : ∀ c' ∈ core, c'.id = id) (hport : c.Portable) (hrep : c.Reports) {roomQ roomR : Bool}
    (hhead : id ∈ c.jobIds → ∀ w ∈ ws.head?, w.ConfirmedBy lib id c)
    (hevicted : c.submitted = some id → core = none → r = none ∧ ws = [])
    (hroom : c.submitted = some id → r = none →
      (ws = [] → roomQ = roomR) ∧ (ws ≠ [] → roomR = true)) :
    Rebased id ((c.onWire lib).act roomR id r) (ws.filter fun w => ¬ w.ConfirmedBy lib id c)
      (c.act roomQ id core) := by
  by_cases hmem : id ∈ c.jobIds
  · cases ws with
    | nil =>
      refine ⟨trivial, ?_⟩
      change Follows _ ((c.onWire lib).act roomR id r)
      rw [Command.act_onWire lib hport]
      exact h.follows.act hrep (fun hsub hnone => (hroom hsub hnone).1 rfl)
        fun hsub hnone => (hevicted hsub hnone).1
    | cons w ws =>
      have hconf := hhead hmem w rfl
      have hfull : (c.onWire lib).act roomR id r = w.eff r := by
        rw [← DirectWrite.act_of_confirmedBy hconf hr h.valid.1]
        cases r with
        | some c' => rw [Command.act_some, Command.act_some]
        | none =>
          rw [(hroom ?_ rfl).2 (List.cons_ne_nil _ _)]
          exact submitted_of_confirmedBy hconf h.valid.1
      have hws : ((w :: ws).filter fun w => ¬ w.ConfirmedBy lib id c) = ws := by
        rw [List.filter_cons_of_neg (by simp [hconf])]
        exact List.filter_eq_self.mpr fun w' hw' =>
          decide_eq_true (not_confirmedBy h.valid hconf w' hw')
      rw [hws, hfull]
      refine ⟨h.valid.2, ?_⟩
      change Follows _ (ahead DirectWrite.eff r (w :: ws))
      rcases h.follows with heq | ⟨hnone, hfin⟩
      · left
        rw [heq, ← Command.act_onWire lib hport]
        exact act_ahead h.valid hconf roomQ
      · refine .inr ⟨?_, hfin⟩
        rw [hnone]
        exact Command.act_none (fun hsub => List.cons_ne_nil _ _ (hevicted hsub hnone).2) roomQ
  · have hws : (ws.filter fun w => ¬ w.ConfirmedBy lib id c) = ws := by
      refine List.filter_eq_self.mpr fun w _ => decide_eq_true fun hc => ?_
      exact hmem (DirectWrite.mem_jobIds_of_confirmedBy hc)
    rw [hws, Command.act_onWire lib hport, Command.act_of_not_mem hr hmem,
      Command.act_of_not_mem hcore hmem]
    exact h

end Rebased
end NomadLite
