import NomadLite.DiskMirror

/-!
# The leader's append beside the requests of a newer leader

`handle_append_command` appends to the log under the state lock and to the storage
after releasing it. The raft loop has at most one such append under way. An
`AppendEntries` handler holds the lock from its change of the log until its last
write, but the late write of an append takes no lock and can land between any two of
these writes. It is harmless as long as the entry is still in the log.
-/

namespace NomadLite

open OrderedScan

/-- A node, the entry that is in its log but not yet in its storage, and the rest of the handler
that holds the lock. -/
structure AppendingNode where
  durable : DurableNode
  pending : Option LogEntry
  writing : List StorageStep
deriving DecidableEq

inductive AppendEvent where
  | beginAppend (command : Command)
  | finishAppend
  | appendEntries (req : AppendEntriesRequest)
  | storageStep
deriving DecidableEq

namespace AppendingNode

def beginAppend (nd : AppendingNode) (command : Command) : AppendingNode :=
  if nd.durable.state.role = .leader then
    { nd with
      durable := { nd.durable with state := nd.durable.state.appendEntry command }
      pending := some (nd.durable.state.newEntry command) }
  else nd

def finishAppend (nd : AppendingNode) (entry : LogEntry) : AppendingNode :=
  { nd with
    durable := { nd.durable with disk := nd.durable.disk.writeAll (Disk.appendEntry entry) }
    pending := none }

def appendEntries (lib : WireLib) (nd : AppendingNode) (req : AppendEntriesRequest) :
    AppendingNode :=
  { nd with
    durable := { nd.durable with state := (handleAppendEntries lib nd.durable.state req).1 }
    writing := appendEntriesSteps lib nd.durable.state req }

def storageStep (nd : AppendingNode) : Option AppendingNode :=
  match nd.writing with
  | [] => none
  | .write w :: rest =>
    some { nd with
      durable := { nd.durable with disk := nd.durable.disk.write w }
      writing := rest }
  | .truncateFrom i :: rest =>
    some { nd with writing := (nd.durable.disk.truncateFrom i).map .write ++ rest }

def step (lib : WireLib) (nd : AppendingNode) : AppendEvent → Option AppendingNode
  | .beginAppend command =>
    if nd.pending = none ∧ nd.writing = [] then some (nd.beginAppend command) else none
  | .finishAppend => nd.pending.map nd.finishAppend
  | .appendEntries req => if nd.writing = [] then some (nd.appendEntries lib req) else none
  | .storageStep => nd.storageStep

def Idle (nd : AppendingNode) : Prop := nd.pending = none ∧ nd.writing = []

instance (nd : AppendingNode) : Decidable nd.Idle := inferInstanceAs (Decidable (_ ∧ _))

/-- The entry is still in the log when it is written to the storage, and the requests keep the
log aligned. -/
def InPlace (lib : WireLib) (nd : AppendingNode) : AppendEvent → Prop
  | .beginAppend _ | .storageStep => True
  | .finishAppend => ∀ e ∈ nd.pending, nd.durable.state.getEntry e.index = some e
  | .appendEntries req =>
    req.WellFormed lib ∧ (Call.appendEntries req).StartsAboveOffset nd.durable.state

instance (lib : WireLib) (nd : AppendingNode) : (ev : AppendEvent) → Decidable (nd.InPlace lib ev)
  | .beginAppend _ | .storageStep => isTrue trivial
  | .finishAppend => inferInstanceAs (Decidable (∀ e ∈ nd.pending, _))
  | .appendEntries _ => inferInstanceAs (Decidable (_ ∧ _))

end AppendingNode

/-! ### The rest of a handler at one key -/

namespace StorageStep

def valueAt (k : ℕ) (v : Option LogEntry) : StorageStep → Option LogEntry
  | write (.putEntry e) => if e.index = k then some e else v
  | write (.deleteEntry j) => if j = k then none else v
  | write _ => v
  | truncateFrom i => if i ≤ k then none else v

def touches (k : ℕ) : StorageStep → Bool
  | write w => w.touches k
  | truncateFrom i => i ≤ k

theorem valueAt_of_not_touches {k : ℕ} {st : StorageStep} (h : st.touches k = false)
    (v : Option LogEntry) : st.valueAt k v = v := by
  cases st with
  | truncateFrom i => exact if_neg (of_decide_eq_false h)
  | write w =>
    cases w with
    | putEntry e => exact if_neg (of_decide_eq_false h)
    | deleteEntry j => exact if_neg (of_decide_eq_false h)
    | _ => rfl

theorem valueAt_of_touches {k : ℕ} {st : StorageStep} (h : st.touches k = true)
    (v v' : Option LogEntry) : st.valueAt k v = st.valueAt k v' := by
  cases st with
  | truncateFrom i => exact (if_pos (of_decide_eq_true h)).trans (if_pos (of_decide_eq_true h)).symm
  | write w =>
    cases w with
    | putEntry e => exact (if_pos (of_decide_eq_true h)).trans (if_pos (of_decide_eq_true h)).symm
    | deleteEntry j =>
      exact (if_pos (of_decide_eq_true h)).trans (if_pos (of_decide_eq_true h)).symm
    | _ => cases h

end StorageStep

namespace Disk

def runStep (d : Disk) : StorageStep → Disk
  | .write w => d.write w
  | .truncateFrom i => d.writeAll (d.truncateFrom i)

def runSteps (d : Disk) (steps : List StorageStep) : Disk := steps.foldl runStep d

variable {d d' : Disk} {k : ℕ}

theorem runSteps_append (d : Disk) (steps steps' : List StorageStep) :
    d.runSteps (steps ++ steps') = (d.runSteps steps).runSteps steps' := List.foldl_append ..

theorem runSteps_writes (d : Disk) (ws : List DiskWrite) :
    d.runSteps (ws.map .write) = d.writeAll ws := List.foldl_map ..

theorem lookup_write (d : Disk) (w : DiskWrite) (k : ℕ) :
    (d.write w).log.lookup k = (StorageStep.write w).valueAt k (d.log.lookup k) := by
  cases w with
  | putEntry e =>
    rw [StorageStep.valueAt]
    split_ifs with hk
    · exact hk ▸ Finmap.lookup_insert _
    · exact Finmap.lookup_insert_of_ne _ (Ne.symm hk)
  | deleteEntry j =>
    rw [StorageStep.valueAt]
    split_ifs with hk
    · exact hk ▸ Finmap.lookup_erase ..
    · exact Finmap.lookup_erase_ne (Ne.symm hk)
  | _ => rfl

theorem lookup_runSteps (d : Disk) (steps : List StorageStep) (k : ℕ) :
    (d.runSteps steps).log.lookup k =
      steps.foldl (fun v st => st.valueAt k v) (d.log.lookup k) := by
  induction steps generalizing d with
  | nil => rfl
  | cons st steps ih =>
    have hfirst : (d.runStep st).log.lookup k = st.valueAt k (d.log.lookup k) := by
      cases st with
      | write w => exact lookup_write d w k
      | truncateFrom i => exact lookup_truncateFrom d i k
    rw [List.foldl_cons, ← hfirst]
    exact ih _

theorem lookup_runSteps_of_untouched {steps : List StorageStep}
    (h : ∀ st ∈ steps, st.touches k = false) :
    (d.runSteps steps).log.lookup k = d.log.lookup k := by
  rw [lookup_runSteps]
  induction steps generalizing d with
  | nil => rfl
  | cons st steps ih =>
    rw [List.foldl_cons, st.valueAt_of_not_touches (h st (List.mem_cons_self ..))]
    exact ih fun st' hst' => h st' (List.mem_cons_of_mem _ hst')

/-- Once a step touches the key it does not matter what was there before. -/
theorem lookup_runSteps_congr {steps : List StorageStep}
    (h : d'.log.lookup k = d.log.lookup k ∨ ∃ st ∈ steps, st.touches k = true) :
    (d'.runSteps steps).log.lookup k = (d.runSteps steps).log.lookup k := by
  rw [lookup_runSteps, lookup_runSteps]
  generalize d'.log.lookup k = v' at h
  generalize d.log.lookup k = v at h
  induction steps generalizing v v' with
  | nil =>
    rcases h with rfl | ⟨st, hst, -⟩
    · rfl
    · cases hst
  | cons st steps ih =>
    rw [List.foldl_cons, List.foldl_cons]
    refine ih _ _ ?_
    rcases h with rfl | ⟨st', hst', htouch⟩
    · exact .inl rfl
    · rcases List.mem_cons.mp hst' with rfl | hmem
      · exact .inl (st'.valueAt_of_touches htouch v' v)
      · exact .inr ⟨st', hmem, htouch⟩

theorem sameHead_write (h : d.SameHead d') (w : DiskWrite) : (d.write w).SameHead (d'.write w) := by
  cases w with
  | putTerm term => exact ⟨rfl, h.votedFor, h.logOffset, h.snapshot⟩
  | putVotedFor votedFor => exact ⟨h.term, rfl, h.logOffset, h.snapshot⟩
  | putLogOffset logOffset => exact ⟨h.term, h.votedFor, rfl, h.snapshot⟩
  | putSnapshot snapshot => exact ⟨h.term, h.votedFor, h.logOffset, rfl⟩
  | putEntry | deleteEntry => exact ⟨h.term, h.votedFor, h.logOffset, h.snapshot⟩

theorem SameHead.symm (h : d.SameHead d') : d'.SameHead d :=
  ⟨h.term.symm, h.votedFor.symm, h.logOffset.symm, h.snapshot.symm⟩

theorem sameHead_runSteps (h : d.SameHead d') (steps : List StorageStep) :
    (d.runSteps steps).SameHead (d'.runSteps steps) := by
  induction steps generalizing d d' with
  | nil => exact h
  | cons st steps ih =>
    refine ih ?_
    cases st with
    | write w => exact sameHead_write h w
    | truncateFrom i =>
      exact (sameHead_deletes d _).symm.trans (h.trans (sameHead_deletes d' _))

end Disk

section Handler

variable {lib : WireLib} {s : RaftState} {req : AppendEntriesRequest}

/-- Undisturbed, the handler leaves what its list of writes leaves. -/
theorem runSteps_appendEntries (lib : WireLib) (s : RaftState) (d : Disk)
    (req : AppendEntriesRequest) :
    d.runSteps (appendEntriesSteps lib s req) =
      d.writeAll (DurableOp.appendEntriesWrites lib s d req) := by
  simp only [appendEntriesSteps, DurableOp.appendEntriesWrites]
  rw [Disk.runSteps_append, Disk.runSteps_writes, Disk.writeAll_append]
  split_ifs
  · rw [Disk.writeAll_append, ← Disk.runSteps_writes _ (List.map _ _), List.map_map]
    rfl
  · rfl
  · rfl

theorem untouched_hardState (s : RaftState) (k : ℕ) :
    ∀ st ∈ s.saveHardState.map StorageStep.write, st.touches k = false := by
  intro st hst
  simp only [RaftState.saveHardState, Disk.saveHardState, List.map_cons, List.map_nil,
    List.mem_cons, List.not_mem_nil, or_false] at hst
  rcases hst with rfl | rfl | rfl <;> rfl

/-- At each key the handler leaves what is in the log, or it neither touches the key nor changes
the log there. -/
theorem appendEntriesSteps_at (hal : s.Aligned) (hal' : (handleAppendEntries lib s req).1.Aligned)
    (d : Disk) (j : ℕ) :
    ((handleAppendEntries lib s req).1.log[j]? = s.log[j]? ∧
        ∀ st ∈ appendEntriesSteps lib s req, st.touches (s.logOffset + 1 + j) = false) ∨
      (d.runSteps (appendEntriesSteps lib s req)).log.lookup (s.logOffset + 1 + j) =
        (handleAppendEntries lib s req).1.log[j]? := by
  obtain ⟨hoff, -⟩ := handleAppendEntries_offset lib s req
  rcases appendEntriesSteps_cases hal hal' with ⟨hlog, -, heq⟩ | ⟨i, -, htake, heq⟩
  · rw [heq, hlog]
    exact .inl ⟨rfl, untouched_hardState _ _⟩
  · rcases lookup_rewrite (d.writeAll (handleAppendEntries lib s req).1.saveHardState) hoff hal'
      htake j with ⟨hlow, hmem, -⟩ | hhigh
    · refine .inl ⟨hmem, fun st hst => ?_⟩
      rw [heq] at hst
      rcases List.mem_append.mp hst with hst | hst
      · exact untouched_hardState _ _ st hst
      · rcases List.mem_cons.mp hst with rfl | hst
        · exact decide_eq_false (by omega)
        · obtain ⟨e, he, rfl⟩ := List.mem_map.mp hst
          rw [hal'.getEntriesFrom_succ] at he
          have hle := (hal'.drop _).le_index e he
          exact decide_eq_false (by omega)
    · refine .inr ?_
      rw [← hhigh, heq, Disk.runSteps_append, Disk.runSteps_writes, Disk.writeAll_append,
        ← Disk.runSteps_writes _ (List.map _ _), List.map_map]
      rfl

end Handler

/-! ### Interleavings -/

namespace AppendingNode

/-- When the handler is through, the disk will hold the log of the memory but for the entry under
way, which may be missing where the handler does not come. -/
structure Inv (nd : AppendingNode) : Prop where
  aligned : nd.durable.state.Aligned
  saved : (nd.durable.disk.runSteps nd.writing).term.isSome = true
  offset : (nd.durable.disk.runSteps nd.writing).logOffset.getD 0 = nd.durable.state.logOffset
  log : ∀ j, (nd.durable.disk.runSteps nd.writing).log.lookup
        (nd.durable.state.logOffset + 1 + j) = nd.durable.state.log[j]? ∨
    ∃ e, nd.pending = some e ∧ e.index = nd.durable.state.logOffset + 1 + j ∧
      nd.durable.state.log[j]? = some e ∧ ∀ st ∈ nd.writing, st.touches e.index = false

variable {lib : WireLib} {nd nd' : AppendingNode}

theorem inv_of_mirrors {dn : DurableNode} (hal : dn.state.Aligned)
    (h : Mirrors dn.state dn.disk) : Inv ⟨dn, none, []⟩ :=
  ⟨hal, (congrArg Option.isSome h.term).trans rfl, h.logOffset, fun j => .inl (h.log j)⟩

theorem Inv.lookup_eq (h : nd.Inv) (hnone : nd.pending = none) (j : ℕ) :
    (nd.durable.disk.runSteps nd.writing).log.lookup (nd.durable.state.logOffset + 1 + j) =
      nd.durable.state.log[j]? := by
  refine (h.log j).resolve_right ?_
  rintro ⟨e, hpending, -⟩
  rw [hnone] at hpending
  cases hpending

theorem Inv.load_log (h : nd.Inv) (hidle : nd.Idle) :
    nd.durable.disk.load.map PersistedState.log = some nd.durable.state.log := by
  have hlookup := h.lookup_eq hidle.1
  have hsaved := h.saved
  have hoffset := h.offset
  rw [hidle.2] at hlookup hsaved hoffset
  obtain ⟨term, hterm⟩ := Option.isSome_iff_exists.mp hsaved
  have hdisk : nd.durable.disk.term = some term := hterm
  have hoff : nd.durable.disk.logOffset.getD 0 = nd.durable.state.logOffset := hoffset
  rw [Disk.load, hdisk, Option.map_some, Option.map_some, hoff]
  exact congrArg some (scanFrom_eq hlookup)

theorem Inv.beginAppend (h : nd.Inv) (hidle : nd.Idle) (command : Command) :
    (nd.beginAppend command).Inv := by
  rw [AppendingNode.beginAppend]
  split_ifs
  · have hlast := h.aligned.lastLogIndex
    refine ⟨h.aligned.appendEntry command, h.saved, h.offset, fun j => ?_⟩
    change (nd.durable.disk.runSteps nd.writing).log.lookup
        (nd.durable.state.logOffset + 1 + j) =
      (nd.durable.state.log ++ [nd.durable.state.newEntry command])[j]? ∨ _
    have hold := h.lookup_eq hidle.1 j
    rcases lt_trichotomy j nd.durable.state.log.length with hlt | rfl | hgt
    · exact .inl (hold.trans (List.getElem?_append_left hlt).symm)
    · refine .inr ⟨_, rfl, ?_, List.getElem?_concat_length, fun st hst => ?_⟩
      · change nd.durable.state.lastLogIndex + 1 = nd.durable.state.logOffset + 1 + _
        omega
      · rw [hidle.2] at hst
        cases hst
    · refine .inl (hold.trans ?_)
      rw [List.getElem?_eq_none (by omega),
        List.getElem?_eq_none (by rw [List.length_append, List.length_singleton]; omega)]
  · exact h

/-- The late write changes the outcome at its own key only, and not there either if the handler
still comes to it. -/
theorem Inv.finishAppend (h : nd.Inv) {e : LogEntry} (hpending : nd.pending = some e)
    (hin : nd.durable.state.getEntry e.index = some e) : (nd.finishAppend e).Inv := by
  have hhead : nd.durable.disk.SameHead (nd.durable.disk.write (.putEntry e)) :=
    ⟨rfl, rfl, rfl, rfl⟩
  have hrun := Disk.sameHead_runSteps hhead nd.writing
  refine ⟨h.aligned, ?_, ?_, fun j => .inl ?_⟩
  · exact (congrArg Option.isSome hrun.term).trans h.saved
  · exact (congrArg (Option.getD · 0) hrun.logOffset).trans h.offset
  · change ((nd.durable.disk.write (.putEntry e)).runSteps nd.writing).log.lookup
      (nd.durable.state.logOffset + 1 + j) = nd.durable.state.log[j]?
    by_cases hj : nd.durable.state.logOffset + 1 + j = e.index
    · have hmem : nd.durable.state.log[j]? = some e := by
        rw [← hj, RaftState.getEntry, if_neg (by omega)] at hin
        rw [← hin]
        congr 1
        omega
      by_cases htouch : ∃ st ∈ nd.writing, st.touches (nd.durable.state.logOffset + 1 + j) = true
      · rw [Disk.lookup_runSteps_congr (.inr htouch)]
        refine (h.log j).resolve_right ?_
        rintro ⟨e', -, hindex, -, huntouched⟩
        obtain ⟨st, hst, htrue⟩ := htouch
        rw [← hindex, huntouched st hst] at htrue
        cases htrue
      · have huntouched : ∀ st ∈ nd.writing,
            st.touches (nd.durable.state.logOffset + 1 + j) = false := fun st hst =>
          eq_false_of_ne_true fun htrue => htouch ⟨st, hst, htrue⟩
        rw [Disk.lookup_runSteps_of_untouched huntouched, hmem, hj]
        exact Finmap.lookup_insert _
    · rw [Disk.lookup_runSteps_congr (.inl (Finmap.lookup_insert_of_ne _ hj))]
      refine (h.log j).resolve_right ?_
      rintro ⟨e', he', hindex, -⟩
      obtain rfl : e = e' := Option.some.inj (hpending.symm.trans he')
      exact hj hindex.symm

theorem Inv.appendEntries (h : nd.Inv) (hfree : nd.writing = []) {req : AppendEntriesRequest}
    (hwf : req.WellFormed lib)
    (hstart : (Call.appendEntries req).StartsAboveOffset nd.durable.state) :
    (nd.appendEntries lib req).Inv := by
  have hal' := (h.aligned.handleAppendEntries hwf).mpr hstart
  obtain ⟨hoff, -⟩ := handleAppendEntries_offset lib nd.durable.state req
  obtain ⟨hhead, -⟩ := appendEntriesWrites_spec nd.durable.disk h.aligned hal'
  rw [← runSteps_appendEntries] at hhead
  refine ⟨hal', ?_, ?_, fun j => ?_⟩
  · exact (congrArg Option.isSome hhead.term).trans rfl
  · exact (congrArg (Option.getD · 0) hhead.logOffset).trans rfl
  · have hold := h.log j
    rw [hfree] at hold
    change (nd.durable.disk.runSteps (appendEntriesSteps lib nd.durable.state req)).log.lookup
        ((handleAppendEntries lib nd.durable.state req).1.logOffset + 1 + j) =
          (handleAppendEntries lib nd.durable.state req).1.log[j]? ∨
      ∃ e, nd.pending = some e ∧
        e.index = (handleAppendEntries lib nd.durable.state req).1.logOffset + 1 + j ∧
        (handleAppendEntries lib nd.durable.state req).1.log[j]? = some e ∧
        ∀ st ∈ appendEntriesSteps lib nd.durable.state req, st.touches e.index = false
    rw [hoff]
    rcases appendEntriesSteps_at h.aligned hal' nd.durable.disk j with
      ⟨hmem, huntouched⟩ | hdone
    · rw [hmem, Disk.lookup_runSteps_of_untouched huntouched]
      exact hold.imp_right fun ⟨e, hpending, hindex, hlog, _⟩ =>
        ⟨e, hpending, hindex, hlog, hindex ▸ huntouched⟩
    · exact .inl hdone

theorem Inv.storageStep (h : nd.Inv) (hs : nd.storageStep = some nd') : nd'.Inv := by
  rw [AppendingNode.storageStep] at hs
  cases hwriting : nd.writing with
  | nil =>
    rw [hwriting] at hs
    cases hs
  | cons st rest =>
    obtain ⟨hal, hsaved, hoffset, hlog⟩ := h
    rw [hwriting] at hs hsaved hoffset hlog
    cases st with
    | write w =>
      obtain rfl := Option.some.inj hs
      refine ⟨hal, hsaved, hoffset, fun j => (hlog j).imp_right ?_⟩
      exact fun ⟨e, hpending, hindex, hmem, huntouched⟩ =>
        ⟨e, hpending, hindex, hmem, fun st hst => huntouched st (List.mem_cons_of_mem _ hst)⟩
    | truncateFrom i =>
      obtain rfl := Option.some.inj hs
      have hsame : nd.durable.disk.runSteps
          ((nd.durable.disk.truncateFrom i).map .write ++ rest) =
            nd.durable.disk.runSteps (.truncateFrom i :: rest) := by
        rw [Disk.runSteps_append, Disk.runSteps_writes]
        rfl
      refine ⟨hal, hsame ▸ hsaved, hsame ▸ hoffset, fun j => ?_⟩
      rw [hsame]
      refine (hlog j).imp_right fun ⟨e, hpending, hindex, hmem, huntouched⟩ =>
        ⟨e, hpending, hindex, hmem, fun st hst => ?_⟩
      rcases List.mem_append.mp hst with hst | hst
      · have hbelow : ¬ i ≤ e.index :=
          of_decide_eq_false (huntouched (.truncateFrom i) (List.mem_cons_self ..))
        obtain ⟨w, hw, rfl⟩ := List.mem_map.mp hst
        obtain ⟨key, hkey, rfl⟩ := List.mem_map.mp hw
        have hle := ((mem_keysFrom ..).mp hkey).1
        exact decide_eq_false (by omega)
      · exact huntouched st (List.mem_cons_of_mem _ hst)

theorem Inv.step (h : nd.Inv) {ev : AppendEvent} (hcond : nd.InPlace lib ev)
    (hs : nd.step lib ev = some nd') : nd'.Inv := by
  cases ev with
  | beginAppend command =>
    obtain ⟨hidle, heq⟩ := Option.ite_none_right_eq_some.mp hs
    exact Option.some.inj heq ▸ h.beginAppend hidle command
  | finishAppend =>
    obtain ⟨e, hpending, rfl⟩ := Option.map_eq_some_iff.mp hs
    exact h.finishAppend hpending (hcond e hpending)
  | appendEntries req =>
    obtain ⟨hfree, heq⟩ := Option.ite_none_right_eq_some.mp hs
    exact Option.some.inj heq ▸ h.appendEntries hfree hcond.1 hcond.2
  | storageStep => exact h.storageStep hs

/-- In every interleaving in which each entry is still in the log when it is written to the
storage, the storage holds the log of the memory whenever no operation is under way. -/
theorem idle_storage_holds_log (lib : WireLib) {dn : DurableNode} (hal : dn.state.Aligned)
    (hm : Mirrors dn.state dn.disk)
    (h : Runs.Reach (step lib) (InPlace lib) ⟨dn, none, []⟩ nd) (hidle : nd.Idle) :
    nd.durable.disk.load.map PersistedState.log = some nd.durable.state.log := by
  have hinv : nd.Inv := h.invariant (inv_of_mirrors hal hm) fun hi hcond hs => hi.step hcond hs
  exact hinv.load_log hidle

def electedNode : DurableNode where
  state := (RaftState.new.becomeCandidate 1).finishElection 1 [2, 3] 1 2
  disk := Disk.empty.writeAll (RaftState.new.becomeCandidate 1).saveHardState

theorem mirrors_electedNode : Mirrors electedNode.state electedNode.disk :=
  ⟨⟨rfl, fun _ => Finmap.lookup_empty _⟩, rfl, rfl, rfl⟩

/-- The entry of the append lands between the writes of the newer leader's heartbeat. -/
theorem idle_storage_holds_log_after_heartbeat :
    ∃ nd, Runs.Reach (step .standard) (InPlace .standard) ⟨electedNode, none, []⟩ nd ∧
      nd.durable.state.log = [⟨1, 1, .noop⟩] ∧
      nd.durable.disk.load.map PersistedState.log = some nd.durable.state.log := by
  obtain ⟨nd, hreach, hidle, hlog⟩ := Runs.exists_reach_of_guardedRun (step .standard)
    (InPlace .standard) (fun nd => nd.Idle ∧ nd.durable.state.log = [⟨1, 1, .noop⟩])
    ⟨electedNode, none, []⟩
    [.beginAppend .noop, .appendEntries ⟨2, 3, 0, 0, [], 0⟩, .storageStep, .finishAppend,
      .storageStep, .storageStep] (by decide +kernel)
  exact ⟨nd, hreach, hlog, idle_storage_holds_log .standard (by decide +kernel)
    mirrors_electedNode hreach hidle⟩

def FromNewerLeader (lib : WireLib) (nd : AppendingNode) : AppendEvent → Prop
  | .appendEntries req => req.WellFormed lib ∧ nd.durable.state.currentTerm < req.term
  | .beginAppend _ | .finishAppend | .storageStep => True

instance (lib : WireLib) (nd : AppendingNode) :
    (ev : AppendEvent) → Decidable (nd.FromNewerLeader lib ev)
  | .appendEntries _ => inferInstanceAs (Decidable (_ ∧ _))
  | .beginAppend _ | .finishAppend | .storageStep => isTrue trivial

/-- The newer leader replaces the entry before it is written to the storage: the late write puts
the old entry in the place of the new one. -/
theorem late_append_overwrites :
    ¬ ∀ (lib : WireLib) (dn : DurableNode) (nd : AppendingNode), dn.state.Aligned →
      Mirrors dn.state dn.disk →
      Runs.Reach (step lib) (FromNewerLeader lib) ⟨dn, none, []⟩ nd → nd.Idle →
      nd.durable.disk.load.map PersistedState.log = some nd.durable.state.log := by
  intro hall
  obtain ⟨nd, hreach, hidle, hmem, hdisk⟩ := Runs.exists_reach_of_guardedRun (step .standard)
    (FromNewerLeader .standard)
    (fun nd => nd.Idle ∧ nd.durable.state.log = [⟨2, 1, .noop⟩] ∧
      nd.durable.disk.load.map PersistedState.log = some [⟨1, 1, .noop⟩])
    ⟨electedNode, none, []⟩
    [.beginAppend .noop, .appendEntries ⟨2, 3, 0, 0, [⟨2, 1, none⟩], 0⟩, .storageStep,
      .storageStep, .storageStep, .storageStep, .storageStep, .finishAppend]
    (by decide +kernel)
  have heq := hall .standard electedNode nd (by decide +kernel) mirrors_electedNode hreach hidle
  rw [hdisk, hmem] at heq
  cases heq

end AppendingNode
end NomadLite
