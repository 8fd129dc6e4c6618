import NomadLite.DiskMirror
import NomadLite.ReleaseCalls

/-!
# The storage on 64-bit words

The keys of the log are counted as well: `load` reads from `log_offset + 1` on,
`save_snapshot` deletes below that key, and `handle_append_entries` rewrites the log
from `prev_log_index + 1` on. A release build wraps there. As long as no key is counted
on from the greatest word the disk mirrors the memory. A compaction that moves the
offset to the greatest word deletes nothing, and the next `load` returns the compacted
entries.
-/

namespace NomadLite

open MachineWord OrderedScan

namespace Release

def getEntriesFrom (s : RaftState) (startIndex : ℕ) : List LogEntry :=
  let first := wrappingAdd u64 s.logOffset 1
  let effectiveStart := if startIndex = 0 then first else max startIndex first
  let vecStart := wrappingSub u64 (wrappingSub u64 effectiveStart s.logOffset) 1
  if s.lastLogIndex < effectiveStart then []
  else if s.log.length ≤ vecStart then []
  else s.log.drop vecStart

def saveSnapshot (s : RaftState) (d : Disk) : List DiskWrite :=
  (s.snapshot.map fun snapshot =>
    [.putSnapshot snapshot, .putLogOffset s.logOffset] ++
      if 0 < s.logOffset then
        ((keysFrom d.log 1).takeWhile (· < wrappingAdd u64 s.logOffset 1)).map .deleteEntry
      else []).getD []

def load (d : Disk) : Option PersistedState :=
  d.term.map fun term =>
    { currentTerm := term
      votedFor := d.votedFor.getD none
      logOffset := d.logOffset.getD 0
      snapshot := d.snapshot
      log := scanFrom d.log (wrappingAdd u64 (d.logOffset.getD 0) 1) }

section Operations

variable (lib : WireLib)

def appendEntriesWrites (s : RaftState) (d : Disk) (req : AppendEntriesRequest) :
    List DiskWrite :=
  let r := handleAppendEntries lib s req
  r.1.saveHardState ++
    if r.2.success = true ∧ req.entries ≠ [] then
      d.truncateFrom (wrappingAdd u64 req.prevLogIndex 1) ++
        (getEntriesFrom r.1 (wrappingAdd u64 req.prevLogIndex 1)).map .putEntry
    else if r.2.success = false ∧ r.1.lastLogIndex < s.lastLogIndex then
      d.truncateFrom (wrappingAdd u64 r.1.lastLogIndex 1)
    else []

def installSnapshotWrites (s : RaftState) (d : Disk) (req : InstallSnapshotRequest) :
    List DiskWrite :=
  let s' := (handleInstallSnapshot lib s req).1
  s'.saveHardState ++ if req.lastIncludedIndex ≤ s'.logOffset then saveSnapshot s' d else []

/-- The other operations count on from no word that is stored. -/
def durableExec (s : RaftState) : DurableOp → RaftState
  | .handleAppendEntries req => (handleAppendEntries lib s req).1
  | .handleInstallSnapshot req => (handleInstallSnapshot lib s req).1
  | .handleAppendCommand command => if s.role = .leader then appendEntry s command else s
  | .startElection myId => becomeCandidate s myId
  | op => op.exec lib s

def durableWrites (s : RaftState) (d : Disk) : DurableOp → List DiskWrite
  | .handleAppendEntries req => appendEntriesWrites lib s d req
  | .handleInstallSnapshot req => installSnapshotWrites lib s d req
  | .handleAppendCommand command =>
    if s.role = .leader then
      Disk.appendEntry ⟨s.currentTerm, wrappingAdd u64 s.lastLogIndex 1, command⟩
    else []
  | .startElection myId => (becomeCandidate s myId).saveHardState
  | .maybeCompactLog lastApplied lastAppliedTerm jobs workers =>
    saveSnapshot (s.compactLog ⟨lastApplied, lastAppliedTerm, jobs, workers⟩) d
  | op => op.writes lib s d

end Operations
end Release

namespace DurableOp

/-- The numbers of a request are `u64`s. -/
def InRange : DurableOp → Prop
  | handleAppendEntries req => req.prevLogIndex < u64 ∧ ∀ p ∈ req.entries, p.index < u64
  | handleInstallSnapshot req => req.lastIncludedIndex < u64
  | maybeCompactLog lastApplied .. => lastApplied < u64
  | _ => True

/-- No key of the log is counted on from the greatest word: by accepted entries, by a snapshot that
is taken, or by a compaction. -/
def KeysFit (lib : WireLib) (s : RaftState) : DurableOp → Prop
  | handleAppendEntries req =>
    (Release.handleAppendEntries lib s req).2.success = true ∧ req.entries ≠ [] →
      req.prevLogIndex + 1 < u64
  | handleInstallSnapshot req => s.Installs req → req.lastIncludedIndex + 1 < u64
  | maybeCompactLog lastApplied .. => lastApplied + 1 < u64
  | _ => True

instance : (op : DurableOp) → Decidable op.InRange
  | handleAppendEntries _ => inferInstanceAs (Decidable (_ ∧ _))
  | handleInstallSnapshot _ | maybeCompactLog .. => inferInstanceAs (Decidable (_ < _))
  | handleVoteRequest _ | handleAppendCommand _ | startElection _ | finishElection ..
  | stepDown _ | handleAppendReply .. | handleSnapshotReply .. | getCommittedEntries =>
    isTrue trivial

instance (lib : WireLib) (s : RaftState) : (op : DurableOp) → Decidable (op.KeysFit lib s)
  | handleAppendEntries _ => inferInstanceAs (Decidable (_ ∧ _ → _))
  | handleInstallSnapshot _ => inferInstanceAs (Decidable (_ → _))
  | maybeCompactLog .. => inferInstanceAs (Decidable (_ < _))
  | handleVoteRequest _ | handleAppendCommand _ | startElection _ | finishElection ..
  | stepDown _ | handleAppendReply .. | handleSnapshotReply .. | getCommittedEntries =>
    isTrue trivial

end DurableOp

namespace DurableNode

def releaseStep (lib : WireLib) (nd : DurableNode) (op : DurableOp) : Option DurableNode :=
  if op.Enabled nd.state then
    some ⟨Release.durableExec lib nd.state op,
      nd.disk.writeAll (Release.durableWrites lib nd.state nd.disk op)⟩
  else none

def StaysAligned (lib : WireLib) (nd : DurableNode) (op : DurableOp) : Prop :=
  op.InRange ∧ (Release.durableExec lib nd.state op).Aligned

def StaysExact (lib : WireLib) (nd : DurableNode) (op : DurableOp) : Prop :=
  nd.StaysAligned lib op ∧ op.KeysFit lib nd.state

instance (lib : WireLib) (nd : DurableNode) (op : DurableOp) :
    Decidable (nd.StaysAligned lib op) :=
  inferInstanceAs (Decidable (_ ∧ _))

instance (lib : WireLib) (nd : DurableNode) (op : DurableOp) : Decidable (nd.StaysExact lib op) :=
  inferInstanceAs (Decidable (_ ∧ _))

end DurableNode

def DurableOp.AppendFits (s : RaftState) (op : DurableOp) : Prop :=
  ∀ command, op = .handleAppendCommand command → s.role = .leader → s.lastLogIndex + 1 < u64

/-- The indices of the log are words, and so is the first key that `load` reads. -/
structure RaftState.InWords (s : RaftState) : Prop where
  logOffset : s.logOffset + 1 < u64
  index : ∀ e ∈ s.log, e.index < u64

section Words

variable {lib : WireLib} {s s' : RaftState} {d : Disk} {op : DurableOp}

namespace RaftState.InWords

theorem lastLogIndex_lt (h : s.InWords) : s.lastLogIndex < u64 := by
  have hoff := h.logOffset
  rw [lastLogIndex]
  cases hget : s.log.getLast? with
  | none => exact (Nat.lt_succ_self _).trans hoff
  | some e => exact h.index e (List.mem_of_getLast? hget)

theorem of_subset (h : s.InWords) (hoff : s'.logOffset + 1 < u64) (hlog : s'.log ⊆ s.log) :
    s'.InWords :=
  ⟨hoff, fun e he => h.index e (hlog he)⟩

theorem of_eq (h : s.InWords) (hoff : s'.logOffset = s.logOffset) (hlog : s'.log = s.log) :
    s'.InWords :=
  h.of_subset (hoff ▸ h.logOffset) (hlog ▸ List.Subset.refl _)

theorem exec (h : s.InWords) (hal : s.Aligned) (hrange : op.InRange) (hfits : op.KeysFit lib s)
    (happend : op.AppendFits s) : (op.exec lib s).InWords := by
  cases op.recipe lib s .empty with
  | hardState hoff hlog => exact h.of_eq hoff hlog
  | volatile hsame =>
    obtain ⟨-, -, hoff, -, hlog⟩ := PersistedState.mk.inj hsame
    exact h.of_eq hoff hlog
  | appendEntries req hop =>
    subst hop
    refine ⟨(handleAppendEntries_offset lib s req).1 ▸ h.logOffset, fun e he => ?_⟩
    rcases mem_log_handleAppendEntries he with hold | ⟨-, hnew⟩
    · exact h.index e hold
    · obtain ⟨p, hp, hdecode⟩ := List.mem_filterMap.mp hnew
      rw [protoToLogEntry_index hdecode]
      exact hrange.2 p hp
  | installSnapshot req hop =>
    subst hop
    refine h.of_subset ?_ (log_handleInstallSnapshot_subset lib s req)
    rcases handleInstallSnapshot_outcome lib hal req with ⟨hoff, -⟩ | ⟨hinst, hoff, -⟩
    · exact hoff ▸ h.logOffset
    · exact hoff ▸ hfits hinst
  | appendCommand command hop hrole =>
    subst hop
    rw [DurableOp.exec, if_pos hrole]
    refine ⟨h.logOffset, fun e he => ?_⟩
    rcases List.mem_append.mp he with hold | hnew
    · exact h.index e hold
    · obtain rfl := List.mem_singleton.mp hnew
      exact happend command rfl hrole
  | compaction lastApplied lastAppliedTerm jobs workers hop =>
    subst hop
    refine h.of_subset ?_ (log_compactLog_subset s _)
    rw [DurableOp.exec, RaftState.compactLog]
    split_ifs
    · exact h.logOffset
    · exact hfits

/-- An entry of a wrapped index is not at its position. -/
theorem fits_of_appendEntry (h : s.InWords) {command : Command}
    (hal' : (Release.appendEntry s command).Aligned) : s.lastLogIndex + 1 < u64 := by
  have hlt := h.lastLogIndex_lt
  have hindex : wrappingAdd u64 s.lastLogIndex 1 = s.logOffset + 1 + s.log.length :=
    hal' s.log.length _ (List.getElem?_concat_length ..)
  by_contra hge
  rw [wrappingAdd_eq_zero u64 (by omega)] at hindex
  omega

end RaftState.InWords

namespace Release

theorem getEntriesFrom_eq (hoff : s.logOffset + 1 < u64) {start : ℕ} (hstart : start < u64) :
    getEntriesFrom s start = s.getEntriesFrom start := by
  simp only [getEntriesFrom, RaftState.getEntriesFrom, wrappingAdd_eq u64 hoff]
  generalize hfirst : (if start = 0 then _ else _ : ℕ) = first
  have hbounds : s.logOffset + 1 ≤ first ∧ first < u64 := by
    rw [← hfirst]
    split_ifs <;> omega
  rw [wrappingSub_eq u64 (by omega) hbounds.2, wrappingSub_eq u64 (by omega) (by omega)]

theorem saveSnapshot_eq (d : Disk) (hoff : s.logOffset + 1 < u64) :
    saveSnapshot s d = s.saveSnapshot d := by
  rw [saveSnapshot, RaftState.saveSnapshot]
  cases s.snapshot with
  | none => rfl
  | some snapshot =>
    rw [wrappingAdd_eq u64 hoff]
    rfl

/-- No key is below the wrapped bound. -/
theorem saveSnapshot_wraps (d : Disk) (hoff : s.logOffset + 1 = u64) {snapshot : Snapshot}
    (hsnap : s.snapshot = some snapshot) :
    saveSnapshot s d = [.putSnapshot snapshot, .putLogOffset s.logOffset] := by
  have hnone : (keysFrom d.log 1).takeWhile (· < 0) = [] :=
    List.takeWhile_eq_nil_iff.mpr fun _ => by simp
  simp only [saveSnapshot, hsnap, wrappingAdd_eq_zero u64 hoff, hnone, List.map_nil, ite_self,
    Option.map_some, Option.getD_some, List.append_nil]

theorem load_eq (hoff : d.logOffset.getD 0 + 1 < u64) : load d = d.load := by
  rw [load, Disk.load, wrappingAdd_eq u64 hoff]

theorem handleAppendEntries_eq_of_keysFit {req : AppendEntriesRequest}
    (h : (DurableOp.handleAppendEntries req).KeysFit lib s) :
    handleAppendEntries lib s req = NomadLite.handleAppendEntries lib s req := by
  by_cases hfits : req.prevLogIndex + 1 < u64
  · exact handleAppendEntries_eq hfits
  · have hnot := mt h hfits
    simp only [handleAppendEntries, NomadLite.handleAppendEntries] at hnot ⊢
    split_ifs at hnot ⊢
    · rfl
    · cases hcheck : ((s.adoptTerm req.term).acceptLeader req.term req.leaderId).checkPrevLog
        req.prevLogIndex req.prevLogTerm with
      | reject => rfl
      | mismatch => rfl
      | accept =>
        rw [hcheck] at hnot
        have hnil : req.entries = [] := by_contra fun hne => hnot ⟨rfl, hne⟩
        simp only [appendNewEntries, RaftState.appendNewEntries, if_pos hnil]

theorem handleInstallSnapshot_eq_of_keysFit {req : InstallSnapshotRequest}
    (h : (DurableOp.handleInstallSnapshot req).KeysFit lib s) :
    handleInstallSnapshot lib s req = NomadLite.handleInstallSnapshot lib s req := by
  by_cases hfits : req.lastIncludedIndex + 1 < u64
  · exact handleInstallSnapshot_eq hfits
  · have hnot := mt h hfits
    simp only [handleInstallSnapshot, NomadLite.handleInstallSnapshot, installSnapshot,
      RaftState.installSnapshot]
    split_ifs with hstale hold
    · rfl
    · rfl
    · refine absurd ⟨?_, ?_⟩ hnot
      · have hmax : (s.adoptTerm req.term).currentTerm = max s.currentTerm req.term :=
          RaftState.adoptTerm_currentTerm
        omega
      · exact RaftState.adoptTerm_logOffset (s := s) ▸ not_le.mp hold

theorem appendEntriesWrites_eq {req : AppendEntriesRequest} (h : s.InWords)
    (hfits : (DurableOp.handleAppendEntries req).KeysFit lib s) :
    appendEntriesWrites lib s d req = DurableOp.appendEntriesWrites lib s d req := by
  have hoff : (NomadLite.handleAppendEntries lib s req).1.logOffset + 1 < u64 :=
    (handleAppendEntries_offset lib s req).1 ▸ h.logOffset
  have hlast := h.lastLogIndex_lt
  have hsame := handleAppendEntries_eq_of_keysFit hfits
  rw [DurableOp.KeysFit, hsame] at hfits
  simp only [appendEntriesWrites, DurableOp.appendEntriesWrites, hsame]
  congr 1
  split_ifs with haccepted hcut
  · rw [wrappingAdd_eq u64 (hfits haccepted), getEntriesFrom_eq hoff (hfits haccepted)]
  · rw [wrappingAdd_eq u64 (by omega)]
  · rfl

theorem durable_eq (h : s.InWords) (h' : (op.exec lib s).InWords) (hfits : op.KeysFit lib s)
    (happend : op.AppendFits s) (hstart : ∀ myId, op ≠ .startElection myId) :
    durableExec lib s op = op.exec lib s ∧ durableWrites lib s d op = op.writes lib s d := by
  cases op with
  | handleAppendEntries req =>
    exact ⟨congrArg Prod.fst (handleAppendEntries_eq_of_keysFit hfits),
      appendEntriesWrites_eq h hfits⟩
  | handleInstallSnapshot req =>
    have hsame := handleInstallSnapshot_eq_of_keysFit hfits
    have hsave := saveSnapshot_eq d h'.logOffset
    rw [DurableOp.exec] at hsave
    refine ⟨congrArg Prod.fst hsame, ?_⟩
    simp only [durableWrites, installSnapshotWrites, hsame, hsave]
    rfl
  | handleAppendCommand command =>
    simp only [durableExec, durableWrites, DurableOp.exec, DurableOp.writes, appendEntry]
    split_ifs with hrole
    · rw [wrappingAdd_eq u64 (happend command rfl hrole)]
      exact ⟨rfl, rfl⟩
    · exact ⟨rfl, rfl⟩
  | startElection myId => exact absurd rfl (hstart myId)
  | maybeCompactLog => exact ⟨rfl, saveSnapshot_eq d h'.logOffset⟩
  | handleVoteRequest | finishElection | stepDown | handleAppendReply | handleSnapshotReply
  | getCommittedEntries => exact ⟨rfl, rfl⟩

end Release

/-- Memory drops the whole log, the disk keeps it, and `load` reads it from key 0 on. -/
theorem MirrorsLog.load_compacted (h : MirrorsLog s d) (hlog : s.log ≠ [])
    (hlen : s.logOffset + s.log.length < u64) {snapshot : Snapshot}
    (hlast : snapshot.lastIncludedIndex + 1 = u64) :
    Release.load (d.writeAll (Release.saveSnapshot (s.compactLog snapshot) d)) ≠
      some (s.compactLog snapshot).persisted := by
  obtain ⟨e, rest, hcons⟩ := List.exists_cons_of_ne_nil hlog
  have hpos := List.length_pos_iff.mpr hlog
  have hnew : s.compactLog snapshot =
      { s with
        log := s.log.drop (snapshot.lastIncludedIndex - s.logOffset)
        logOffset := snapshot.lastIncludedIndex
        snapshot := some snapshot } :=
    if_neg (by omega)
  have hkept : e ∈ scanFrom d.log (wrappingAdd u64 snapshot.lastIncludedIndex 1) := by
    rw [wrappingAdd_eq_zero u64 hlast]
    exact (mem_scanFrom ..).mpr ⟨s.logOffset + 1, Nat.zero_le _, by rw [h.log 0, hcons]; rfl⟩
  rw [hnew, Release.saveSnapshot_wraps d hlast rfl, List.drop_eq_nil_of_le (by omega)]
  intro hload
  obtain ⟨term, -, hloaded⟩ := Option.map_eq_some_iff.mp hload
  have hnil : scanFrom d.log (wrappingAdd u64 snapshot.lastIncludedIndex 1) = [] :=
    congrArg PersistedState.log hloaded
  rw [hnil] at hkept
  cases hkept

end Words

namespace DurableNode

variable {lib : WireLib} {nd nd' : DurableNode} {op : DurableOp}

/-- What a run that fits keeps: the disk, the positions of the entries, and words. -/
structure KeptInWords (nd : DurableNode) : Prop where
  kept : nd.Kept
  aligned : nd.state.Aligned
  words : nd.state.InWords

theorem eq_of_releaseStep (hs : nd.releaseStep lib op = some nd') : op.Enabled nd.state ∧
    nd' = ⟨Release.durableExec lib nd.state op,
      nd.disk.writeAll (Release.durableWrites lib nd.state nd.disk op)⟩ := by
  rw [releaseStep] at hs
  split_ifs at hs with hen
  exact ⟨hen, (Option.some.inj hs).symm⟩

/-- The term of a candidacy may wrap: it is saved as it is. Any other operation is one on the
natural numbers. -/
theorem KeptInWords.step (h : nd.KeptInWords) (hstays : nd.StaysExact lib op)
    (hs : nd.releaseStep lib op = some nd') :
    nd'.KeptInWords ∧ (op.savesHardState nd.state = true ∨ Mirrors nd.state nd.disk →
      Mirrors nd'.state nd'.disk) := by
  obtain ⟨⟨hrange, hal'⟩, hfits⟩ := hstays
  obtain ⟨hen, rfl⟩ := eq_of_releaseStep hs
  by_cases hstart : ∃ myId, op = .startElection myId
  · obtain ⟨myId, rfl⟩ := hstart
    have hmirrors : Mirrors (Release.becomeCandidate nd.state myId)
        (nd.disk.writeAll (Release.becomeCandidate nd.state myId).saveHardState) :=
      h.kept.mirrorsLog.mirrors_of_eq rfl rfl rfl
    exact ⟨⟨.inr hmirrors, hal', h.words.of_eq rfl rfl⟩, fun _ => hmirrors⟩
  · have happend : op.AppendFits nd.state := by
      rintro command rfl hrole
      rw [Release.durableExec, if_pos hrole] at hal'
      exact h.words.fits_of_appendEntry hal'
    have hwords := h.words.exec h.aligned hrange hfits happend
    obtain ⟨hexec, hwrites⟩ := Release.durable_eq h.words hwords hfits happend
      fun myId heq => hstart ⟨myId, heq⟩
    rw [hexec] at hal'
    rw [hexec, hwrites]
    refine ⟨⟨h.kept.step h.aligned (if_pos hen) hal', hal', hwords⟩, ?_⟩
    rintro (hsaves | hmirrors)
    · exact h.kept.mirrorsLog.mirrors_exec h.aligned hal' hsaves
    · exact hmirrors.exec h.aligned hal'

theorem keptInWords_of_reach (h : Runs.Reach (releaseStep lib) (StaysExact lib) start nd) :
    nd.KeptInWords :=
  h.invariant ⟨.inl fresh_new, .nil 0, by decide, fun _ he => absurd he List.not_mem_nil⟩
    fun hi hstays hs => (hi.step hstays hs).1

/-- From the first operation on that saves the hard state, `load` gives back exactly the durable
state in memory after every completed operation, as long as the entries in memory stand at the
positions of their indices. -/
theorem disk_mirrors_memory (lib : WireLib) (op : DurableOp) {nd₀ nd₁ : DurableNode}
    (hbefore : Runs.Reach (releaseStep lib) (StaysExact lib) start nd₀)
    (hstays : nd₀.StaysExact lib op) (hsaves : op.savesHardState nd₀.state = true)
    (hfirst : nd₀.releaseStep lib op = some nd₁)
    (hafter : Runs.Reach (releaseStep lib) (StaysExact lib) nd₁ nd) :
    Release.load nd.disk = some nd.state.persisted := by
  obtain ⟨hkept₁, hmirrors₁⟩ := (keptInWords_of_reach hbefore).step hstays hfirst
  obtain ⟨hmirrors, hkept⟩ : Mirrors nd.state nd.disk ∧ nd.KeptInWords :=
    hafter.invariant (P := fun nd => Mirrors nd.state nd.disk ∧ nd.KeptInWords)
      ⟨hmirrors₁ (.inl hsaves), hkept₁⟩ fun hi hstays hs =>
        ⟨(hi.2.step hstays hs).2 (.inr hi.1), (hi.2.step hstays hs).1⟩
  rw [Release.load_eq (by rw [hmirrors.logOffset]; exact hkept.words.logOffset)]
  exact hmirrors.load

def conflictOps : List DurableOp :=
  [.finishElection 1 [2, 3] 1 2, .handleAppendCommand .noop, .handleAppendReply 2 ⟨1, true, 1⟩,
    .getCommittedEntries, .maybeCompactLog 1 1 [] [], .handleAppendCommand (.registerWorker 1),
    .handleAppendEntries ⟨2, 3, 1, 1, [⟨2, 2, none⟩, ⟨2, 3, none⟩], 0⟩]

theorem disk_mirrors_memory_after_conflict : ∃ nd₁ nd,
    start.releaseStep .standard (.startElection 1) = some nd₁ ∧
      Runs.Reach (releaseStep .standard) (StaysExact .standard) nd₁ nd ∧
      nd.state.logOffset = 1 ∧ nd.state.log = [⟨2, 2, .noop⟩, ⟨2, 3, .noop⟩] ∧
      Release.load nd.disk = some nd.state.persisted := by
  obtain ⟨nd, hreach, hoff, hlog⟩ := Runs.exists_reach_of_guardedRun (releaseStep .standard)
    (StaysExact .standard)
    (fun nd => nd.state.logOffset = 1 ∧ nd.state.log = [⟨2, 2, .noop⟩, ⟨2, 3, .noop⟩])
    ⟨RaftState.new.becomeCandidate 1,
      Disk.empty.writeAll (RaftState.new.becomeCandidate 1).saveHardState⟩
    conflictOps (by decide +kernel)
  exact ⟨_, nd, rfl, hreach, hoff, hlog,
    disk_mirrors_memory .standard (.startElection 1) .init (by decide +kernel) rfl rfl hreach⟩

/-- 1000 entries up to the greatest word, all committed and handed out. -/
def fillOps : List DurableOp :=
  [.handleAppendEntries ⟨1, 2, u64 - 1001, 1,
      (List.range 1000).map fun i => ⟨1, u64 - 1000 + i, none⟩, u64 - 1⟩,
    .getCommittedEntries]

theorem compacted_entries_loaded :
    ¬ ∀ (lib : WireLib) (op : DurableOp) (nd₀ nd₁ nd : DurableNode),
      Runs.Reach (releaseStep lib) (StaysAligned lib) start nd₀ → nd₀.StaysAligned lib op →
        op.savesHardState nd₀.state = true → nd₀.releaseStep lib op = some nd₁ →
        Runs.Reach (releaseStep lib) (StaysAligned lib) nd₁ nd →
          Release.load nd.disk = some nd.state.persisted := by
  intro hall
  obtain ⟨nd₁, hfirst, hstays⟩ : ∃ nd₁, start.releaseStep .standard
      (.handleInstallSnapshot ⟨1, 2, u64 - 1001, 1, [], []⟩) = some nd₁ ∧
        start.StaysExact .standard (.handleInstallSnapshot ⟨1, 2, u64 - 1001, 1, [], []⟩) :=
    ⟨_, if_pos trivial, by decide +kernel⟩
  obtain ⟨nd, hreach, hlength, hoff, happlied⟩ := Runs.exists_reach_of_guardedRun
    (releaseStep .standard) (StaysExact .standard)
    (fun nd => nd.state.log.length = 1000 ∧ nd.state.logOffset = u64 - 1001 ∧
      nd.state.lastApplied = u64 - 1) nd₁ fillOps
    (by rw [← Option.some.inj hfirst]; decide +kernel)
  have hkept := keptInWords_of_reach ((Runs.Reach.init.next hstays hfirst).trans hreach)
  have hlog : nd.state.log ≠ [] := List.ne_nil_of_length_pos (by omega)
  have hcompacts : nd.releaseStep .standard (.maybeCompactLog (u64 - 1) 1 [] []) =
      some ⟨nd.state.compactLog ⟨u64 - 1, 1, [], []⟩, nd.disk.writeAll
        (Release.saveSnapshot (nd.state.compactLog ⟨u64 - 1, 1, [], []⟩) nd.disk)⟩ :=
    if_pos ⟨by decide, happlied.ge⟩
  have haligned : nd.StaysAligned .standard (.maybeCompactLog (u64 - 1) 1 [] []) :=
    ⟨by decide, hkept.aligned.compactLog _⟩
  have hload := hall _ _ _ _ _ .init hstays.1 rfl hfirst
    ((hreach.mono fun _ _ hstays => hstays.1).next haligned hcompacts)
  exact hkept.kept.mirrorsLog.load_compacted hlog (by rw [hlength, hoff]; decide) rfl hload

end DurableNode
end NomadLite
