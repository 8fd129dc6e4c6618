import NomadLite.LogRequests
import NomadLite.StandardWire

/-!
# One request for each peer

A leader clones its log once, from the least `next_index` on, and cuts the requests
of all its peers out of that part. What a peer is sent depends on its own position
alone: the snapshot when the entries it needs are compacted, and otherwise the
leader's entries from `next_index` to the end, with the term of the position before
them.
-/

namespace NomadLite

namespace RaftState

/-- The term at a position of the whole history: `0` before the first entry, and the snapshot's
at the log offset. -/
def historyTerm (s : RaftState) (i : ℕ) : Option ℕ :=
  if i = 0 then some 0
  else if i = s.logOffset then s.snapshot.map Snapshot.lastIncludedTerm
  else (s.getEntry i).map LogEntry.term

def EntriesFrom (s : RaftState) (i : ℕ) (entries : List LogEntry) : Prop :=
  entries.map some = (List.range' i (s.lastLogIndex + 1 - i)).map s.getEntry

def SnapshotAtOffset (s : RaftState) : Prop :=
  0 < s.logOffset → ∃ snapshot, s.snapshot = some snapshot ∧
    snapshot.lastIncludedIndex = s.logOffset

variable {s : RaftState}

theorem Aligned.entriesFrom_drop (h : s.Aligned) {n : ℕ} (hn : s.logOffset < n) :
    s.EntriesFrom n (s.log.drop (n - 1 - s.logOffset)) := by
  rw [EntriesFrom, h.lastLogIndex]
  refine List.ext_getElem? fun j => ?_
  rw [List.getElem?_map, List.getElem?_map, List.getElem?_drop]
  by_cases hj : j < s.logOffset + s.log.length + 1 - n
  · rw [List.getElem?_range' hj, Option.map_some, getEntry, if_neg (by omega),
      show n + 1 * j - s.logOffset - 1 = n - 1 - s.logOffset + j by omega,
      List.getElem?_eq_getElem (by omega)]
    rfl
  · rw [List.getElem?_eq_none (by omega), List.getElem?_eq_none (by rw [List.length_range']; omega)]
    rfl

theorem Aligned.getEntry_isSome (h : s.Aligned) {i : ℕ} (hlow : s.logOffset < i)
    (hhigh : i ≤ s.lastLogIndex) : ∃ e, s.getEntry i = some e := by
  rw [h.lastLogIndex] at hhigh
  rw [getEntry, if_neg (by omega)]
  exact ⟨_, List.getElem?_eq_getElem (by omega)⟩

theorem Aligned.historyTerm_prev (h : s.Aligned) (hsnap : s.SnapshotAtOffset) {peer next : ℕ}
    (hnext : s.nextIndex.lookup peer = some next) (hlow : s.logOffset < next)
    (hhigh : next ≤ s.lastLogIndex + 1) :
    s.historyTerm (next - 1) = some (s.prevLogTerm s.replicationEntries (next - 1)) := by
  rw [historyTerm, prevLogTerm]
  split_ifs with hzero hoff
  · rfl
  · obtain ⟨snapshot, hsome, -⟩ := hsnap (by omega)
    rw [hsome]
    rfl
  · obtain ⟨e, he⟩ := h.getEntry_isSome (i := next - 1) (by omega) (by omega)
    rw [h.find?_replicationEntries hnext (by omega), he]
    rfl

variable (lib : WireLib) (myId : ℕ)

theorem replicationMessage_of_behind (hsnap : s.SnapshotAtOffset) {peer next : ℕ}
    (hnext : s.nextIndex.lookup peer = some next) (hpos : 1 ≤ next) (hlow : next ≤ s.logOffset) :
    ∃ snapshot, s.snapshot = some snapshot ∧ snapshot.lastIncludedIndex = s.logOffset ∧
      s.replicationMessage lib myId peer =
        some (.installSnapshot (snapshot.toRequest lib s.currentTerm myId)) := by
  obtain ⟨snapshot, hsome, hindex⟩ := hsnap (by omega)
  refine ⟨snapshot, hsome, hindex, ?_⟩
  simp only [replicationMessage, hnext, Option.getD_some, if_pos hlow, hsome]

theorem replicationMessage_of_above {peer next : ℕ}
    (hnext : s.nextIndex.lookup peer = some next) (hlow : s.logOffset < next) :
    s.replicationMessage lib myId peer =
      if (s.appendRequest lib myId next).entries = [] ∧
          s.commitIndex ≤ (s.matchIndex.lookup peer).getD 0 then none
      else some (.appendEntries .replication (s.appendRequest lib myId next)) := by
  simp only [replicationMessage, hnext, Option.getD_some, if_neg (not_le.mpr hlow)]

end RaftState

namespace RaftNode

/-- Among the messages to different peers, those to `p` are the ones built for `p`. -/
theorem filter_sent {peers : List ℕ} (hpeers : peers.Nodup) (f : ℕ → Option Message) {p : ℕ}
    (hp : p ∈ peers) :
    (peers.filterMap fun q => (f q).map fun msg => (q, msg)).filter (fun m => m.1 = p) =
      ((f p).map fun msg => (p, msg)).toList := by
  induction peers with
  | nil => cases hp
  | cons q peers ih =>
    obtain ⟨hq, hrest⟩ := List.nodup_cons.mp hpeers
    have hnone : p ∉ peers → (peers.filterMap fun q => (f q).map fun msg => (q, msg)).filter
        (fun m => m.1 = p) = [] := by
      intro hnot
      refine List.filter_eq_nil_iff.mpr fun m hm => ?_
      obtain ⟨q', hq', hmsg⟩ := List.mem_filterMap.mp hm
      obtain ⟨msg, -, rfl⟩ := Option.map_eq_some_iff.mp hmsg
      exact fun heq => hnot (of_decide_eq_true heq ▸ hq')
    by_cases hqp : q = p
    · subst hqp
      cases hf : f q with
      | none =>
        rw [List.filterMap_cons_none (by rw [hf]; rfl), hnone hq]
        rfl
      | some msg =>
        rw [List.filterMap_cons_some (by rw [hf]; rfl),
          List.filter_cons_of_pos (by exact decide_eq_true rfl), hnone hq]
        rfl
    · have hmem : p ∈ peers := (List.mem_cons.mp hp).resolve_left (Ne.symm hqp)
      cases hf : f q with
      | none => rw [List.filterMap_cons_none (by rw [hf]; rfl), ih hrest hmem]
      | some msg =>
        rw [List.filterMap_cons_some (by rw [hf]; rfl),
          List.filter_cons_of_neg (by simpa using hqp), ih hrest hmem]

/-- Every peer is sent the snapshot or its own part of the log, and nothing only when that part
is empty and the peer is known to have what is committed. -/
theorem each_peer_gets_its_request (lib : WireLib) {nd : RaftNode}
    (hleader : nd.state.role = .leader) (haligned : nd.state.Aligned)
    (hsnap : nd.state.SnapshotAtOffset) (hpeers : nd.peers.Nodup)
    (hnext : ∀ p ∈ nd.peers, ∃ next, nd.state.nextIndex.lookup p = some next ∧ 1 ≤ next ∧
      next ≤ nd.state.lastLogIndex + 1) :
    ∃ effect, nd.replicateToPeers lib = some effect ∧
      ∀ p ∈ nd.peers, ∀ next, nd.state.nextIndex.lookup p = some next →
        (next ≤ nd.state.logOffset → ∃ snapshot, nd.state.snapshot = some snapshot ∧
          snapshot.lastIncludedIndex = nd.state.logOffset ∧
          effect.sent.filter (fun m => m.1 = p) =
            [(p, .installSnapshot (snapshot.toRequest lib nd.state.currentTerm nd.id))]) ∧
        (nd.state.logOffset < next → ∃ prevLogTerm entries,
          nd.state.historyTerm (next - 1) = some prevLogTerm ∧
          nd.state.EntriesFrom next entries ∧
          effect.sent.filter (fun m => m.1 = p) =
            if entries = [] ∧ nd.state.commitIndex ≤ (nd.state.matchIndex.lookup p).getD 0 then []
            else [(p, .appendEntries .replication ⟨nd.state.currentTerm, nd.id, next - 1,
              prevLogTerm, entries.map (logEntryToProto lib), nd.state.commitIndex⟩)]) := by
  refine ⟨_, if_pos hleader, fun p hp next hlookup => ?_⟩
  obtain ⟨next', hlookup', hpos, hhigh⟩ := hnext p hp
  obtain rfl : next = next' := Option.some.inj (hlookup.symm.trans hlookup')
  rw [filter_sent hpeers _ hp]
  refine ⟨fun hlow => ?_, fun hlow => ?_⟩
  · obtain ⟨snapshot, hsome, hindex, hmsg⟩ :=
      RaftState.replicationMessage_of_behind lib nd.id hsnap hlookup hpos hlow
    exact ⟨snapshot, hsome, hindex, by rw [hmsg]; rfl⟩
  · have hentries := haligned.filter_replicationEntries hlookup (by omega)
    have hreq : nd.state.appendRequest lib nd.id next = ⟨nd.state.currentTerm, nd.id, next - 1,
        nd.state.prevLogTerm nd.state.replicationEntries (next - 1),
        (nd.state.log.drop (next - 1 - nd.state.logOffset)).map (logEntryToProto lib),
        nd.state.commitIndex⟩ := by
      rw [RaftState.appendRequest, hentries]
    refine ⟨_, _, haligned.historyTerm_prev hsnap hlookup hlow hhigh,
      haligned.entriesFrom_drop hlow, ?_⟩
    rw [RaftState.replicationMessage_of_above lib nd.id hlookup hlow, hreq]
    simp only [List.map_eq_nil_iff]
    split_ifs <;> rfl

def leaderOfUnevenPeers : RaftNode :=
  { RaftNode.new 1 [2, 3] with
    state := { RaftState.new with
      currentTerm := 2
      role := .leader
      log := [⟨1, 2, .noop⟩, ⟨2, 3, .noop⟩]
      logOffset := 1
      snapshot := some ⟨1, 1, [], []⟩
      nextIndex := ((∅ : IndexMap).insert 2 1).insert 3 3 } }

theorem uneven_peers_get_their_requests :
    ∃ effect, leaderOfUnevenPeers.replicateToPeers .standard = some effect ∧
      effect.sent.filter (fun m => m.1 = 2) =
        [(2, .installSnapshot ⟨2, 1, 1, 1, [], []⟩)] ∧
      effect.sent.filter (fun m => m.1 = 3) =
        [(3, .appendEntries .replication ⟨2, 1, 2, 1, [⟨2, 3, none⟩], 0⟩)] := by
  obtain ⟨effect, heffect, hsent⟩ := @each_peer_gets_its_request .standard
    leaderOfUnevenPeers (by decide) (by decide) (fun _ => ⟨⟨1, 1, [], []⟩, rfl, rfl⟩)
    (by decide) (by decide)
  refine ⟨effect, heffect, ?_, ?_⟩
  · obtain ⟨snapshot, hsome, -, hmsg⟩ := (hsent 2 (by decide) 1 (by decide)).1 (by decide)
    obtain rfl := Option.some.inj hsome
    exact hmsg
  · obtain ⟨term, entries, hterm, hentries, hmsg⟩ :=
      (hsent 3 (by decide) 3 (by decide)).2 (by decide)
    obtain rfl : entries = [⟨2, 3, .noop⟩] :=
      List.map_injective_iff.mpr (Option.some_injective _) (hentries.trans (by decide))
    obtain rfl : term = 1 := Option.some.inj (hterm.symm.trans (by decide))
    exact hmsg

end RaftNode
end NomadLite
