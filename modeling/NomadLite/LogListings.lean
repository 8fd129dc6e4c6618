import NomadLite.LeaderQueries
import NomadLite.RepeatedRequests
import NomadLite.StoredCluster

/-!
# Log listings

`get_raft_log_entries` shows a part of the log of the answering node and marks the
entries up to its commit index as committed. Listings are taken from any node at any
time, and a node may have lost its leadership when it answers. An entry that is marked
in one of them was covered at that moment and stays so, which an applied entry is as
well: the listings are followed with a history in which the marked entries count as
applied.
-/

namespace NomadLite

open ReplicatedLog

structure LogObserver where
  stored : StoredCluster
  listings : List GetRaftLogEntriesResponse

inductive ObserverAction where
  | act (sa : StoredAction)
  | list (x : ℕ) (req : GetRaftLogEntriesRequest)

namespace LogObserver

def start (ids : List ℕ) : LogObserver := ⟨.start ids, []⟩

def step (lib : WireLib) (ids : List ℕ) (ob : LogObserver) : ObserverAction → Option LogObserver
  | .act sa => (ob.stored.step lib ids sa).map fun sc => { ob with stored := sc }
  | .list x req =>
    if x ∈ ids then
      some { ob with
        listings := ob.listings ++
          [(ob.stored.cluster.nodes x).state.raftLogEntries lib req] }
    else none

def KeepsReplayed (lib : WireLib) (ids : List ℕ) (ob : LogObserver) : ObserverAction → Prop
  | .act sa => sa.Whole (Cluster.KeepsReplayed lib ids) ob.stored
  | .list .. => True

instance (lib : WireLib) (ids : List ℕ) (ob : LogObserver) :
    (a : ObserverAction) → Decidable (ob.KeepsReplayed lib ids a)
  | .act sa => inferInstanceAs (Decidable (sa.Whole (Cluster.KeepsReplayed lib ids) ob.stored))
  | .list .. => isTrue trivial

end LogObserver

/-! ### Entries that are shown as committed -/

def RaftLogEntryInfo.ShownIn (lib : WireLib) (history : List (ℕ × Note))
    (info : RaftLogEntryInfo) : Prop :=
  ∃ x entries, (x, .applied entries) ∈ history ∧ ∃ e ∈ entries,
    info.index = e.index ∧ info.term = e.term ∧ info.command = (logEntryToProto lib e).command

theorem RaftState.exists_entry_of_listed {lib : WireLib} {s : RaftState}
    {req : GetRaftLogEntriesRequest} {info : RaftLogEntryInfo}
    (h : info ∈ (s.raftLogEntries lib req).entries) (hcommitted : info.isCommitted = true) :
    ∃ e ∈ s.log, e.index ≤ s.commitIndex ∧ info.index = e.index ∧ info.term = e.term ∧
      info.command = (logEntryToProto lib e).command := by
  obtain ⟨e, he, rfl⟩ := List.mem_map.mp h
  exact ⟨e, s.getEntriesFrom_subset _ (List.mem_of_mem_take he), of_decide_eq_true hcommitted,
    rfl, rfl, rfl⟩

theorem protoToCommand_logEntryToProto (lib : WireLib) (e : LogEntry) :
    protoToCommand lib (logEntryToProto lib e).command = some (e.onWire lib).command := by
  obtain ⟨command, hcommand, heq⟩ :=
    Option.map_eq_some_iff.mp (protoToLogEntry_logEntryToProto lib e)
  rw [hcommand, ← heq]

namespace Cluster

variable {lib : WireLib} {ids : List ℕ} {cl cl' : Cluster} {x : ℕ}

def withHistory (cl : Cluster) (history : List (ℕ × Note)) : Cluster :=
  { cl with history := history }

def recording (cl : Cluster) (x : ℕ) (entries : List LogEntry) : Cluster :=
  cl.withHistory (cl.history ++ [(x, .applied entries)])

theorem Linked.recording {nodeOk : ℕ → RaftNode → Prop} {packetOk : Packet → Prop}
    {noteOk : ℕ → Note → Prop} (h : Linked ids nodeOk packetOk noteOk cl)
    {entries : List LogEntry} (hnote : noteOk x (.applied entries)) :
    Linked ids nodeOk packetOk noteOk (cl.recording x entries) where
  node := h.node
  packet := h.packet
  note y n hn := by
    rcases List.mem_append.mp hn with hold | hnew
    · exact h.note y n hold
    · obtain ⟨rfl, rfl⟩ := Prod.mk.inj (List.mem_singleton.mp hnew)
      exact hnote

theorem HasLogs.recording {strict : Prop} {g : LogView} (h : HasLogs lib strict ids g cl)
    (x : ℕ) (entries : List LogEntry) : HasLogs lib strict ids g (cl.recording x entries) where
  sound := h.sound
  linked := h.linked.recording trivial
  won T y hy := by
    obtain ⟨s, hs, hterm⟩ := h.won T y hy
    exact ⟨s, List.mem_append_left _ hs, hterm⟩

/-- Whatever a node counts as committed is covered like an applied entry. -/
theorem HasCommits.recording (h : cl.HasCommits lib ids) (hx : x ∈ ids) {entries : List LogEntry}
    (hentries : ∀ e ∈ entries, e ∈ (cl.nodes x).state.log ∧
      e.index ≤ (cl.nodes x).state.commitIndex) : (cl.recording x entries).HasCommits lib ids := by
  obtain ⟨g, hg, hlinked⟩ := h
  refine ⟨g, hg.recording x entries, hlinked.recording fun e he => ?_⟩
  have hholds := (hg.linked.node x hx).holds
  obtain ⟨hmem, hle⟩ := hentries e he
  obtain ⟨hoff, -, hget⟩ := hholds.aligned.getEntry_of_mem hmem
  refine ⟨_, _, (hlinked.node x hx).covered, ?_⟩
  rw [List.getElem?_take_of_lt (by omega), ← hholds.getEntry hoff, hget, Option.map_some]

structure Records (lib : WireLib) (ids : List ℕ) (cl : Cluster) (history : List (ℕ × Note))
    (listings : List GetRaftLogEntriesResponse) : Prop where
  ballots : HasBallots ids (cl.withHistory history)
  uncompacted : (cl.withHistory history).Uncompacted ids
  commits : (cl.withHistory history).HasCommits lib ids
  shown : ∀ resp ∈ listings, ∀ info ∈ resp.entries, info.isCommitted = true →
    info.ShownIn lib history

variable {history : List (ℕ × Note)} {listings : List GetRaftLogEntriesResponse}

theorem Records.shown_append (h : cl.Records lib ids history listings)
    (later : List (ℕ × Note)) : ∀ resp ∈ listings, ∀ info ∈ resp.entries,
    info.isCommitted = true → info.ShownIn lib (history ++ later) := by
  intro resp hresp info hinfo hcommitted
  obtain ⟨x, entries, hmem, hentry⟩ := h.shown resp hresp info hinfo hcommitted
  exact ⟨x, entries, List.mem_append_left _ hmem, hentry⟩

theorem Records.step (h : cl.Records lib ids history listings) (hids : ids.Nodup) {a : Action}
    (hq : cl.KeepsReplayed lib ids a) (hs : cl.step lib ids a = some cl') :
    ∃ later, cl'.Records lib ids (history ++ later) listings := by
  obtain ⟨eff, hx, hpacket, hstep, rfl⟩ := step_eq_some hs
  obtain ⟨hcompact, hballots, hreported, hagreed⟩ := hq
  have hs' : (cl.withHistory history).step lib ids a =
      some ((cl.withHistory history).apply a.node eff) := by
    rw [Cluster.step, if_pos ⟨hx, fun p hp => hpacket p (Option.mem_toList.mp hp)⟩]
    exact congrArg (Option.map _) hstep
  have hb' := h.ballots.step hids hballots hs'
  have hev := h.uncompacted.appendOnly hcompact hs'
  exact ⟨_, hb', h.uncompacted.step hev hs', h.commits.step hids hb'.oneLeaderPerTerm
    h.uncompacted hev (h.uncompacted.keepsOffset hx hev)
    ⟨hballots.keepsTerm, hreported, hagreed⟩ hs', h.shown_append _⟩

theorem Records.aligned (h : cl.Records lib ids history listings) :
    StoredCluster.Aligned ids cl := fun x hx => by
  obtain ⟨g, hg, -⟩ := h.commits
  exact (hg.linked.node x hx).holds.aligned

theorem Records.restart (h : cl.Records lib ids history listings) (hx : x ∈ ids) :
    ∃ later, (cl.restart x).Records lib ids (history ++ later) listings :=
  ⟨_, h.ballots.restart hx, h.uncompacted.restart hx, h.commits.restart h.uncompacted hx,
    h.shown_append _⟩

theorem Records.list (h : cl.Records lib ids history listings) (hx : x ∈ ids)
    (req : GetRaftLogEntriesRequest) :
    ∃ later, cl.Records lib ids (history ++ later)
      (listings ++ [(cl.nodes x).state.raftLogEntries lib req]) := by
  obtain ⟨entries, hentries⟩ : ∃ entries : List LogEntry, entries = (cl.nodes x).state.log.filter
      fun e => e.index ≤ (cl.nodes x).state.commitIndex := ⟨_, rfl⟩
  have hmem : ∀ e, e ∈ entries ↔
      e ∈ (cl.nodes x).state.log ∧ e.index ≤ (cl.nodes x).state.commitIndex := by
    intro e
    rw [hentries, List.mem_filter, decide_eq_true_eq]
  obtain ⟨b, hb, hlinked⟩ := h.ballots
  refine ⟨[(x, .applied entries)], ⟨b, hb, hlinked.recording trivial⟩,
    Linked.recording h.uncompacted trivial, h.commits.recording hx fun e he => (hmem e).mp he, ?_⟩
  intro resp hresp info hinfo hcommitted
  rcases List.mem_append.mp hresp with hold | hnew
  · exact h.shown_append _ resp hold info hinfo hcommitted
  · rw [List.mem_singleton.mp hnew] at hinfo
    obtain ⟨e, he, hle, hshown⟩ := RaftState.exists_entry_of_listed hinfo hcommitted
    exact ⟨x, entries, List.mem_append_right _ (List.mem_singleton_self _), e,
      (hmem e).mpr ⟨he, hle⟩, hshown⟩

end Cluster

namespace LogObserver

variable {lib : WireLib} {ids : List ℕ} {ob ob' : LogObserver}

def Recorded (lib : WireLib) (ids : List ℕ) (ob : LogObserver) : Prop :=
  (∃ history, ob.stored.cluster.Records lib ids history ob.listings) ∧ ob.stored.Stored ids

theorem recorded_start (lib : WireLib) (ids : List ℕ) : (start ids).Recorded lib ids := by
  refine ⟨⟨[], ?_, ?_, ?_, ?_⟩, StoredCluster.stored_start ids⟩
  · exact Cluster.hasBallots_start ids
  · exact Cluster.linked_start fun _ _ => ⟨rfl, rfl⟩
  · exact ⟨_, Cluster.hasLogs_start lib True ids,
      Cluster.linked_start fun _ _ => ⟨Nat.zero_le _, .inl rfl⟩⟩
  · exact fun _ hresp => absurd hresp List.not_mem_nil

theorem Recorded.step (h : ob.Recorded lib ids) (hids : ids.Nodup) {oa : ObserverAction}
    (hq : ob.KeepsReplayed lib ids oa) (hs : ob.step lib ids oa = some ob') :
    ob'.Recorded lib ids := by
  obtain ⟨⟨history, hrecords⟩, hstored⟩ := h
  cases oa with
  | act sa =>
    obtain ⟨sc, hsc, rfl⟩ := Option.map_eq_some_iff.mp hs
    cases sa with
    | act a =>
      obtain ⟨cl, hcl, heq⟩ := StoredCluster.eq_of_act hsc
      obtain ⟨later, hlater⟩ := hrecords.step hids hq.1 hcl
      have hcluster : sc.cluster = cl := by rw [heq]
      subst hcluster
      exact ⟨⟨_, hlater⟩, hstored.act hsc hrecords.aligned hlater.aligned⟩
    | restart x =>
      obtain ⟨hx, rfl⟩ := StoredCluster.eq_of_restart hsc
      obtain ⟨later, hlater⟩ := hrecords.restart hx
      rw [← hstored.cluster_revive hx] at hlater
      exact ⟨⟨_, hlater⟩, hstored.revive hx⟩
    | beginAppend | finishAppend | stop => exact hq.elim
  | list x req =>
    rw [LogObserver.step] at hs
    split_ifs at hs with hx
    obtain rfl := Option.some.inj hs
    obtain ⟨later, hlater⟩ := hrecords.list hx req
    exact ⟨⟨_, hlater⟩, hstored⟩

def earlierListing : GetRaftLogEntriesResponse := ⟨[⟨1, 1, none, true⟩], 1, 1, 1⟩

def laterListing : GetRaftLogEntriesResponse :=
  ⟨[⟨1, 1, none, true⟩, ⟨2, 2, some ⟨some (.registerWorker 2)⟩, true⟩], 2, 2, 1⟩

def listedTwice : List ObserverAction :=
  (Cluster.committedByTwo.map StoredAction.act).map .act ++
    [.list 1 ⟨0, 0⟩, .act (.restart 1)] ++ (Cluster.replayed.map StoredAction.act).map .act ++
    [.list 2 ⟨0, 0⟩]

end LogObserver
end NomadLite
