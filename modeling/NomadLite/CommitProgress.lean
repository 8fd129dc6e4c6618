import NomadLite.CatchUp
import NomadLite.CommitMajority
import NomadLite.ElectionProgress
import NomadLite.StoredCluster

/-!
# A majority can always commit

The leader that a majority has elected appends a command and brings the other members up to
its log, one after the other. Every request it sends ends with the new entry, so a member that
accepts one reports the whole log; a member that refuses is sent a longer piece, and the piece
from index 1 on is never refused. The last of these replies commits the entry, and heartbeats
carry the commit index to the members. A node on its own gets no replies and commits nothing.
-/

namespace NomadLite

theorem handleAppendEntries_reply (lib : WireLib) (s : RaftState) (req : AppendEntriesRequest) :
    (handleAppendEntries lib s req).2 = (handleAppendEntries lib s req).1.appendReply
      (handleAppendEntries lib s req).2.success := by
  rcases lt_or_ge req.term s.currentTerm with hstale | hcurrent
  · rw [handleAppendEntries_stale hstale]
    rfl
  · rw [handleAppendEntries_current hcurrent]
    cases s.checkPrevLog req.prevLogIndex req.prevLogTerm <;> rfl

theorem success_of_first {lib : WireLib} {s : RaftState} {req : AppendEntriesRequest}
    (hterm : s.currentTerm ≤ req.term) (hfirst : req.prevLogIndex = 0) :
    (handleAppendEntries lib s req).2.success = true := by
  have hcheck : s.checkPrevLog req.prevLogIndex req.prevLogTerm = .accept := by
    rw [hfirst]
    exact if_neg (lt_irrefl 0)
  rw [handleAppendEntries_current hterm, hcheck]
  rfl

/-- A member without compacted entries refuses a request, which then does not start at the first
index, or it ends with the last entry of the request and reports its index. -/
theorem append_outcome {lib : WireLib} {s : RaftState} {req : AppendEntriesRequest}
    (hoff : s.logOffset = 0) (hterm : s.currentTerm ≤ req.term) (hwf : req.WellFormed lib)
    (hne : req.entries ≠ []) :
    (handleAppendEntries lib s req).2.term = req.term ∧
      (((handleAppendEntries lib s req).2.success = false ∧ 1 ≤ req.prevLogIndex) ∨
        ((handleAppendEntries lib s req).2.success = true ∧
          (handleAppendEntries lib s req).2.matchIndex =
            req.prevLogIndex + req.entries.length ∧
          (handleAppendEntries lib s req).1.log.getLast? =
            (decodeEntries lib req.entries).getLast?)) := by
  obtain ⟨hcurrent, -, hoff', -⟩ := handleAppendEntries_follower lib hterm
  have hreply := handleAppendEntries_reply lib s req
  refine ⟨(congrArg (·.term) hreply).trans hcurrent, ?_⟩
  cases hsuccess : (handleAppendEntries lib s req).2.success with
  | false =>
    refine .inl ⟨rfl, Nat.one_le_iff_ne_zero.mpr fun hfirst => ?_⟩
    rw [success_of_first hterm hfirst] at hsuccess
    cases hsuccess
  | true =>
    have hlog := log_of_success hsuccess
    rw [if_neg hne, if_neg (by omega)] at hlog
    have hlast : (handleAppendEntries lib s req).1.log.getLast? =
        (decodeEntries lib req.entries).getLast? := by
      rw [hlog, List.getLast?_append_of_ne_nil _ (hwf.decodeEntries_ne_nil hne)]
    refine .inr ⟨rfl, ?_, hlast⟩
    have hindex : (handleAppendEntries lib s req).2.matchIndex =
        (handleAppendEntries lib s req).1.lastLogIndex := congrArg (·.matchIndex) hreply
    rw [hindex, RaftState.lastLogIndex, hlast, ← hwf.length_decodeEntries]
    obtain ⟨e, he⟩ := Option.ne_none_iff_exists'.mp
      (mt List.getLast?_eq_none_iff.mp (hwf.decodeEntries_ne_nil hne))
    have hend := hwf.indexedFrom.getLast?
    rw [he] at hend ⊢
    exact hend

namespace RaftNode

variable {nd : RaftNode} {peer : ℕ} {resp : AppendEntriesResponse}

theorem idle_handleAppendReply (hidle : nd.Idle) : (nd.handleAppendReply peer resp).node.Idle := by
  unfold handleAppendReply
  split_ifs
  · exact hidle
  · dsimp only
    split_ifs <;> exact hidle
  · exact hidle
  · exact hidle

/-- A success of the leader's own term is recorded, and the commit index follows the majority. -/
theorem handleAppendReply_of_success (peer : ℕ) (hleader : nd.state.role = .leader)
    (hterm : resp.term = nd.state.currentTerm) (hsuccess : resp.success = true) :
    ∃ commitIndex, (nd.handleAppendReply peer resp).node.state =
        { nd.state.recordMatch peer resp.matchIndex with commitIndex := commitIndex } ∧
      ((nd.state.recordMatch peer resp.matchIndex).mayCommit
        (nd.state.recordMatch peer resp.matchIndex).majorityIndex →
        commitIndex = (nd.state.recordMatch peer resp.matchIndex).majorityIndex) ∧
      (commitIndex = nd.state.commitIndex ∨
        (nd.state.recordMatch peer resp.matchIndex).mayCommit commitIndex) := by
  rw [handleAppendReply, if_neg (by omega), if_pos ⟨hleader, hsuccess⟩]
  dsimp only
  split_ifs with hmay
  · exact ⟨_, rfl, fun _ => rfl, .inr hmay⟩
  · exact ⟨_, rfl, fun h => absurd h hmay, .inl rfl⟩

end RaftNode

namespace Cluster

variable {lib : WireLib} {ids : List ℕ} {quorum : Finset ℕ} {cl cl' cl'' : Cluster} {x p T : ℕ}
  {L : List LogEntry} {waiting : List ℕ}

section Exchange

variable (hq : IsMajority ids quorum)
include hq

theorem exists_exchange {req : AppendEntriesRequest} (hplain : cl.Plain lib ids) (hx : x ∈ quorum)
    (hp : p ∈ quorum) (hne : p ≠ x) (hleader : (cl.nodes x).state.role = .leader)
    (hidle : (cl.nodes x).Idle)
    (hsend : (cl.nodes x).state.replicationMessage lib x p =
      some (.appendEntries .replication req)) :
    ∃ cl', Runs.Reach (step lib ids) (Among quorum) cl cl' ∧
      (∀ q, q ≠ x → q ≠ p → cl'.nodes q = cl.nodes q) ∧
      (cl'.nodes p).state = (handleAppendEntries lib (cl.nodes p).state req).1 ∧
      cl'.nodes x = ((cl.nodes x).handleAppendReply p
        (handleAppendEntries lib (cl.nodes p).state req).2).node := by
  obtain ⟨hid, hpeers, -, -⟩ := hplain.linked.node x (hq.member x hx)
  have hstep : (cl.nodes x).step lib .replicateTick = some ⟨cl.nodes x,
      (cl.nodes x).peers.filterMap fun q =>
        ((cl.nodes x).state.replicationMessage lib x q).map fun msg => (q, msg), []⟩ := by
    simp only [RaftNode.step, RaftNode.replicateToPeers, if_pos hleader, hid]
  obtain ⟨cl₁, hreach₁, hnodes, -, hsent⟩ := exists_sent hq .replicateTick hx rfl hidle hstep
  have hpacket := hsent p (.appendEntries .replication req) (List.mem_filterMap.mpr
    ⟨p, hpeers ▸ mem_peersOf.mpr ⟨hq.member p hp, hne⟩, by rw [hsend]; rfl⟩)
  obtain ⟨cl₂, hreach₂, hchanges, hnode, hreply⟩ := exists_heard hq hx hp hpacket
  rw [hnodes] at hnode hreply
  have hx₂ : cl₂.nodes x = cl.nodes x := by rw [hchanges.others x hne.symm, hnodes]
  have hreach₃ := reach_apply hq (.deliver 0 p (.appendReply .replication req
    (handleAppendEntries lib (cl.nodes p).state req).2)) hx (fun q hmem => by
      obtain rfl := Option.some.inj hmem
      exact ⟨hreply, hp⟩) trivial (show (cl₂.nodes x).step lib _ =
        some ((cl₂.nodes x).handleAppendReply p _) from rfl)
  refine ⟨_, (hreach₁.trans hreach₂).trans hreach₃, fun q hqx hqp => ?_, ?_, ?_⟩
  · rw [(changes_apply ..).others q hqx, hchanges.others q hqp, hnodes]
  · rw [(changes_apply ..).others p hne, hnode, RaftNode.handleAppendEntries_state]
  · rw [apply_nodes, hx₂]

end Exchange

theorem Plain.getEntry_last (h : cl.Plain lib ids) {p n : ℕ} (hp : p ∈ ids) (hpos : 0 < n)
    (hlast : (cl.nodes p).state.lastLogIndex = n) :
    (cl.nodes p).state.getEntry n = (cl.nodes p).state.log.getLast? := by
  have hlength := h.lastLogIndex_eq hp
  rw [RaftState.getEntry, h.uncompacted.offset hp, if_neg (by omega), List.getLast?_eq_getElem?]
  congr 1
  omega

theorem Plain.getEntry_eq (h : cl.Plain lib ids) (h' : cl'.Plain lib ids) (hlogs : SameLogs cl cl')
    {p : ℕ} (hp : p ∈ ids) (n : ℕ) :
    (cl'.nodes p).state.getEntry n = (cl.nodes p).state.getEntry n := by
  rw [RaftState.getEntry, RaftState.getEntry, hlogs p, h.uncompacted.offset hp,
    h'.uncompacted.offset hp]

theorem Plain.le_lastLogIndex (h : cl.Plain lib ids) {p n : ℕ} (hp : p ∈ ids) {e : LogEntry}
    (he : (cl.nodes p).state.getEntry n = some e) : n ≤ (cl.nodes p).state.lastLogIndex := by
  rw [RaftState.getEntry] at he
  split_ifs at he
  have hlt := (List.getElem?_eq_some_iff.mp he).1
  rw [h.uncompacted.offset hp] at hlt
  rw [h.lastLogIndex_eq hp]
  omega

/-- Leader `x` of term `T` has the log `L`, which ends with an entry of its own. The members that it
does not wait for any more hold that entry. -/
structure Serving (lib : WireLib) (ids : List ℕ) (quorum : Finset ℕ) (x T : ℕ) (L : List LogEntry)
    (waiting : List ℕ) (cl : Cluster) : Prop where
  leader : (cl.nodes x).state.role = .leader
  idle : (cl.nodes x).Idle
  term : (cl.nodes x).state.currentTerm = T
  log : (cl.nodes x).state.log = L
  own : L.getLast?.map LogEntry.term = some T
  terms : ∀ p ∈ quorum, (cl.nodes p).state.currentTerm ≤ T
  keys : ∀ p, p ∈ (cl.nodes x).state.matchIndex ↔ p ∈ peersOf ids x
  bound : ∀ p m, (cl.nodes x).state.matchIndex.lookup p = some m → m ≤ L.length
  next : ∀ p ∈ waiting, ∃ next, (cl.nodes x).state.nextIndex.lookup p = some next ∧ 1 ≤ next ∧
    next ≤ L.length
  held : ∀ p ∈ quorum, p ≠ x → p ∉ waiting →
    (cl.nodes x).state.matchIndex.lookup p = some L.length ∧
      (cl.nodes p).state.getEntry L.length = L.getLast?.map (LogEntry.onWire lib)

namespace Serving

theorem length_pos (h : Serving lib ids quorum x T L waiting cl) : 0 < L.length := by
  cases hL : L with
  | nil =>
    have hown := h.own
    rw [hL] at hown
    cases hown
  | cons e es => exact Nat.succ_pos _

variable (hq : IsMajority ids quorum) (hx : x ∈ quorum)
include hq hx

theorem request (hplain : cl.Plain lib ids) (h : Serving lib ids quorum x T L waiting cl)
    {next : ℕ} (hnext : (cl.nodes x).state.nextIndex.lookup p = some next) (hpos : 1 ≤ next)
    (hle : next ≤ L.length) :
    ∃ req, (cl.nodes x).state.replicationMessage lib x p =
        some (.appendEntries .replication req) ∧ req.term = T ∧ req.prevLogIndex = next - 1 ∧
      req.WellFormed lib ∧ req.entries ≠ [] ∧ req.prevLogIndex + req.entries.length = L.length ∧
      (decodeEntries lib req.entries).getLast? = L.getLast?.map (LogEntry.onWire lib) := by
  obtain ⟨-, -, hal, -⟩ := hplain.linked.node x (hq.member x hx)
  have hoff := hplain.uncompacted.offset (hq.member x hx)
  have hentries : ((cl.nodes x).state.appendRequest lib x next).entries =
      (L.drop (next - 1)).map (logEntryToProto lib) := by
    have hfilter := hal.filter_replicationEntries hnext (hoff ▸ Nat.zero_le _)
    rw [hoff, Nat.sub_zero, h.log] at hfilter
    exact congrArg (List.map (logEntryToProto lib)) hfilter
  have hlength : ((cl.nodes x).state.appendRequest lib x next).entries.length =
      L.length - (next - 1) := by
    rw [hentries, List.length_map, List.length_drop]
  have hne : ((cl.nodes x).state.appendRequest lib x next).entries ≠ [] :=
    List.ne_nil_of_length_pos (by omega)
  refine ⟨(cl.nodes x).state.appendRequest lib x next, ?_, h.term, rfl,
    hal.wellFormed_appendRequest hoff x hnext, hne, ?_, ?_⟩
  · rw [RaftState.replicationMessage_of_above lib x hnext (by omega), if_neg fun hc => hne hc.1]
  · rw [hlength]
    change next - 1 + _ = _
    omega
  · rw [hentries]
    change (((L.drop (next - 1)).map (logEntryToProto lib)).filterMap
      (protoToLogEntry lib)).getLast? = _
    rw [filterMap_protoToLogEntry, List.getLast?_map, List.getLast?_drop, if_neg (by omega)]

theorem accepted {resp : AppendEntriesResponse} (hplain' : cl'.Plain lib ids)
    (h : Serving lib ids quorum x T L (p :: waiting) cl) (hp : p ∈ quorum) (hne : p ≠ x)
    (hfresh : p ∉ waiting) (hothers : ∀ q, q ≠ x → q ≠ p → cl'.nodes q = cl.nodes q)
    (hnode : cl'.nodes x = ((cl.nodes x).handleAppendReply p resp).node)
    (hsuccess : resp.success = true) (hresp : resp.term = T) (hmatch : resp.matchIndex = L.length)
    (hterm : (cl'.nodes p).state.currentTerm = T)
    (hlast : (cl'.nodes p).state.lastLogIndex = L.length)
    (hentry : (cl'.nodes p).state.log.getLast? = L.getLast?.map (LogEntry.onWire lib)) :
    Serving lib ids quorum x T L waiting cl' ∧
      ((cl'.nodes x).state.majorityIndex = L.length →
        L.length ≤ (cl'.nodes x).state.commitIndex) := by
  obtain ⟨c, hstate, hcommit, hmoved⟩ := RaftNode.handleAppendReply_of_success p h.leader
    (hresp.trans h.term.symm) hsuccess
  have hle : (cl.nodes x).state.commitIndex ≤ c := hmoved.elim Eq.ge fun hmay => hmay.1.le
  rw [← hnode, hmatch] at hstate
  rw [hmatch] at hcommit
  have hlog' : (cl'.nodes x).state.log = L := by
    rw [hstate]
    exact h.log
  have hwaiting : ∀ q ∈ waiting, q ≠ p := fun q hmem heq => hfresh (heq ▸ hmem)
  refine ⟨⟨?_, ?_, ?_, hlog', h.own, fun q hmem => ?_, fun q => ?_, fun q m hm => ?_,
    fun q hmem => ?_, fun q hmem hqx hw => ?_⟩, fun hmajority => ?_⟩
  · rw [hstate]
    exact h.leader
  · rw [hnode]
    exact RaftNode.idle_handleAppendReply h.idle
  · rw [hstate]
    exact h.term
  · by_cases hqp : q = p
    · rw [hqp, hterm]
    · by_cases hqx : q = x
      · rw [hqx, hstate]
        exact h.term.le
      · rw [hothers q hqx hqp]
        exact h.terms q hmem
  · have hmem : p ∈ (cl.nodes x).state.matchIndex :=
      (h.keys p).mpr (mem_peersOf.mpr ⟨hq.member p hp, hne⟩)
    rw [hstate]
    exact (RaftState.mem_recordMatch hmem).trans (h.keys q)
  · rw [hstate] at hm
    change ((cl.nodes x).state.matchIndex.insert p L.length).lookup q = some m at hm
    by_cases hqp : q = p
    · rw [hqp, Finmap.lookup_insert] at hm
      exact (Option.some.inj hm).ge
    · rw [Finmap.lookup_insert_of_ne _ hqp] at hm
      exact h.bound q m hm
  · rw [hstate]
    change ∃ next, ((cl.nodes x).state.nextIndex.insert p (L.length + 1)).lookup q = some next ∧ _
    rw [Finmap.lookup_insert_of_ne _ (hwaiting q hmem)]
    exact h.next q (List.mem_cons_of_mem _ hmem)
  · rw [hstate]
    change ((cl.nodes x).state.matchIndex.insert p L.length).lookup q = _ ∧ _
    by_cases hqp : q = p
    · rw [hqp, Finmap.lookup_insert, ← hentry]
      exact ⟨rfl, hplain'.getEntry_last (hq.member p hp) (h.length_pos) hlast⟩
    · rw [Finmap.lookup_insert_of_ne _ hqp, hothers q hqx hqp]
      exact h.held q hmem hqx fun hc => (List.mem_cons.mp hc).elim hqp hw
  · rw [hstate] at hmajority ⊢
    change ((cl.nodes x).state.recordMatch p L.length).majorityIndex = L.length at hmajority
    change L.length ≤ c
    rcases lt_or_ge (cl.nodes x).state.commitIndex L.length with hlt | hge
    · have hget : (cl'.nodes x).state.getEntry L.length = L.getLast? := by
        rw [hplain'.getEntry_last (hq.member x hx) h.length_pos, hlog']
        rw [hplain'.lastLogIndex_eq (hq.member x hx), hlog']
      have hmay : ((cl.nodes x).state.recordMatch p L.length).mayCommit L.length := by
        refine ⟨hlt, ?_⟩
        rw [hstate] at hget
        change ((cl.nodes x).state.recordMatch p L.length).getEntry L.length = _ at hget
        rw [hget, h.own]
        exact congrArg some h.term.symm
      rw [hcommit (hmajority.symm ▸ hmay), hmajority]
    · exact hge.trans hle

omit hq hx in
theorem refused {resp : AppendEntriesResponse} {next : ℕ}
    (h : Serving lib ids quorum x T L (p :: waiting) cl) (hne : p ≠ x) (hfresh : p ∉ waiting)
    (hothers : ∀ q, q ≠ x → q ≠ p → cl'.nodes q = cl.nodes q)
    (hnode : cl'.nodes x = ((cl.nodes x).handleAppendReply p resp).node)
    (hfail : resp.success = false) (hresp : resp.term = T)
    (hnext : (cl.nodes x).state.nextIndex.lookup p = some next) (hpos : 1 < next)
    (hle : next ≤ L.length) (hterm : (cl'.nodes p).state.currentTerm = T) :
    Serving lib ids quorum x T L (p :: waiting) cl' ∧
      (cl'.nodes x).state.nextIndex.lookup p = some (next - 1) := by
  have hstate := RaftNode.handleAppendReply_of_failure h.leader (hresp.trans h.term.symm) hfail
    hnext hpos
  rw [← hnode] at hstate
  have hlookup : (cl'.nodes x).state.nextIndex.lookup p = some (next - 1) := by
    rw [hstate]
    exact Finmap.lookup_insert _
  refine ⟨⟨?_, ?_, ?_, ?_, h.own, fun q hmem => ?_, fun q => ?_, fun q m hm => ?_,
    fun q hmem => ?_, fun q hmem hqx hw => ?_⟩, hlookup⟩
  · rw [hstate]
    exact h.leader
  · rw [hnode]
    exact RaftNode.idle_handleAppendReply h.idle
  · rw [hstate]
    exact h.term
  · rw [hstate]
    exact h.log
  · by_cases hqp : q = p
    · rw [hqp, hterm]
    · by_cases hqx : q = x
      · rw [hqx, hstate]
        exact h.term.le
      · rw [hothers q hqx hqp]
        exact h.terms q hmem
  · rw [hstate]
    exact h.keys q
  · rw [hstate] at hm
    exact h.bound q m hm
  · rcases List.mem_cons.mp hmem with rfl | hold
    · exact ⟨next - 1, hlookup, by omega, by omega⟩
    · have hqp : q ≠ p := fun heq => hfresh (heq ▸ hold)
      rw [hstate]
      change ∃ n, ((cl.nodes x).state.nextIndex.insert p (next - 1)).lookup q = some n ∧ _
      rw [Finmap.lookup_insert_of_ne _ hqp]
      exact h.next q hmem
  · have hqp : q ≠ p := fun heq => hw (heq ▸ List.mem_cons_self ..)
    rw [hothers q hqx hqp, hstate]
    exact h.held q hmem hqx hw

theorem round (hplain : cl.Plain lib ids) (h : Serving lib ids quorum x T L (p :: waiting) cl)
    (hp : p ∈ quorum) (hne : p ≠ x) (hfresh : p ∉ waiting) {next : ℕ}
    (hnext : (cl.nodes x).state.nextIndex.lookup p = some next) (hpos : 1 ≤ next)
    (hle : next ≤ L.length) :
    ∃ cl', Runs.Reach (step lib ids) (Among quorum) cl cl' ∧
      ((Serving lib ids quorum x T L waiting cl' ∧
          ((cl'.nodes x).state.majorityIndex = L.length →
            L.length ≤ (cl'.nodes x).state.commitIndex)) ∨
        (1 < next ∧ Serving lib ids quorum x T L (p :: waiting) cl' ∧
          (cl'.nodes x).state.nextIndex.lookup p = some (next - 1))) := by
  obtain ⟨req, hsend, hreq, hprev, hwf, hentries, hlength, hend⟩ :=
    h.request hq hx hplain hnext hpos hle
  obtain ⟨cl', hreach, hothers, hstate, hnode⟩ :=
    exists_exchange hq hplain hx hp hne h.leader h.idle hsend
  have hcurrent : (cl.nodes p).state.currentTerm ≤ req.term := hreq.symm ▸ h.terms p hp
  obtain ⟨hterm', -⟩ := handleAppendEntries_follower lib hcurrent
  have hterm : (cl'.nodes p).state.currentTerm = T := by rw [hstate, hterm', hreq]
  obtain ⟨hresp, ⟨hfail, hprevpos⟩ | ⟨hsuccess, hmatch, hlast⟩⟩ :=
    append_outcome (hplain.uncompacted.offset (hq.member p hp)) hcurrent hwf hentries
  · have hgt : 1 < next := by omega
    exact ⟨cl', hreach, .inr ⟨hgt, h.refused hne hfresh hothers hnode hfail
      (hresp.trans hreq) hnext hgt hle hterm⟩⟩
  · have hindex : (cl'.nodes p).state.lastLogIndex = L.length := by
      have hreply := congrArg (·.matchIndex)
        (handleAppendEntries_reply lib (cl.nodes p).state req)
      rw [hstate, ← hlength, ← hmatch]
      exact hreply.symm
    have hplain' := hplain.reach Among.noCompaction hreach
    refine ⟨cl', hreach, .inl (h.accepted hq hx hplain' hp hne hfresh hothers hnode hsuccess
      (hresp.trans hreq) (hmatch.trans hlength) hterm hindex ?_)⟩
    rw [hstate, hlast, hend]

theorem catchUp (hplain : cl.Plain lib ids) (h : Serving lib ids quorum x T L (p :: waiting) cl)
    (hp : p ∈ quorum) (hne : p ≠ x) (hfresh : p ∉ waiting) :
    ∃ cl', Runs.Reach (step lib ids) (Among quorum) cl cl' ∧
      Serving lib ids quorum x T L waiting cl' ∧
      ((cl'.nodes x).state.majorityIndex = L.length →
        L.length ≤ (cl'.nodes x).state.commitIndex) := by
  obtain ⟨next, hnext, hpos, hle⟩ := h.next p (List.mem_cons_self ..)
  induction next using Nat.strong_induction_on generalizing cl with
  | _ next ih =>
    obtain ⟨cl₁, hreach₁, hdone | ⟨hgt, h₁, hnext₁⟩⟩ := h.round hq hx hplain hp hne hfresh hnext
      hpos hle
    · exact ⟨cl₁, hreach₁, hdone⟩
    · obtain ⟨cl₂, hreach₂, hdone⟩ := ih (next - 1) (by omega)
        (hplain.reach Among.noCompaction hreach₁) h₁ hnext₁ (by omega) (by omega)
      exact ⟨cl₂, hreach₁.trans hreach₂, hdone⟩

/-- All the members catch up, and the last reply is counted. -/
theorem catchUpAll (hplain : cl.Plain lib ids) (h : Serving lib ids quorum x T L waiting cl)
    (hnodup : waiting.Nodup) (hmembers : ∀ p ∈ waiting, p ∈ quorum ∧ p ≠ x)
    (hne : waiting ≠ []) :
    ∃ cl', Runs.Reach (step lib ids) (Among quorum) cl cl' ∧
      Serving lib ids quorum x T L [] cl' ∧
      ((cl'.nodes x).state.majorityIndex = L.length →
        L.length ≤ (cl'.nodes x).state.commitIndex) := by
  induction waiting generalizing cl with
  | nil => exact absurd rfl hne
  | cons p waiting ih =>
    obtain ⟨hp, hpx⟩ := hmembers p (List.mem_cons_self ..)
    obtain ⟨hfresh, hrest⟩ := List.nodup_cons.mp hnodup
    obtain ⟨cl₁, hreach₁, h₁, hcommit⟩ := h.catchUp hq hx hplain hp hpx hfresh
    by_cases hlast : waiting = []
    · subst hlast
      exact ⟨cl₁, hreach₁, h₁, hcommit⟩
    · obtain ⟨cl₂, hreach₂, hdone⟩ := ih (hplain.reach Among.noCompaction hreach₁) h₁ hrest
        (fun q hmem => hmembers q (List.mem_cons_of_mem _ hmem)) hlast
      exact ⟨cl₂, hreach₁.trans hreach₂, hdone⟩

/-- Once the whole quorum has the log, its end is the majority index. -/
theorem majorityIndex_eq (hplain : cl.Plain lib ids) (h : Serving lib ids quorum x T L [] cl) :
    (cl.nodes x).state.majorityIndex = L.length := by
  have hlast : (cl.nodes x).state.lastLogIndex = L.length := by
    rw [hplain.lastLogIndex_eq (hq.member x hx), h.log]
  refine le_antisymm ?_ ?_
  · exact (RaftState.majorityIndex_le fun p m hm => (h.bound p m hm).trans hlast.ge).trans hlast.le
  · have hnodup : (peersOf ids x).Nodup := hq.nodup.filter _
    refine RaftState.le_majorityIndex hnodup h.keys hlast.ge ?_
    have hcount : (peersOf ids x).countP (· ∈ quorum) ≤
        SortedCount.reached (cl.nodes x).state.matchIndex.sortedValues L.length := by
      rw [← SortedCount.reached_perm (IndexMap.perm_sortedValues hnodup h.keys),
        SortedCount.reached, List.countP_map]
      refine List.countP_mono_left fun p hp hmem => ?_
      have hheld := h.held p (of_decide_eq_true hmem) (mem_peersOf.mp hp).2 List.not_mem_nil
      rw [Function.comp_apply, hheld.1]
      exact decide_eq_true le_rfl
    have hcard := countP_peersOf hq hx
    have hlen := length_peersOf hq.nodup (hq.member x hx)
    have hhalf := hq.half_lt
    omega

end Serving

def followers (ids : List ℕ) (quorum : Finset ℕ) (x : ℕ) : List ℕ :=
  (peersOf ids x).filter (· ∈ quorum)

theorem mem_followers (hq : IsMajority ids quorum) :
    p ∈ followers ids quorum x ↔ p ∈ quorum ∧ p ≠ x := by
  rw [followers, List.mem_filter, mem_peersOf, decide_eq_true_eq]
  exact ⟨fun h => ⟨h.2, h.1.2⟩, fun h => ⟨⟨hq.member p h.1, h.2⟩, h.1⟩⟩

/-- The elected leader appends a command, and every other member has yet to take it over. -/
theorem exists_serving (hq : IsMajority ids quorum) (hx : x ∈ quorum)
    (hplain' : cl'.Plain lib ids) (h : Elected ids quorum x cl cl') (command : Command) :
    ∃ cl'', Runs.Reach (step lib ids) (Among quorum) cl' cl'' ∧
      Serving lib ids quorum x (cl'.nodes x).state.currentTerm
        ((cl.nodes x).state.log ++ [(cl'.nodes x).state.newEntry command])
        (followers ids quorum x) cl'' := by
  have hstep : (cl'.nodes x).step lib (.appendCommand command) =
      some ⟨(cl'.nodes x).withState ((cl'.nodes x).state.appendEntry command), [], []⟩ :=
    if_pos h.leader
  have hnode := apply_nodes x cl'
    ⟨(cl'.nodes x).withState ((cl'.nodes x).state.appendEntry command), [], []⟩
  have hlast : (cl'.nodes x).state.lastLogIndex = (cl.nodes x).state.log.length := by
    rw [hplain'.lastLogIndex_eq (hq.member x hx), h.logs x]
  have hlength : ((cl.nodes x).state.log ++ [(cl'.nodes x).state.newEntry command]).length =
      (cl.nodes x).state.log.length + 1 := List.length_append
  refine ⟨_, reach_apply hq (.appendCommand command) hx (fun p hp => by cases hp) h.idle hstep, ?_⟩
  refine ⟨?_, ?_, ?_, ?_, ?_, fun p hp => ?_, fun p => ?_, fun p m hm => ?_, fun p hp => ?_,
    fun p hp hpx hw => absurd ((mem_followers hq).mpr ⟨hp, hpx⟩) hw⟩
  · rw [hnode]
    exact h.leader
  · rw [hnode]
    exact h.idle
  · rw [hnode]
    rfl
  · rw [hnode, ← h.logs x]
    rfl
  · rw [List.getLast?_concat]
    rfl
  · by_cases hpx : p = x
    · rw [hpx, hnode]
      exact le_rfl
    · rw [(changes_apply ..).others p hpx]
      exact h.terms p hp
  · rw [hnode]
    change p ∈ (cl'.nodes x).state.matchIndex ↔ _
    rw [Finmap.mem_iff]
    constructor
    · rintro ⟨m, hm⟩
      by_contra hnot
      rw [h.matched, if_neg hnot] at hm
      cases hm
    · exact fun hp => ⟨0, (h.matched p).trans (if_pos hp)⟩
  · rw [hnode] at hm
    have hm' := (h.matched p).symm.trans hm
    split_ifs at hm' with hp
    obtain rfl := Option.some.inj hm'
    exact Nat.zero_le _
  · obtain ⟨hmem, hpx⟩ := (mem_followers hq).mp hp
    rw [hnode]
    refine ⟨_, h.next p (mem_peersOf.mpr ⟨hq.member p hmem, hpx⟩), by omega, ?_⟩
    rw [hlength, hlast]

section Informing

variable (hq : IsMajority ids quorum) (hx : x ∈ quorum)
include hq hx

/-- A heartbeat takes the leader's commit index to a member, as far as the member's log reaches. -/
theorem exists_informed (hplain : cl.Plain lib ids) (hp : p ∈ quorum) (hne : p ≠ x)
    (hleader : (cl.nodes x).state.role = .leader)
    (hterm : (cl.nodes p).state.currentTerm ≤ (cl.nodes x).state.currentTerm) :
    ∃ cl', Runs.Reach (step lib ids) (Among quorum) cl cl' ∧ Changes p cl cl' ∧
      (cl'.nodes p).state.log = (cl.nodes p).state.log ∧
      min (cl.nodes x).state.commitIndex (cl'.nodes p).state.lastLogIndex ≤
        (cl'.nodes p).state.commitIndex := by
  obtain ⟨cl', hreach, hchanges, hnode, -⟩ := exists_heartbeat hq hplain hx hp hne hleader
  have hstate : (cl'.nodes p).state = (handleAppendEntries lib (cl.nodes p).state
      ((cl.nodes x).state.heartbeatRequest x)).1 := by
    rw [hnode, RaftNode.handleAppendEntries_state]
  refine ⟨cl', hreach, hchanges, ?_, ?_⟩
  · rw [hstate, handleAppendEntries_heartbeat_log lib _ x hterm]
  · have hcheck : (cl.nodes p).state.checkPrevLog 0 0 = .accept := if_neg (lt_irrefl 0)
    have hreq : (cl.nodes p).state.currentTerm ≤
        ((cl.nodes x).state.heartbeatRequest x).term := hterm
    rw [hstate]
    exact min_leaderCommit_le_commitIndex lib hreq hcheck

theorem exists_all_informed {n : ℕ} (hplain : cl.Plain lib ids)
    (hleader : (cl.nodes x).state.role = .leader)
    (hcommit : n ≤ (cl.nodes x).state.commitIndex) (hnodup : waiting.Nodup)
    (hmembers : ∀ p ∈ waiting, p ∈ quorum ∧ p ≠ x ∧
      (cl.nodes p).state.currentTerm ≤ (cl.nodes x).state.currentTerm ∧
      n ≤ (cl.nodes p).state.lastLogIndex) :
    ∃ cl', Runs.Reach (step lib ids) (Among quorum) cl cl' ∧ SameLogs cl cl' ∧
      (∀ p, p ∉ waiting → cl'.nodes p = cl.nodes p) ∧
      ∀ p ∈ waiting, n ≤ (cl'.nodes p).state.commitIndex := by
  induction waiting generalizing cl with
  | nil => exact ⟨cl, .init, fun _ => rfl, fun _ _ => rfl, fun _ hp => absurd hp List.not_mem_nil⟩
  | cons p waiting ih =>
    obtain ⟨hp, hpx, hterm, hlast⟩ := hmembers p (List.mem_cons_self ..)
    obtain ⟨hfresh, hrest⟩ := List.nodup_cons.mp hnodup
    obtain ⟨cl₁, hreach₁, hchanges, hlog, hmin⟩ :=
      exists_informed hq hx hplain hp hpx hleader hterm
    have hplain₁ := hplain.reach Among.noCompaction hreach₁
    have hlogs := hchanges.sameLogs hlog
    have hx₁ : cl₁.nodes x = cl.nodes x := hchanges.others x hpx.symm
    obtain ⟨cl₂, hreach₂, hlogs₂, hothers, hinformed⟩ := ih hplain₁ (by rwa [hx₁]) (by rwa [hx₁])
      hrest fun q hmem => by
        have hqp : q ≠ p := fun heq => hfresh (heq ▸ hmem)
        rw [hx₁, hchanges.others q hqp]
        exact hmembers q (List.mem_cons_of_mem _ hmem)
    refine ⟨cl₂, hreach₁.trans hreach₂, hlogs.trans hlogs₂, fun q hnot => ?_, fun q hmem => ?_⟩
    · obtain ⟨hqp, hq'⟩ := not_or.mp (mt List.mem_cons.mpr hnot)
      rw [hothers q hq', hchanges.others q hqp]
    · rcases List.mem_cons.mp hmem with rfl | hold
      · rw [hothers q hfresh]
        have hsame := (hplain.lastLog_eq hplain₁ hlogs (hq.member q hp)).1
        omega
      · exact hinformed q hold

end Informing

/-- The members of any majority can elect one of them and commit a command, by themselves. -/
theorem exists_committed (hq : IsMajority ids quorum) (htwo : 2 ≤ ids.length)
    (hplain : cl.Plain lib ids) (command : Command) :
    ∃ x ∈ quorum, ∃ cl' e, Runs.Reach (step lib ids) (Among quorum) cl cl' ∧
      (cl'.nodes x).state.role = .leader ∧
      (cl'.nodes x).state.log = (cl.nodes x).state.log ++ [e] ∧
      e.command = command ∧ e.term = (cl'.nodes x).state.currentTerm ∧
      ∀ p ∈ quorum, e.index ≤ (cl'.nodes p).state.commitIndex ∧
        ((cl'.nodes p).state.getEntry e.index).map (LogEntry.onWire lib) =
          some (e.onWire lib) := by
  obtain ⟨x, hx, cl₁, hreach₁, helected⟩ := exists_elected hq htwo hplain
  have hplain₁ := hplain.reach Among.noCompaction hreach₁
  obtain ⟨cl₂, hreach₂, hserving⟩ := exists_serving hq hx hplain₁ helected command
  have hplain₂ := hplain₁.reach Among.noCompaction hreach₂
  have hnodup : (followers ids quorum x).Nodup := (hq.nodup.filter _).filter _
  obtain ⟨y, hy, hyx⟩ := exists_other hq htwo x
  obtain ⟨cl₃, hreach₃, hdone, hcount⟩ := hserving.catchUpAll hq hx hplain₂ hnodup
    (fun p hp => (mem_followers hq).mp hp) (List.ne_nil_of_mem ((mem_followers hq).mpr ⟨hy, hyx⟩))
  have hplain₃ := hplain₂.reach Among.noCompaction hreach₃
  have hcommit := hcount (hdone.majorityIndex_eq hq hx hplain₃)
  obtain ⟨e, he⟩ : ∃ e, e = (cl₁.nodes x).state.newEntry command := ⟨_, rfl⟩
  obtain ⟨L, hL⟩ : ∃ L, L = (cl.nodes x).state.log ++ [e] := ⟨_, rfl⟩
  rw [← he, ← hL] at hdone hcommit
  have hlast : L.getLast? = some e := by rw [hL, List.getLast?_concat]
  have hlength : ∀ p ∈ quorum, p ≠ x →
      (cl₃.nodes p).state.getEntry L.length = some (e.onWire lib) := fun p hp hpx => by
    rw [(hdone.held p hp hpx List.not_mem_nil).2, hlast]
    rfl
  obtain ⟨cl₄, hreach₄, hlogs, hothers, hinformed⟩ := exists_all_informed hq hx hplain₃ hdone.leader
    hcommit hnodup fun p hp => by
      obtain ⟨hmem, hpx⟩ := (mem_followers hq).mp hp
      exact ⟨hmem, hpx, hdone.term.symm ▸ hdone.terms p hmem,
        hplain₃.le_lastLogIndex (hq.member p hmem) (hlength p hmem hpx)⟩
  have hx₄ : cl₄.nodes x = cl₃.nodes x := hothers x fun hmem => ((mem_followers hq).mp hmem).2 rfl
  have hindex : e.index = L.length := by
    rw [hL, List.length_append, he, ← helected.logs x, ← hplain₁.lastLogIndex_eq (hq.member x hx)]
    rfl
  refine ⟨x, hx, cl₄, e, ((hreach₁.trans hreach₂).trans hreach₃).trans hreach₄, ?_, ?_, ?_, ?_,
    fun p hp => ?_⟩
  · rw [hx₄]
    exact hdone.leader
  · rw [hx₄, hdone.log, hL]
  · rw [he]
    rfl
  · rw [hx₄, hdone.term, he]
    rfl
  · rw [hindex, hplain₃.getEntry_eq (hplain₃.reach Among.noCompaction hreach₄) hlogs
      (hq.member p hp)]
    by_cases hpx : p = x
    · rw [hpx, hx₄]
      refine ⟨hcommit, ?_⟩
      rw [hplain₃.getEntry_last (hq.member x hx) hdone.length_pos, hdone.log, hlast]
      · rfl
      · rw [hplain₃.lastLogIndex_eq (hq.member x hx), hdone.log]
    · refine ⟨hinformed p ((mem_followers hq).mpr ⟨hp, hpx⟩), ?_⟩
      rw [hlength p hp hpx, Option.map_some, LogEntry.onWire_onWire]

end Cluster

namespace StoredCluster

variable {lib : WireLib} {ids : List ℕ} {quorum : Finset ℕ} {sc : StoredCluster}

/-- Whatever has happened to a cluster that has compacted nothing, lost messages, elections and
restarts from disk included, any majority of its nodes can elect one of them and commit a command,
talking only among themselves. Its log grows by that command alone. -/
theorem any_majority_can_commit (lib : WireLib) (hq : IsMajority ids quorum)
    (htwo : 2 ≤ ids.length)
    (h : Runs.Reach (step lib ids) (StoredAction.Whole fun _ a => a.event.NoCompaction)
      (start ids) sc) (command : Command) :
    ∃ x ∈ quorum, ∃ sc' e,
      Runs.Reach (step lib ids) (StoredAction.Acts (Cluster.Among quorum)) sc sc' ∧
      (sc'.cluster.nodes x).state.role = .leader ∧
      (sc'.cluster.nodes x).state.log = (sc.cluster.nodes x).state.log ++ [e] ∧
      e.command = command ∧ e.term = (sc'.cluster.nodes x).state.currentTerm ∧
      ∀ p ∈ quorum, e.index ≤ (sc'.cluster.nodes p).state.commitIndex ∧
        ((sc'.cluster.nodes p).state.getEntry e.index).map (LogEntry.onWire lib) =
          some (e.onWire lib) := by
  have hplain : sc.cluster.Plain lib ids := .of_faulty (faulty_of_whole
    (fun hreach x hx => ((Cluster.Plain.of_faulty hreach).linked.node x hx).aligned) h).1
  obtain ⟨x, hx, cl', e, hreach, hcommitted⟩ := Cluster.exists_committed hq htwo hplain command
  obtain ⟨sc', hacts, rfl⟩ := exists_reach_acts hreach
  exact ⟨x, hx, sc', e, hacts, hcommitted⟩

def unsharedEntry : List StoredAction :=
  (Cluster.electedBy 1 2 1 0 0).map .act ++ [.act ⟨1, .appendCommand .noop⟩, .restart 2]

theorem two_nodes_commit_without_leader : ∃ sc,
    Runs.Reach (step .standard [1, 2, 3])
      (StoredAction.Whole fun _ a => a.event.NoCompaction) (start [1, 2, 3]) sc ∧
    (sc.cluster.nodes 1).state.role = .leader ∧
    ∃ x ∈ ({2, 3} : Finset ℕ), ∃ sc' e,
      Runs.Reach (step .standard [1, 2, 3]) (StoredAction.Acts (Cluster.Among {2, 3})) sc sc' ∧
      (sc'.cluster.nodes x).state.role = .leader ∧
      (sc'.cluster.nodes x).state.log = (sc.cluster.nodes x).state.log ++ [e] ∧
      e.command = .noop ∧ e.term = (sc'.cluster.nodes x).state.currentTerm ∧
      ∀ p ∈ ({2, 3} : Finset ℕ), e.index ≤ (sc'.cluster.nodes p).state.commitIndex ∧
        ((sc'.cluster.nodes p).state.getEntry e.index).map (LogEntry.onWire .standard) =
          some (e.onWire .standard) := by
  obtain ⟨sc, hreach, hleader⟩ := Runs.exists_reach_of_guardedRun
    (step .standard [1, 2, 3]) (StoredAction.Whole fun _ a => a.event.NoCompaction)
    (fun sc => (sc.cluster.nodes 1).state.role = .leader) (start [1, 2, 3]) unsharedEntry
    (by decide +kernel)
  exact ⟨sc, hreach, hleader, any_majority_can_commit .standard
    ⟨by decide, by decide, by decide⟩ (by decide) hreach .noop⟩

end StoredCluster

/-! ### A node on its own -/

structure RaftNode.Lone (nd : RaftNode) : Prop where
  peers : nd.peers = []
  matchIndex : nd.state.matchIndex = ∅
  callers : ∀ e ∈ nd.elections, e.caller = none
  timeoutNows : nd.timeoutNows = []
  transfer : nd.transfer = none
  compaction : nd.compaction = none
  commitIndex : nd.state.commitIndex = 0
  lastApplied : nd.state.lastApplied = 0
  snapshot : nd.state.snapshot = none

namespace RaftNode.Lone

variable {lib : WireLib} {nd : RaftNode} {ev : Event} {eff : Effect}

/-- Without replies the node sends nothing, applies nothing and commits nothing. -/
theorem step (h : nd.Lone) (hev : ∀ task src msg, ev ≠ .deliver task src msg)
    (hstep : nd.step lib ev = some eff) :
    eff.node.Lone ∧ eff.sent = [] ∧ ∀ n ∈ eff.notes, ∀ s, n ≠ .advancedCommit s ∧
      ∀ es, n = .applied es → es = [] := by
  have hnone : ∀ n ∈ ([] : List Note), ∀ s, n ≠ .advancedCommit s ∧
      ∀ es, n = .applied es → es = [] := fun n hn => absurd hn List.not_mem_nil
  have hselect : ∀ targetId choice, nd.selectTarget targetId choice = none := by
    intro targetId choice
    cases targetId with
    | some id =>
      rw [selectTarget, h.peers]
      exact if_neg List.not_mem_nil
    | none =>
      rw [selectTarget, h.matchIndex]
      exact if_neg fun hc => Finmap.notMem_empty hc.2
  cases transition_of_step hstep with
  | voteRequest | voteStepDown | voteCounted | appendEntries | heartbeatStepDown
  | heartbeatIgnored | appendStepDown | appendCommitted | appendMatched | appendRejected
  | appendIgnored | installSnapshot | snapshotStepDown | snapshotMatched | timeoutNowRefused
  | timeoutNowTaken | transferDone | transferRefused => exact absurd rfl (hev _ _ _)
  | @electionTimeout order hnodup hpeers =>
    have horder : order = [] := List.eq_nil_iff_forall_not_mem.mpr fun p hp => by
      have hmem := hpeers p hp
      rw [h.peers] at hmem
      cases hmem
    subst horder
    refine ⟨⟨h.peers, h.matchIndex, fun e he => ?_, h.timeoutNows, h.transfer, h.compaction,
      h.commitIndex, h.lastApplied, h.snapshot⟩, rfl, hnone⟩
    rcases List.mem_append.mp he with hold | hnew
    · exact h.callers e hold
    · rw [List.mem_singleton.mp hnew]
  | timeoutNowElection hcaller =>
    rw [h.timeoutNows] at hcaller
    cases hcaller
  | @voteFailed task e he hne =>
    refine ⟨⟨h.peers, h.matchIndex, fun e' he' => ?_, h.timeoutNows, h.transfer, h.compaction,
      h.commitIndex, h.lastApplied, h.snapshot⟩, rfl, hnone⟩
    rcases List.mem_or_eq_of_mem_set he' with hold | rfl
    · exact h.callers e' hold
    · exact h.callers e (List.mem_of_getElem? he)
  | @electionWon task e he hdone hrole hterm hmaj =>
    refine ⟨⟨h.peers, ?_, fun e' he' => h.callers e' (List.mem_of_mem_eraseIdx he'), h.timeoutNows,
      h.transfer, h.compaction, h.commitIndex, h.lastApplied, h.snapshot⟩, ?_, fun n hn s => ?_⟩
    · change nd.peers.foldl (fun (m : IndexMap) p => m.insert p 0) ∅ = ∅
      rw [h.peers]
      rfl
    · change e.caller.toList.map _ = []
      rw [h.callers e (List.mem_of_getElem? he)]
      rfl
    · rw [List.mem_singleton.mp hn]
      exact ⟨Note.noConfusion, fun _ heq => by cases heq⟩
  | @electionLost task e he hdone votes =>
    refine ⟨⟨h.peers, h.matchIndex, fun e' he' => h.callers e' (List.mem_of_mem_eraseIdx he'),
      h.timeoutNows, h.transfer, h.compaction, h.commitIndex, h.lastApplied, h.snapshot⟩, ?_, hnone⟩
    change e.caller.toList.map _ = []
    rw [h.callers e (List.mem_of_getElem? he)]
    rfl
  | heartbeatTick =>
    refine ⟨h, ?_, hnone⟩
    change nd.peers.map _ = []
    rw [h.peers]
    rfl
  | replicateTick =>
    refine ⟨h, ?_, hnone⟩
    change nd.peers.filterMap _ = []
    rw [h.peers]
    rfl
  | appendCommand =>
    exact ⟨⟨h.peers, h.matchIndex, h.callers, h.timeoutNows, h.transfer, h.compaction,
      h.commitIndex, h.lastApplied, h.snapshot⟩, rfl, hnone⟩
  | startTransfer =>
    simp only [RaftNode.step, startTransfer, hselect, Option.map_none, ite_self] at hstep
    cases hstep
  | transferPoll htr =>
    rw [h.transfer] at htr
    cases htr
  | transferFailed =>
    exact ⟨⟨h.peers, h.matchIndex, h.callers, h.timeoutNows, rfl, h.compaction, h.commitIndex,
      h.lastApplied, h.snapshot⟩, rfl, hnone⟩
  | getCommittedEntries =>
    refine ⟨⟨h.peers, h.matchIndex, h.callers, h.timeoutNows, h.transfer, h.compaction,
      h.commitIndex, ?_, h.snapshot⟩, rfl, fun n hn s => ?_⟩
    · change max nd.state.lastApplied nd.state.commitIndex = 0
      rw [h.lastApplied, h.commitIndex]
      rfl
    · rw [List.mem_singleton.mp hn]
      refine ⟨Note.noConfusion, fun es heq => ?_⟩
      obtain rfl := Note.applied.inj heq
      change (List.range' (nd.state.lastApplied + 1) (nd.state.commitIndex - nd.state.lastApplied)
        ).filterMap nd.state.getEntry = []
      rw [h.lastApplied, h.commitIndex]
      rfl
  | beginCompaction =>
    simp only [RaftNode.step, beginCompaction, h.lastApplied, ne_eq, not_true_eq_false, and_false,
      if_false] at hstep
    cases hstep
  | finishCompaction hc =>
    rw [h.compaction] at hc
    cases hc

theorem restarted (h : nd.Lone) : nd.restarted.Lone := by
  have hzero : (nd.state.snapshot.map Snapshot.lastIncludedIndex).getD 0 = 0 := by
    rw [h.snapshot]
    rfl
  exact ⟨h.peers, rfl, fun _ he => absurd he List.not_mem_nil, rfl, rfl, rfl, hzero, hzero,
    h.snapshot⟩

end RaftNode.Lone

namespace Cluster

structure Lone (x : ℕ) (cl : Cluster) : Prop where
  node : (cl.nodes x).Lone
  network : cl.network = []
  notes : ∀ y n, (y, n) ∈ cl.history → ∀ s, n ≠ .advancedCommit s ∧ ∀ es, n = .applied es → es = []

variable {lib : WireLib} {x : ℕ} {cl cl' : Cluster} {a : Action}

theorem lone_start (x : ℕ) : (start [x]).Lone x where
  node := by
    have hpeers : peersOf [x] x = [] := by
      rw [peersOf, List.filter_cons_of_neg (by simp), List.filter_nil]
    exact ⟨hpeers, rfl, fun _ he => absurd he List.not_mem_nil, rfl, rfl, rfl, rfl, rfl, rfl⟩
  network := rfl
  notes _ _ hn := absurd hn List.not_mem_nil

theorem Lone.step (h : cl.Lone x) (hs : cl.step lib [x] a = some cl') : cl'.Lone x := by
  obtain ⟨eff, hx, hpacket, hstep, rfl⟩ := step_eq_some hs
  rw [List.mem_singleton.mp hx] at hpacket hstep ⊢
  have hev : ∀ task src msg, a.event ≠ .deliver task src msg := by
    intro task src msg heq
    rw [heq, h.network] at hpacket
    exact absurd (hpacket _ rfl) List.not_mem_nil
  obtain ⟨hnode, hsent, hnotes⟩ := h.node.step hev hstep
  refine ⟨?_, ?_, fun y n hmem => ?_⟩
  · rw [apply_nodes]
    exact hnode
  · change cl.network ++ eff.sent.map _ = []
    rw [h.network, hsent]
    rfl
  · rcases List.mem_append.mp hmem with hold | hnew
    · exact h.notes y n hold
    · obtain ⟨n', hn', heq⟩ := List.mem_map.mp hnew
      cases heq
      exact hnotes n hn'

theorem Lone.restart (h : cl.Lone x) : (cl.restart x).Lone x where
  node := by
    rw [Cluster.restart, apply_nodes]
    exact h.node.restarted
  network := by
    change cl.network ++ [] = []
    rw [h.network, List.append_nil]
  notes y n hmem := by
    rw [history_restart] at hmem
    exact h.notes y n hmem

end Cluster

/-- A cluster of one node elects its leader and takes commands, but it never commits one of them
and never hands one to the scheduler, restarts included. -/
theorem Cluster.lone_node_never_commits (lib : WireLib) {x : ℕ} {cl : Cluster}
    (h : Runs.Reach (faultyStep lib [x]) (fun _ _ => True) (start [x]) cl) :
    (cl.nodes x).state.commitIndex = 0 ∧ (∀ y s, (y, .advancedCommit s) ∉ cl.history) ∧
      ∀ y es, (y, .applied es) ∈ cl.history → es = [] := by
  have hlone : cl.Lone x := by
    refine faulty_invariant (Q := fun _ _ => True) (P := Lone x)
      (h.mono fun _ fa _ => by cases fa <;> trivial) (lone_start x)
      (fun hP _ hs => hP.step hs) fun hx hP => ?_
    rw [List.mem_singleton.mp hx]
    exact hP.restart
  exact ⟨hlone.node.commitIndex, fun y s hmem => (hlone.notes y _ hmem s).1 rfl,
    fun y es hmem => (hlone.notes y _ hmem .new).2 es rfl⟩

def loneRun : List FaultyAction :=
  [.act ⟨1, .electionTimeout []⟩, .act ⟨1, .finishElection 0⟩, .act ⟨1, .appendCommand .noop⟩,
    .act ⟨1, .replicateTick⟩, .act ⟨1, .getCommittedEntries⟩]

theorem Cluster.lone_leader_commits_nothing : ∃ cl,
    Runs.Reach (faultyStep .standard [1]) (fun _ _ => True) (start [1]) cl ∧
      (cl.nodes 1).state.role = .leader ∧ (cl.nodes 1).state.log = [⟨1, 1, .noop⟩] ∧
      (cl.nodes 1).state.commitIndex = 0 ∧ ∀ y es, (y, .applied es) ∈ cl.history → es = [] := by
  obtain ⟨cl, hreach, hleader, hlog⟩ := Runs.exists_reach_of_guardedRun
    (faultyStep .standard [1]) (fun _ _ => True)
    (fun cl => (cl.nodes 1).state.role = .leader ∧ (cl.nodes 1).state.log = [⟨1, 1, .noop⟩])
    (start [1]) loneRun (by decide +kernel)
  obtain ⟨hcommit, -, happlied⟩ := lone_node_never_commits .standard hreach
  exact ⟨cl, hreach, hleader, hlog, hcommit, happlied⟩

end NomadLite
