import NomadLite.LeaderTerms
import NomadLite.SchedulerLoop

/-!
# Queries that only a leader answers

`get_cluster_status` and `get_raft_log_entries` are answered by the leader. Any other
node forwards them to the leader it names, which may have lost its office by then and
forwards them again. The check of the role, the lookup of the name and the answer take
the lock one after the other, so a node may answer that has just been replaced. An error
is wrapped once for every node on the way back.
-/

namespace NomadLite

/-! ### The answers of a leader -/

structure NodeConfig where
  nodeId : ℕ
  advertiseAddr : String
  peers : List PeerConfig
deriving DecidableEq

structure NodeInfo where
  nodeId : ℕ
  address : String
  isAlive : Bool
deriving DecidableEq

structure GetClusterStatusResponse where
  currentTerm : ℕ
  leaderId : ℕ
  nodes : List NodeInfo
deriving DecidableEq

structure GetRaftLogEntriesRequest where
  startIndex : ℕ
  limit : ℕ
deriving DecidableEq

structure RaftLogEntryInfo where
  index : ℕ
  term : ℕ
  command : Option Proto.Command
  isCommitted : Bool
deriving DecidableEq

structure GetRaftLogEntriesResponse where
  entries : List RaftLogEntryInfo
  commitIndex : ℕ
  lastLogIndex : ℕ
  firstAvailableIndex : ℕ
deriving DecidableEq

def peerTimeoutMs : ℕ := 3000

def peerStatus (lastSeen : Finmap (fun _ : ℕ => Instant)) (now : Instant) (peerId : ℕ) : Bool :=
  (lastSeen.lookup peerId).any fun instant => now - instant < peerTimeoutMs

namespace NodeConfig

def peerAddr (config : NodeConfig) (nodeId : ℕ) : Except Status String :=
  match config.peers.find? fun p => p.nodeId = nodeId with
  | some p => .ok p.addr
  | none => .error ⟨.notFound, "Unknown node " ++ toString nodeId⟩

/-- The node itself counts as alive. -/
def nodeInfos (config : NodeConfig) (alive : ℕ → Bool) : List NodeInfo :=
  (⟨config.nodeId, config.advertiseAddr, true⟩ ::
    config.peers.map fun p => ⟨p.nodeId, p.addr, alive p.nodeId⟩).insertionSort
      fun a b => a.nodeId ≤ b.nodeId

def clusterStatus (config : NodeConfig) (nd : RaftNode) (alive : ℕ → Bool) :
    GetClusterStatusResponse :=
  ⟨nd.state.currentTerm, nd.id, config.nodeInfos alive⟩

end NodeConfig

namespace RaftState

def firstAvailableIndex (s : RaftState) : ℕ := if s.log = [] then 0 else s.logOffset + 1

def raftLogEntries (lib : WireLib) (s : RaftState) (req : GetRaftLogEntriesRequest) :
    GetRaftLogEntriesResponse :=
  let limit := if req.limit = 0 then 100 else min req.limit 1000
  let startIndex :=
    if req.startIndex = 0 then max s.firstAvailableIndex 1
    else max req.startIndex s.firstAvailableIndex
  { entries := ((s.getEntriesFrom startIndex).take limit).map fun entry =>
      ⟨entry.index, entry.term, (logEntryToProto lib entry).command,
        entry.index ≤ s.commitIndex⟩
    commitIndex := s.commitIndex
    lastLogIndex := s.lastLogIndex
    firstAvailableIndex := s.firstAvailableIndex }

end RaftState

inductive LeaderRequest where
  | clusterStatus
  | raftLogEntries (req : GetRaftLogEntriesRequest)
deriving DecidableEq

inductive LeaderResponse where
  | clusterStatus (resp : GetClusterStatusResponse)
  | raftLogEntries (resp : GetRaftLogEntriesResponse)
deriving DecidableEq

def LeaderRequest.answer (lib : WireLib) (config : NodeConfig) (nd : RaftNode) (alive : ℕ → Bool) :
    LeaderRequest → LeaderResponse
  | .clusterStatus => .clusterStatus (config.clusterStatus nd alive)
  | .raftLogEntries req => .raftLogEntries (nd.state.raftLogEntries lib req)

/-! ### A query on its way -/

/-- A forward from a node to the leader it named in the given term of its own. -/
structure Hop where
  source : ℕ
  term : ℕ
  leaderId : ℕ
deriving DecidableEq

inductive QueryStage where
  | checking
  | answering
  | naming
  | calling (hop : Hop)
  | returning (result : Except Status LeaderResponse)

/-- A query that is being handled on node `node`. The nodes in `path` wait for its answer, the last
one first; `hops` is the history of its forwards. -/
structure Query where
  request : LeaderRequest
  node : ℕ
  path : List ℕ
  hops : List Hop
  stage : QueryStage

inductive QueryEvent where
  | checkLeader
  | answer (lastSeen : Finmap (fun _ : ℕ => Instant)) (now : Instant)
  | nameLeader
  | connectFailed (status : Status)
  | deliver
  | reply
  | lost (depth : ℕ) (message : String)

namespace Query

variable (lib : WireLib) (display : Status → String) (config : ℕ → NodeConfig)
  (nodes : ℕ → RaftNode)

def leaderRequestFailed (message : String) : Status :=
  ⟨.unavailable, "Leader request failed: " ++ message⟩

def forwarded (result : Except Status LeaderResponse) : Except Status LeaderResponse :=
  result.mapError fun status => leaderRequestFailed (display status)

def step (q : Query) (ev : QueryEvent) : Option Query :=
  match ev, q.stage with
  | .checkLeader, .checking =>
    some { q with stage := if (nodes q.node).isLeader then .answering else .naming }
  | .answer lastSeen now, .answering =>
    some { q with stage := .returning (.ok (q.request.answer lib (config q.node) (nodes q.node)
      (peerStatus lastSeen now))) }
  | .nameLeader, .naming =>
    match (nodes q.node).getLeaderId with
    | none => some { q with
        stage := .returning (.error ⟨.unavailable, "Leader unknown, please retry later"⟩) }
    | some leaderId =>
      match (config q.node).peerAddr leaderId with
      | .ok _ => some { q with
          stage := .calling ⟨q.node, (nodes q.node).state.currentTerm, leaderId⟩ }
      | .error status => some { q with stage := .returning (.error status) }
  | .connectFailed status, .calling _ => some { q with stage := .returning (.error status) }
  | .deliver, .calling hop =>
    some { q with
      node := hop.leaderId
      path := q.node :: q.path
      hops := hop :: q.hops
      stage := .checking }
  | .reply, .returning result =>
    match q.path with
    | caller :: path => some { q with
        node := caller
        path := path
        stage := .returning (forwarded display result) }
    | [] => none
  | .lost depth message, _ =>
    -- the call of a waiting node breaks off, whatever becomes of it further on
    match q.path.drop depth with
    | caller :: path => some { q with
        node := caller
        path := path
        stage := .returning (.error (leaderRequestFailed message)) }
    | [] => none
  | _, _ => none

inductive Stepped (q : Query) : QueryEvent → Query → Prop where
  | leading (hstage : q.stage = .checking) (hrole : (nodes q.node).state.role = .leader) :
      Stepped q .checkLeader { q with stage := .answering }
  | following (hstage : q.stage = .checking) :
      Stepped q .checkLeader { q with stage := .naming }
  | answer (hstage : q.stage = .answering) (lastSeen : Finmap (fun _ : ℕ => Instant))
      (now : Instant) :
      Stepped q (.answer lastSeen now) { q with stage := .returning (.ok (q.request.answer lib
        (config q.node) (nodes q.node) (peerStatus lastSeen now))) }
  | named {leaderId : ℕ} {addr : String} (hstage : q.stage = .naming)
      (hname : (nodes q.node).getLeaderId = some leaderId)
      (haddr : (config q.node).peerAddr leaderId = .ok addr) :
      Stepped q .nameLeader { q with
        stage := .calling ⟨q.node, (nodes q.node).state.currentTerm, leaderId⟩ }
  | failed (ev : QueryEvent) (status : Status) :
      Stepped q ev { q with stage := .returning (.error status) }
  | deliver {hop : Hop} (hstage : q.stage = .calling hop) :
      Stepped q .deliver { q with
        node := hop.leaderId
        path := q.node :: q.path
        hops := hop :: q.hops
        stage := .checking }
  | reply {result : Except Status LeaderResponse} {caller : ℕ} {path : List ℕ}
      (hstage : q.stage = .returning result) (hpath : q.path = caller :: path) :
      Stepped q .reply { q with
        node := caller
        path := path
        stage := .returning (forwarded display result) }
  | lost {depth : ℕ} {message : String} {caller : ℕ} {path : List ℕ}
      (hdrop : q.path.drop depth = caller :: path) :
      Stepped q (.lost depth message) { q with
        node := caller
        path := path
        stage := .returning (.error (leaderRequestFailed message)) }

variable {lib display config nodes} in
theorem stepped_of_step {q q' : Query} {ev : QueryEvent}
    (h : q.step lib display config nodes ev = some q') :
    Stepped lib display config nodes q ev q' := by
  unfold step at h
  split at h
  · next hstage =>
    obtain rfl := Option.some.inj h
    by_cases hlead : (nodes q.node).isLeader = true
    · rw [if_pos hlead]
      exact .leading hstage (of_decide_eq_true hlead)
    · rw [if_neg hlead]
      exact .following hstage
  · next lastSeen now hstage => exact Option.some.inj h ▸ .answer hstage lastSeen now
  · next hstage =>
    split at h
    · exact Option.some.inj h ▸ .failed _ _
    · next leaderId hname =>
      split at h
      · next addr haddr => exact Option.some.inj h ▸ .named hstage hname haddr
      · exact Option.some.inj h ▸ .failed _ _
  · exact Option.some.inj h ▸ .failed _ _
  · next hop hstage => exact Option.some.inj h ▸ .deliver hstage
  · next result hstage =>
    split at h
    · next caller path hpath => exact Option.some.inj h ▸ .reply hstage hpath
    · cases h
  · next depth message =>
    split at h
    · next caller path hdrop => exact Option.some.inj h ▸ .lost hdrop
    · cases h
  · cases h

end Query

structure QueryCluster where
  cluster : Cluster
  queries : List Query

inductive QueryAction where
  | raft (a : Action)
  | ask (x : ℕ) (request : LeaderRequest)
  | query (c : ℕ) (ev : QueryEvent)

namespace QueryCluster

variable (lib : WireLib) (display : Status → String) (ids : List ℕ) (config : ℕ → NodeConfig)

def start (ids : List ℕ) : QueryCluster := ⟨.start ids, []⟩

def step (qc : QueryCluster) : QueryAction → Option QueryCluster
  | .raft a => (qc.cluster.step lib ids a).map fun cluster => { qc with cluster := cluster }
  | .ask x request =>
    if x ∈ ids then some { qc with queries := qc.queries ++ [⟨request, x, [], [], .checking⟩] }
    else none
  | .query c ev => do
    let q ← qc.queries[c]?
    let q' ← q.step lib display config qc.cluster.nodes ev
    some { qc with queries := qc.queries.set c q' }

def KeepsBallots (qc : QueryCluster) : QueryAction → Prop
  | .raft a => qc.cluster.KeepsBallots ids a
  | .ask .. | .query .. => True

instance (qc : QueryCluster) : (a : QueryAction) → Decidable (qc.KeepsBallots ids a)
  | .raft a => inferInstanceAs (Decidable (qc.cluster.KeepsBallots ids a))
  | .ask .. | .query .. => isTrue trivial

end QueryCluster

/-! ### Names lead to greater terms -/

namespace Query

variable {lib : WireLib} {display : Status → String} {config : ℕ → NodeConfig} {ids : List ℕ}
  {cl cl' : Cluster} {q q' : Query} {terms : List ℕ}

def StageInv (ids : List ℕ) (cl : Cluster) (terms : List ℕ) (node : ℕ) : QueryStage → Prop
  | .checking | .naming => ∀ T ∈ terms, ∃ S ≥ T, (S, node) ∈ cl.leaders
  | .answering => ∃ S ≤ (cl.nodes node).state.currentTerm, (S, node) ∈ cl.leaders ∧
      ∀ T ∈ terms, T ≤ S
  | .calling hop => hop.leaderId ∈ ids ∧
      ∃ S ≤ hop.term, (S, hop.leaderId) ∈ cl.leaders ∧ ∀ T ∈ terms, T < S
  | .returning (.ok (.clusterStatus resp)) =>
    ∃ S ≤ resp.currentTerm, (S, resp.leaderId) ∈ cl.leaders ∧ ∀ T ∈ terms, T ≤ S
  | .returning _ => True

structure Inv (ids : List ℕ) (cl : Cluster) (terms : List ℕ) (q : Query) : Prop where
  node : q.node ∈ ids
  path : ∀ x ∈ q.path, x ∈ ids
  decreasing : terms.Pairwise (· > ·)
  hops : List.Forall₂ (fun T hop => T ≤ hop.term ∧ (T, hop.leaderId) ∈ cl.leaders) terms q.hops
  stage : StageInv ids cl terms q.node q.stage

theorem StageInv.mono {node : ℕ} {stage : QueryStage} (h : StageInv ids cl terms node stage)
    (hsub : cl.leaders ⊆ cl'.leaders)
    (hterm : (cl.nodes node).state.currentTerm ≤ (cl'.nodes node).state.currentTerm) :
    StageInv ids cl' terms node stage := by
  cases stage with
  | checking | naming =>
    intro T hT
    obtain ⟨S, hle, hS⟩ := h T hT
    exact ⟨S, hle, hsub hS⟩
  | answering =>
    obtain ⟨S, hle, hS, hall⟩ := h
    exact ⟨S, hle.trans hterm, hsub hS, hall⟩
  | calling hop =>
    obtain ⟨hmem, S, hle, hS, hall⟩ := h
    exact ⟨hmem, S, hle, hsub hS, hall⟩
  | returning result =>
    cases result with
    | error status => trivial
    | ok resp =>
      cases resp with
      | raftLogEntries resp => trivial
      | clusterStatus resp =>
        obtain ⟨S, hle, hS, hall⟩ := h
        exact ⟨S, hle, hsub hS, hall⟩

theorem Inv.mono (h : q.Inv ids cl terms) (hsub : cl.leaders ⊆ cl'.leaders)
    (hterm : ∀ x, (cl.nodes x).state.currentTerm ≤ (cl'.nodes x).state.currentTerm) :
    q.Inv ids cl' terms :=
  ⟨h.node, h.path, h.decreasing, h.hops.imp fun _ _ hop => ⟨hop.1, hsub hop.2⟩,
    h.stage.mono hsub (hterm q.node)⟩

/-- Whoever names another node names a leader of a term after its own ones. -/
theorem named_of_getLeaderId {x leaderId : ℕ} {nd : RaftNode}
    (h : NodeNames ids cl.leaders x nd) (hname : nd.getLeaderId = some leaderId)
    (hne : leaderId ≠ x) : ∃ S ≤ nd.state.currentTerm, (S, leaderId) ∈ cl.leaders ∧
      ∀ T, (T, x) ∈ cl.leaders → T < S := by
  rw [RaftNode.getLeaderId] at hname
  split_ifs at hname with hrole
  · exact absurd ((Option.some.inj hname).symm.trans h.id_eq) hne
  · obtain ⟨S, hle, hS, hown⟩ := h.named leaderId hname
    exact ⟨S, hle, hS, fun T hT => (hown T hT).2 hne⟩

theorem configured_of_peerAddr {cfg : NodeConfig} {nodeId : ℕ} {addr : String}
    (h : cfg.peerAddr nodeId = .ok addr) : ∃ p ∈ cfg.peers, p.nodeId = nodeId := by
  rw [NodeConfig.peerAddr] at h
  cases hfind : cfg.peers.find? fun p => p.nodeId = nodeId with
  | none =>
    rw [hfind] at h
    cases h
  | some p =>
    have hp := List.find?_some hfind
    exact ⟨p, List.mem_of_find?_eq_some hfind, of_decide_eq_true hp⟩

theorem stageInv_forwarded {node node' : ℕ} {result : Except Status LeaderResponse}
    (h : StageInv ids cl terms node (.returning result)) :
    StageInv ids cl terms node' (.returning (forwarded display result)) := by
  cases result with
  | error status => trivial
  | ok resp => cases resp <;> exact h

namespace Inv

theorem stay (h : q.Inv ids cl terms) {stage : QueryStage}
    (hstage : StageInv ids cl terms q.node stage) : Inv ids cl terms { q with stage := stage } :=
  ⟨h.node, h.path, h.decreasing, h.hops, hstage⟩

theorem goBack (h : q.Inv ids cl terms) {caller : ℕ} {path : List ℕ} {stage : QueryStage}
    (hpath : ∀ x ∈ caller :: path, x ∈ q.path) (hstage : StageInv ids cl terms caller stage) :
    Inv ids cl terms { q with node := caller, path := path, stage := stage } :=
  ⟨h.path caller (hpath caller (List.mem_cons_self ..)),
    fun x hx => h.path x (hpath x (List.mem_cons_of_mem _ hx)), h.decreasing, h.hops, hstage⟩

theorem leading (h : q.Inv ids cl terms) (hnode : NodeNames ids cl.leaders q.node (cl.nodes q.node))
    (hstage : q.stage = .checking) (hrole : (cl.nodes q.node).state.role = .leader) :
    StageInv ids cl terms q.node .answering := by
  have hold := h.stage
  rw [hstage] at hold
  refine ⟨_, le_rfl, hnode.leader hrole, fun T hT => ?_⟩
  obtain ⟨S, hle, hS⟩ := hold T hT
  exact hle.le.trans (hnode.own S hS)

theorem answered (h : q.Inv ids cl terms)
    (hnode : NodeNames ids cl.leaders q.node (cl.nodes q.node)) (hstage : q.stage = .answering)
    (cfg : NodeConfig) (alive : ℕ → Bool) :
    StageInv ids cl terms q.node
      (.returning (.ok (q.request.answer lib cfg (cl.nodes q.node) alive))) := by
  have hold := h.stage
  rw [hstage] at hold
  cases q.request with
  | raftLogEntries req => trivial
  | clusterStatus =>
    obtain ⟨S, hle, hS, hall⟩ := hold
    refine ⟨S, hle, ?_, hall⟩
    change (S, (cl.nodes q.node).id) ∈ cl.leaders
    rw [hnode.id_eq]
    exact hS

theorem named (h : q.Inv ids cl terms) (hnode : NodeNames ids cl.leaders q.node (cl.nodes q.node))
    (hconfig : ∀ x, ∀ p ∈ (config x).peers, p.nodeId ∈ peersOf ids x)
    (hstage : q.stage = .naming) {leaderId : ℕ} {addr : String}
    (hname : (cl.nodes q.node).getLeaderId = some leaderId)
    (haddr : (config q.node).peerAddr leaderId = .ok addr) :
    StageInv ids cl terms q.node
      (.calling ⟨q.node, (cl.nodes q.node).state.currentTerm, leaderId⟩) := by
  have hold := h.stage
  rw [hstage] at hold
  obtain ⟨p, hp, rfl⟩ := configured_of_peerAddr haddr
  obtain ⟨hmem, hne⟩ := mem_peersOf.mp (hconfig q.node p hp)
  obtain ⟨S, hle, hS, hown⟩ := named_of_getLeaderId hnode hname hne
  refine ⟨hmem, S, hle, hS, fun T hT => ?_⟩
  obtain ⟨S', hle', hS'⟩ := hold T hT
  exact lt_of_le_of_lt hle' (hown S' hS')

/-- The term of the forward comes on top of the terms of the earlier ones. -/
theorem deliver (h : q.Inv ids cl terms) {hop : Hop} (hstage : q.stage = .calling hop) :
    ∃ S, Inv ids cl (S :: terms) { q with
      node := hop.leaderId
      path := q.node :: q.path
      hops := hop :: q.hops
      stage := .checking } := by
  have hold := h.stage
  rw [hstage] at hold
  obtain ⟨hmem, S, hle, hS, hall⟩ := hold
  refine ⟨S, hmem, ?_, List.pairwise_cons.mpr ⟨hall, h.decreasing⟩, .cons ⟨hle, hS⟩ h.hops, ?_⟩
  · rintro x (_ | ⟨_, hx⟩)
    · exact h.node
    · exact h.path x hx
  · rintro T (_ | ⟨_, hT⟩)
    · exact ⟨S, le_rfl, hS⟩
    · exact ⟨S, (hall T hT).le, hS⟩

theorem step (hnames : cl.HasNames ids)
    (hconfig : ∀ x, ∀ p ∈ (config x).peers, p.nodeId ∈ peersOf ids x)
    (h : q.Inv ids cl terms) {ev : QueryEvent}
    (hs : q.step lib display config cl.nodes ev = some q') : ∃ terms', q'.Inv ids cl terms' := by
  have hnode := hnames.node _ h.node
  cases stepped_of_step hs with
  | leading hstage hrole => exact ⟨terms, h.stay (h.leading hnode hstage hrole)⟩
  | following hstage =>
    have hold := h.stage
    rw [hstage] at hold
    exact ⟨terms, h.stay hold⟩
  | answer hstage => exact ⟨terms, h.stay (h.answered hnode hstage _ _)⟩
  | named hstage hname haddr => exact ⟨terms, h.stay (h.named hnode hconfig hstage hname haddr)⟩
  | failed => exact ⟨terms, h.stay trivial⟩
  | deliver hstage =>
    obtain ⟨S, hinv⟩ := h.deliver hstage
    exact ⟨S :: terms, hinv⟩
  | reply hstage hpath =>
    have hold := h.stage
    rw [hstage] at hold
    exact ⟨terms, h.goBack (fun x hx => hpath ▸ hx) (stageInv_forwarded hold)⟩
  | lost hdrop => exact ⟨terms, h.goBack (fun x hx => List.mem_of_mem_drop (hdrop ▸ hx)) trivial⟩

end Inv

theorem Inv.length_hops_le (h : q.Inv ids cl terms) : q.hops.length ≤ cl.leaders.length := by
  have hlength := h.hops.length_eq
  have hnodup : terms.Nodup := h.decreasing.imp fun hgt => (ne_of_lt hgt).symm
  have hsub : terms ⊆ cl.leaders.map Prod.fst := fun T hT => by
    rw [← List.map_fst_zip hlength.le] at hT
    obtain ⟨⟨T, hop⟩, hmem, rfl⟩ := List.mem_map.mp hT
    exact List.mem_map.mpr ⟨_, ((List.forall₂_iff_zip.mp h.hops).2 hmem).2, rfl⟩
  have hle := (hnodup.subperm hsub).length_le
  rwa [hlength, List.length_map] at hle

end Query

namespace Cluster

variable {lib : WireLib} {ids : List ℕ} {cl cl' : Cluster} {a : Action}

theorem leaders_subset_of_step (hs : cl.step lib ids a = some cl') : cl.leaders ⊆ cl'.leaders := by
  obtain ⟨eff, -, -, -, rfl⟩ := step_eq_some hs
  rw [leaders, leaders, apply, List.filterMap_append]
  exact List.subset_append_left _ _

theorem KeepsBallots.currentTerm_le (h : cl.KeepsBallots ids a)
    (hs : cl.step lib ids a = some cl') (x : ℕ) :
    (cl.nodes x).state.currentTerm ≤ (cl'.nodes x).state.currentTerm := by
  obtain ⟨eff, -, -, hstep, rfl⟩ := step_eq_some hs
  by_cases hx : x = a.node
  · subst hx
    simpa only [apply, Function.update_self] using
      (RaftNode.transition_of_step hstep).currentTerm_le_iff.mpr h.keepsTerm
  · simp only [apply, Function.update_of_ne hx, le_refl]

end Cluster

namespace QueryCluster

variable {lib : WireLib} {display : Status → String} {ids : List ℕ} {config : ℕ → NodeConfig}
  {qc qc' : QueryCluster}

structure Inv (ids : List ℕ) (qc : QueryCluster) : Prop where
  ballots : qc.cluster.HasBallots ids
  names : qc.cluster.HasNames ids
  queries : ∀ q ∈ qc.queries, ∃ terms, q.Inv ids qc.cluster terms

theorem inv_start (ids : List ℕ) : (start ids).Inv ids :=
  ⟨Cluster.hasBallots_start ids, Cluster.hasNames_start ids, fun _ hq => absurd hq List.not_mem_nil⟩

theorem Inv.step (hids : ids.Nodup)
    (hconfig : ∀ x, ∀ p ∈ (config x).peers, p.nodeId ∈ peersOf ids x) (h : qc.Inv ids)
    {a : QueryAction} (hkeep : qc.KeepsBallots ids a)
    (hs : qc.step lib display ids config a = some qc') : qc'.Inv ids := by
  cases a with
  | raft a =>
    obtain ⟨cl', hcl, rfl⟩ := Option.map_eq_some_iff.mp hs
    refine ⟨h.ballots.step hids hkeep hcl, h.names.step h.ballots.oneLeaderPerTerm hkeep hcl,
      fun q hq => ?_⟩
    obtain ⟨terms, hinv⟩ := h.queries q hq
    exact ⟨terms, hinv.mono (Cluster.leaders_subset_of_step hcl)
      (Cluster.KeepsBallots.currentTerm_le hkeep hcl)⟩
  | ask x request =>
    simp only [QueryCluster.step] at hs
    split_ifs at hs with hx
    obtain rfl := Option.some.inj hs
    refine ⟨h.ballots, h.names, fun q hq => ?_⟩
    rcases List.mem_append.mp hq with hold | hnew
    · exact h.queries q hold
    · obtain rfl := List.mem_singleton.mp hnew
      exact ⟨[], hx, fun y hy => absurd hy List.not_mem_nil, .nil, .nil,
        fun T hT => absurd hT List.not_mem_nil⟩
  | query c ev =>
    obtain ⟨q, hq, hs⟩ := Option.bind_eq_some_iff.mp hs
    obtain ⟨q', hq', hs⟩ := Option.bind_eq_some_iff.mp hs
    obtain rfl := Option.some.inj hs
    refine ⟨h.ballots, h.names, fun r hr => ?_⟩
    rcases List.mem_or_eq_of_mem_set hr with hold | rfl
    · exact h.queries r hold
    · obtain ⟨terms, hinv⟩ := h.queries q (List.mem_of_getElem? hq)
      exact hinv.step h.names hconfig hq'

/-- In a run of the cluster in which at most one node leads each term and no term falls, the nodes
a query is forwarded to have won elections in ever greater terms, each in a term that the
forwarding node had reached, so there are at most as many forwards as elections. The leader of an
answered status has won a term not after the reported one and not before that of any forward. -/
theorem forwards_follow_elections (lib : WireLib) (display : Status → String) (hids : ids.Nodup)
    (hconfig : ∀ x, ∀ p ∈ (config x).peers, p.nodeId ∈ peersOf ids x)
    (h : Runs.Reach (step lib display ids config) (KeepsBallots ids) (start ids) qc) {q : Query}
    (hq : q ∈ qc.queries) :
    q.hops.length ≤ qc.cluster.leaders.length ∧
      ∃ terms : List ℕ, terms.Pairwise (· > ·) ∧
        List.Forall₂ (fun T hop => T ≤ hop.term ∧ (T, hop.leaderId) ∈ qc.cluster.leaders) terms
          q.hops ∧
        ∀ resp, q.stage = .returning (.ok (.clusterStatus resp)) →
          ∃ S ≤ resp.currentTerm, (S, resp.leaderId) ∈ qc.cluster.leaders ∧ ∀ T ∈ terms, T ≤ S := by
  have hinv : qc.Inv ids :=
    h.invariant (inv_start ids) fun hinv hkeep hs => hinv.step hids hconfig hkeep hs
  obtain ⟨terms, hquery⟩ := hinv.queries q hq
  refine ⟨hquery.length_hops_le, terms, hquery.decreasing, hquery.hops, fun resp hresp => ?_⟩
  have hstage := hquery.stage
  rw [hresp] at hstage
  exact hstage

def threeNodes (x : ℕ) : NodeConfig :=
  ⟨x, "n", (peersOf [1, 2, 3] x).map fun y => ⟨y, "n"⟩⟩

def staleNames : List Action :=
  Cluster.electedBy 1 2 1 0 0 ++ [⟨1, .heartbeatTick⟩,
    ⟨3, .deliver 0 1 (.appendEntries .heartbeat ⟨1, 1, 0, 0, [], 0⟩)⟩] ++
    Cluster.electedBy 2 3 2 0 0 ++ [⟨2, .heartbeatTick⟩,
    ⟨1, .deliver 0 2 (.appendEntries .heartbeat ⟨2, 2, 0, 0, [], 0⟩)⟩]

theorem forwards_follow_two_elections :
    ∃ qc q, Runs.Reach (step .standard Status.message [1, 2, 3] threeNodes) (KeepsBallots [1, 2, 3])
        (start [1, 2, 3]) qc ∧ q ∈ qc.queries ∧ q.hops = [⟨1, 2, 2⟩, ⟨3, 2, 1⟩] ∧
      q.hops.length ≤ qc.cluster.leaders.length ∧ ∃ terms : List ℕ, terms.Pairwise (· > ·) ∧
        List.Forall₂ (fun T hop => T ≤ hop.term ∧ (T, hop.leaderId) ∈ qc.cluster.leaders) terms
          q.hops := by
  obtain ⟨qc, hreach, hhops⟩ := Runs.exists_reach_of_guardedRun
    (step .standard Status.message [1, 2, 3] threeNodes) (KeepsBallots [1, 2, 3])
    (fun qc => (qc.queries.any fun q => q.hops = [⟨1, 2, 2⟩, ⟨3, 2, 1⟩]) = true) (start [1, 2, 3])
    (staleNames.map .raft ++ [.ask 3 .clusterStatus] ++
      [.checkLeader, .nameLeader, .deliver, .checkLeader, .nameLeader, .deliver, .checkLeader,
        .answer ∅ 0, .reply, .reply].map (.query 0))
    (by decide +kernel)
  obtain ⟨q, hq, heq⟩ := List.any_eq_true.mp hhops
  obtain ⟨hle, terms, hdecreasing, hhops, -⟩ := forwards_follow_elections .standard Status.message
    (by decide) (fun x p hp => by obtain ⟨y, hy, rfl⟩ := List.mem_map.mp hp; exact hy) hreach hq
  exact ⟨qc, q, hreach, hq, of_decide_eq_true heq, hle, terms, hdecreasing, hhops⟩

end QueryCluster
end NomadLite
