/-
**What the parser makes of a well-formed reply to `CLUSTER NODES`.**

The nodes that are marked as failed, without an address or disconnected are to be left out, and the map is to
have an entry for each of the others that says what its line says and lists the addresses of its replicas.
-/

import Mathlib.Data.List.TakeWhile
import BackendProgramming.ClusterNodesLine

set_option autoImplicit false

namespace GBDownLinker

open CText StdString Function List

/-! ### What the result is to be -/

def replyText (nodes : List Node) : Bytes := nodes.flatMap fun node => node.text ++ [10]

def nodesReply (nodes : List Node) : RedisReplyInfo where
  replyType := .string
  arrayList := [⟨.string, some (replyText nodes), (replyText nodes).length⟩]

def kept (nodes : List Node) : List Node := nodes.filter fun node => ¬ node.IsMarked

def Node.IsReplicaOf (node : Node) (id : Bytes) : Prop :=
  node.role.isMaster = false ∧ node.role.masterId = id

instance (node : Node) (id : Bytes) : Decidable (node.IsReplicaOf id) :=
  inferInstanceAs (Decidable (_ ∧ _))

structure Describes (nodes : List Node) (node : Node) (info : RedisClusterInfo) : Prop where
  clusterId : info.clusterId = node.id.bytes
  connectIp : info.connectIp = node.ip.bytes
  connectPort : info.connectPort = node.port
  isMaster : info.isMaster = node.role.isMaster
  masterClusterId : info.masterClusterId = node.role.masterId
  slotMap : Covers info.slotMap node.role.slots
  bakClusterList : info.bakClusterList.Perm
    (((kept nodes).filter fun replica => replica.IsReplicaOf node.id.bytes).map Node.address)

structure Exact (nodes : List Node) (result : Bool × ClusterMap) : Prop where
  success : result.1 = true
  keys : result.2.keys.Perm ((kept nodes).map Node.address)
  entries : ∀ node ∈ kept nodes, ∃ info, (node.address, info) ∈ result.2.entries ∧
    Describes nodes node info

/-! ### The loop over the lines -/

def Node.IsLeftOut (node : Node) : Prop := node.IsMarked ∨ Mark.nofailover ∈ node.marks

instance (node : Node) : Decidable node.IsLeftOut := inferInstanceAs (Decidable (_ ∨ _))

def readNodes (nodes : List Node) : List Node := nodes.filter fun node => ¬ node.IsLeftOut

def addAll (params : ConnectionParams) (maps : ClusterMaps) (nodes : List Node) : ClusterMaps :=
  nodes.foldl (fun maps node => maps.add params node.entry) maps

theorem Node.text_ne_cr (node : Node) : node.text ≠ ascii "\r" := fun h =>
  absurd (Node.le_of_mem_text (h ▸ mem_singleton.2 rfl : (13 : UInt8) ∈ node.text)) (by decide)

theorem Node.lf_notMem_text (node : Node) : 10 ∉ node.text := fun h =>
  absurd (Node.le_of_mem_text h) (by decide)

theorem connected_of_not_isMarked {node : Node} (h : ¬ node.IsMarked) : node.connected = true := by
  by_contra hc
  exact h (Or.inr (Or.inr (Or.inr (by simpa using hc))))

theorem lineLoop_text (params : ConnectionParams) {str : Bytes} {nodes : List Node} {fuel pos : ℕ}
    (hfuel : nodes.length < fuel) (hpos : str.drop pos = replyText nodes) (maps : ClusterMaps) :
    lineLoop params str fuel pos maps =
      if ∃ node ∈ readNodes nodes, node.role = .master [] then none
      else some (addAll params maps (readNodes nodes)) := by
  induction nodes generalizing fuel pos maps with
  | nil =>
    obtain ⟨fuel, rfl⟩ : ∃ n, fuel = n + 1 := ⟨fuel - 1, (Nat.sub_add_cancel hfuel).symm⟩
    have hfind : find str (ascii "\n") pos = none := find_last (by rw [hpos]; simp [replyText])
    rw [lineLoop, hfind]
    simp [readNodes, addAll]
  | cons node nodes ih =>
    obtain ⟨fuel, rfl⟩ : ∃ n, fuel = n + 1 := ⟨fuel - 1, by omega⟩
    have hfuel' : nodes.length < fuel := by simpa using hfuel
    have htext : str.drop pos = node.text ++ 10 :: replyText nodes := by
      rw [hpos]
      simp [replyText]
    have hfind : find str (ascii "\n") pos = some (pos + node.text.length) :=
      find_field htext node.lf_notMem_text
    have hrest := drop_field htext
    rw [lineLoop, hfind]
    dsimp only
    rw [substr_field htext, if_neg node.text_ne_cr]
    by_cases hskip : node.IsLeftOut
    · have hread : readNodes (node :: nodes) = readNodes nodes := by simp [readNodes, hskip]
      rw [if_pos ((isSkipped_text node).2 hskip), hread]
      exact ih hfuel' hrest maps
    · have hread : readNodes (node :: nodes) = node :: readNodes nodes := by
        simp [readNodes, hskip]
      rw [if_neg fun h => hskip ((isSkipped_text node).1 h), hread,
        Node.parseOneCluster_text (connected_of_not_isMarked fun h => hskip (Or.inl h))]
      by_cases hempty : node.role = .master []
      · simp [hempty]
      · simp only [hempty, if_false, ih hfuel' hrest, exists_mem_cons_iff, false_or]
        rfl

/-! ### The maps after the loop -/

def Node.info (params : ConnectionParams) (node : Node) : RedisClusterInfo :=
  { node.entry with
    connectionNum := params.connectionNum
    connectTimeout := params.connectTimeout
    readTimeout := params.readTimeout }

def Node.clusterPair (params : ConnectionParams) (node : Node) : Bytes × RedisClusterInfo :=
  (node.entry.address, node.info params)

def Node.bakPair (node : Node) : Bytes × Bytes := (node.entry.address, node.role.masterId)

theorem addAll_eq (params : ConnectionParams) (maps : ClusterMaps) (nodes : List Node) :
    (addAll params maps nodes).clusterMap =
      maps.clusterMap.assignAll (nodes.map (Node.clusterPair params)) ∧
    (addAll params maps nodes).bakMap =
      maps.bakMap.assignAll ((nodes.filter fun node => !node.role.isMaster).map Node.bakPair) := by
  induction nodes generalizing maps with
  | nil => exact ⟨rfl, rfl⟩
  | cons node nodes ih =>
    obtain ⟨hcluster, hbak⟩ := ih (maps.add params node.entry)
    refine ⟨hcluster, ?_⟩
    rw [addAll, foldl_cons, ← addAll, hbak]
    cases hrole : node.role with
    | master slots =>
      simp [ClusterMaps.add, Node.entry, hrole, Role.isMaster]
    | replica masterId =>
      simp [ClusterMaps.add, Node.entry, hrole, Role.isMaster, Role.masterId, masterId.ne_nil,
        StdMap.assignAll, Node.bakPair]

/-! ### The second pass -/

def withBaks (baks : List (Bytes × Bytes)) (info : RedisClusterInfo) : RedisClusterInfo :=
  { info with
    bakClusterList := info.bakClusterList ++ (baks.filter (·.2 = info.clusterId)).map Prod.fst }

theorem link_eq (maps : ClusterMaps) :
    maps.link = maps.clusterMap.update (withBaks maps.bakMap.entries) := by
  unfold ClusterMaps.link
  generalize maps.bakMap.entries = baks
  generalize maps.clusterMap = clusterMap
  induction baks generalizing clusterMap with
  | nil =>
    have hnil : withBaks [] = fun info => info := by
      funext info
      simp [withBaks]
    rw [hnil, StdMap.update_id]
    rfl
  | cons bak baks ih =>
    rw [foldl_cons, ih, StdMap.update_update]
    congr 1
    funext info
    by_cases h : info.clusterId = bak.2
    · simp [withBaks, h]
    · simp [withBaks, h, Ne.symm h]

/-! ### The result -/

theorem ne_zero_of_mem_replyText {nodes : List Node} {b : UInt8} (h : b ∈ replyText nodes) : b ≠ 0 := by
  obtain ⟨node, -, h⟩ := mem_flatMap.1 h
  rcases mem_append.1 h with h | h
  · rintro rfl
    exact absurd (Node.le_of_mem_text h) (by decide)
  · rw [mem_singleton.1 h]
    decide

theorem length_le_replyText (nodes : List Node) : nodes.length ≤ (replyText nodes).length := by
  induction nodes with
  | nil => exact Nat.le_refl _
  | cons node nodes ih =>
    simp only [replyText, flatMap_cons, length_append, length_cons] at ih ⊢
    omega

theorem parseClusterInfo_nodes (params : ConnectionParams) (nodes : List Node) :
    parseClusterInfo params (nodesReply nodes) =
      if nodes = [] ∨ ∃ node ∈ readNodes nodes, node.role = .master [] then (false, ∅)
      else (true, (addAll params {} (readNodes nodes)).link) := by
  by_cases hnil : nodes = []
  · subst hnil
    rfl
  · have hlength := length_le_replyText nodes
    have hpos : 0 < nodes.length := length_pos_iff.2 hnil
    have htext : (replyText nodes).takeWhile (· ≠ 0) = replyText nodes :=
      takeWhile_eq_self_iff.2 fun b hb => by simpa using ne_zero_of_mem_replyText hb
    have hloop : lineLoop params (replyText nodes) ((replyText nodes).length + 1) 0 {} = _ :=
      lineLoop_text params (Nat.lt_succ_of_le hlength) rfl {}
    have hcheck : ¬ ((RedisReplyType.string ≠ .string) ∨ ((replyText nodes).length : ℤ) = 0) := by
      simp only [ne_eq, not_true_eq_false, false_or]
      omega
    rw [parseClusterInfo, nodesReply]
    dsimp only [Option.getD_some]
    rw [if_neg hcheck, htext, hloop]
    by_cases hempty : ∃ node ∈ readNodes nodes, node.role = .master []
    · simp [hempty]
    · simp [hempty, hnil]

structure Readable (nodes : List Node) : Prop where
  ne_nil : nodes ≠ []
  addresses : ((kept nodes).map Node.address).Nodup
  nofailover : ∀ node ∈ kept nodes, Mark.nofailover ∉ node.marks
  ip : ∀ node ∈ kept nodes, 58 ∉ node.ip.bytes
  slots : ∀ node ∈ kept nodes, node.role ≠ .master []
  covers : ∀ node ∈ kept nodes, Covers node.readSlots node.role.slots

section Exactness

variable {params : ConnectionParams} {nodes : List Node}

theorem readNodes_eq_filter (nodes : List Node) :
    readNodes nodes = (kept nodes).filter fun node => Mark.nofailover ∉ node.marks := by
  rw [readNodes, kept, filter_filter]
  exact filter_congr fun node _ => by
    rw [Bool.eq_iff_iff]
    simp [Node.IsLeftOut, and_comm]

theorem exists_of_mem_link {k : Bytes} {info : RedisClusterInfo}
    (h : (k, info) ∈ (addAll params {} (readNodes nodes)).link.entries) :
    ∃ node ∈ readNodes nodes, k = node.entry.address ∧ ∃ baks, info = withBaks baks (node.info params) := by
  rw [link_eq, StdMap.mem_update] at h
  obtain ⟨info₀, h, rfl⟩ := h
  rw [(addAll_eq params {} (readNodes nodes)).1] at h
  rcases StdMap.mem_or_mem_of_mem_assignAll h with h | h
  · obtain ⟨node, hnode, heq⟩ := mem_map.1 h
    cases heq
    exact ⟨node, hnode, rfl, _, rfl⟩
  · cases h

theorem readable_of_exact (h : Exact nodes (parseClusterInfo params (nodesReply nodes))) :
    Readable nodes := by
  rw [parseClusterInfo_nodes] at h
  split at h
  case isTrue => exact absurd h.success (by simp)
  case isFalse hok =>
    rw [not_or, not_exists] at hok
    obtain ⟨hnil, hslots⟩ := hok
    have haddresses : ((kept nodes).map Node.address).Nodup := h.keys.nodup_iff.1 (StdMap.nodup _)
    -- the map has at most one entry for each line that is read, so no line is left out
    have hcount : (kept nodes).length ≤ (readNodes nodes).length := by
      have hkeys := h.keys.length_eq
      have hle := StdMap.length_assignAll_le (∅ : ClusterMap)
        ((readNodes nodes).map (Node.clusterPair params))
      rw [← (addAll_eq params {} (readNodes nodes)).1] at hle
      rw [link_eq, StdMap.keys_update, StdMap.keys, length_map, length_map] at hkeys
      rw [length_map, hkeys] at hle
      simpa using hle
    have hread : readNodes nodes = kept nodes := by
      rw [readNodes_eq_filter] at hcount ⊢
      exact filter_sublist.eq_of_length_le hcount
    have hip : ∀ node ∈ kept nodes, 58 ∉ node.ip.bytes := by
      intro node hnode
      obtain ⟨info, hmem, hdescribes⟩ := h.entries node hnode
      obtain ⟨node', -, -, baks, rfl⟩ := exists_of_mem_link hmem
      rw [← hdescribes.connectIp]
      exact node'.colon_notMem_connectIp
    refine ⟨hnil, haddresses, fun node hnode => ?_, hip, fun node hnode hrole => ?_,
      fun node hnode => ?_⟩
    · rw [← hread, readNodes_eq_filter] at hnode
      simpa using (mem_filter.1 hnode).2
    · exact hslots node ⟨hread ▸ hnode, hrole⟩
    · obtain ⟨info, hmem, hdescribes⟩ := h.entries node hnode
      obtain ⟨node', hnode', haddress, baks, rfl⟩ := exists_of_mem_link hmem
      rw [hread] at hnode'
      rw [Node.entry_address (hip node' hnode')] at haddress
      obtain rfl := inj_on_of_nodup_map haddresses hnode hnode' haddress
      exact hdescribes.slotMap

theorem baks_perm {baks : List (Bytes × Bytes)} {kept : List Node} (id : Bytes)
    (hbaks : baks.Perm ((kept.filter fun node => !node.role.isMaster).map Node.bakPair))
    (haddress : ∀ node ∈ kept, node.entry.address = node.address) :
    ((baks.filter (·.2 = id)).map Prod.fst).Perm
      ((kept.filter fun replica => replica.IsReplicaOf id).map Node.address) := by
  refine ((hbaks.filter _).map _).trans (Perm.of_eq ?_)
  rw [filter_map, map_map, filter_filter]
  have hfilter : (kept.filter fun node =>
      ((fun x : Bytes × Bytes => decide (x.2 = id)) ∘ Node.bakPair) node && !node.role.isMaster) =
        kept.filter fun replica => replica.IsReplicaOf id :=
    filter_congr fun node _ => by
      rw [Bool.eq_iff_iff, Bool.and_eq_true, comp_apply, decide_eq_true_iff,
        decide_eq_true_iff, Bool.not_eq_true']
      exact and_comm
  rw [hfilter]
  exact map_congr_left fun node hnode => haddress node (mem_of_mem_filter hnode)

theorem exact_of_readable (h : Readable nodes) :
    Exact nodes (parseClusterInfo params (nodesReply nodes)) := by
  have hread : readNodes nodes = kept nodes := by
    rw [readNodes_eq_filter]
    exact filter_eq_self.2 fun node hnode => by simpa using h.nofailover node hnode
  have hok : ¬ (nodes = [] ∨ ∃ node ∈ readNodes nodes, node.role = .master []) := by
    rintro (hnil | ⟨node, hnode, hrole⟩)
    · exact h.ne_nil hnil
    · exact h.slots node (hread ▸ hnode) hrole
  have haddress : ∀ node ∈ kept nodes, node.entry.address = node.address := fun node hnode =>
    Node.entry_address (h.ip node hnode)
  have hkeys : (kept nodes).map (fun node => node.entry.address) = (kept nodes).map Node.address :=
    map_congr_left haddress
  obtain ⟨hclusterMap, hbakMap⟩ := addAll_eq params {} (kept nodes)
  have hclusters : (addAll params {} (kept nodes)).clusterMap.entries.Perm
      ((kept nodes).map (Node.clusterPair params)) := by
    have := StdMap.assignAll_perm (m := (∅ : ClusterMap))
      (l := (kept nodes).map (Node.clusterPair params))
      (by simpa [comp_def, Node.clusterPair, hkeys] using h.addresses) (by simp [StdMap.keys])
    rw [hclusterMap]
    simpa using this
  have hbaks : (addAll params {} (kept nodes)).bakMap.entries.Perm
      (((kept nodes).filter fun node => !node.role.isMaster).map Node.bakPair) := by
    have hsub : (((kept nodes).filter fun node => !node.role.isMaster).map fun node =>
        node.entry.address).Nodup :=
      (hkeys ▸ h.addresses).sublist (filter_sublist.map _)
    have := StdMap.assignAll_perm (m := (∅ : StdMap Bytes Bytes))
      (l := ((kept nodes).filter fun node => !node.role.isMaster).map Node.bakPair)
      (by simpa [comp_def, Node.bakPair] using hsub) (by simp [StdMap.keys])
    rw [hbakMap]
    simpa using this
  rw [parseClusterInfo_nodes, if_neg hok, hread]
  refine ⟨rfl, ?_, fun node hnode => ⟨withBaks (addAll params {} (kept nodes)).bakMap.entries
    (node.info params), ?_, ?_⟩⟩
  · have := hclusters.map Prod.fst
    rw [map_map] at this
    rw [link_eq, StdMap.keys_update, ← hkeys]
    exact this
  · rw [link_eq, StdMap.mem_update]
    refine ⟨node.info params, hclusters.mem_iff.2 (mem_map.2 ⟨node, hnode, ?_⟩), rfl⟩
    rw [Node.clusterPair, haddress node hnode]
  · have hparse := Node.parseAddress_text (h.ip node hnode)
    exact
      { clusterId := rfl
        connectIp := congrArg Prod.fst hparse
        connectPort := congrArg Prod.snd hparse
        isMaster := rfl
        masterClusterId := rfl
        slotMap := h.covers node hnode
        bakClusterList := baks_perm node.id.bytes hbaks haddress }

end Exactness

def sampleMaster (port : Fin 65536) (slots : List SlotToken) : Node where
  id := ⟨⟨ascii "07c3", forall_mem_of_all rfl⟩, by decide⟩
  ip := ⟨ascii "10.0.0.1", forall_mem_of_all rfl⟩
  port := port
  busPort := some (port + 10000)
  marksBefore := []
  marksAfter := []
  role := .master slots
  times := [0, 1426238317239, 4]
  connected := true

end GBDownLinker
