/-
**Switching the master.**

`RedisClient::DoSwitchMaster` makes an address the master and opens a connection pool to it.  The name is written
before the pool is opened, an address that is not among the data nodes gets an entry with the address of the
*initial* master, and a pool that could not be opened keeps the objects that `initConnectPool` has deleted.
-/

import BackendProgramming.Lts
import BackendProgramming.ClusterNodes

set_option autoImplicit false

namespace GBDownLinker

open CText List

/-! ### Opening a pool -/

structure PoolConnection where
  serverIp : Bytes
  serverPort : ℕ
  deleted : Bool := false
deriving DecidableEq

structure RedisCluster where
  clusterIp : Bytes := []
  clusterPort : ℕ := 0
  connections : List PoolConnection := []
deriving DecidableEq

def openConnections (clusterIp : Bytes) (clusterPort : ℕ) :
    ℕ → List Bool → List PoolConnection → Bool × List PoolConnection
  | 0, _, connections => (true, connections)
  | n + 1, true :: connects, connections =>
    openConnections clusterIp clusterPort n connects (connections ++ [⟨clusterIp, clusterPort, false⟩])
  | _ + 1, _, connections => (false, connections)

def RedisCluster.initConnectPool (pool : RedisCluster) (clusterIp : Bytes) (clusterPort connectionNum : ℕ)
    (connects : List Bool) : Option (Bool × RedisCluster) :=
  match openConnections clusterIp clusterPort connectionNum connects pool.connections with
  | (true, connections) => some (true, ⟨clusterIp, clusterPort, connections⟩)
  | (false, connections) =>
    if connections.any (·.deleted) then none
    else some (false, { pool with connections := connections.map ({ · with deleted := true }) })

def opened (connects : List Bool) : ℕ := (connects.takeWhile id).length

theorem openConnections_eq (clusterIp : Bytes) (clusterPort : ℕ) :
    ∀ (n : ℕ) (connects : List Bool) (connections : List PoolConnection),
      openConnections clusterIp clusterPort n connects connections =
        (decide (n ≤ opened connects),
          connections ++ replicate (min n (opened connects)) ⟨clusterIp, clusterPort, false⟩) := by
  intro n
  induction n with
  | zero => intro connects connections; simp [openConnections]
  | succ n ih =>
    intro connects connections
    match connects with
    | [] => simp [openConnections, opened]
    | false :: connects => simp [openConnections, opened]
    | true :: connects =>
      have hopened : opened (true :: connects) = opened connects + 1 := by simp [opened]
      rw [openConnections, ih, hopened]
      simp [Nat.add_min_add_right, replicate_succ]

def openPool (clusterIp : Bytes) (clusterPort connectionNum : ℕ) : RedisCluster where
  clusterIp := clusterIp
  clusterPort := clusterPort
  connections := replicate connectionNum ⟨clusterIp, clusterPort, false⟩

/-! ### The function -/

structure RedisServerInfo where
  serverIp : Bytes := []
  serverPort : ℕ := 0
deriving DecidableEq

structure RedisProxyInfo where
  proxyId : Bytes := []
  connectIp : Bytes := []
  connectPort : ℕ := 0
  clusterHandler : Option RedisCluster := none
  isAlived : Bool := false
deriving DecidableEq

def addressId (addr : RedisServerInfo) : Bytes := addr.serverIp ++ ascii ":" ++ toStr addr.serverPort

structure MasterState where
  initMasterAddr : RedisServerInfo := {}
  connectionNum : ℕ := 0
  masterClusterId : Bytes := []
  dataNodes : StdMap Bytes RedisProxyInfo := ∅

def MasterState.masterNode (σ : MasterState) (clusterId : Bytes) : RedisProxyInfo :=
  (σ.dataNodes.get? clusterId).getD
    { proxyId := clusterId
      connectIp := σ.initMasterAddr.serverIp
      connectPort := σ.initMasterAddr.serverPort }

def MasterState.setMaster (σ : MasterState) (clusterId : Bytes) (node : RedisProxyInfo) : MasterState :=
  { σ with masterClusterId := clusterId, dataNodes := σ.dataNodes.assign clusterId node }

structure SwitchCall where
  masterAddr : RedisServerInfo
  connects : List Bool := []

def doSwitchMaster (σ : MasterState) (call : SwitchCall) : Option (Bool × MasterState) :=
  let masterClusterId := addressId call.masterAddr
  if σ.masterClusterId = masterClusterId then some (true, σ)
  else
    let masterNode := σ.masterNode masterClusterId
    if masterNode.isAlived then some (true, σ.setMaster masterClusterId masterNode)
    else
      let clusterHandler := masterNode.clusterHandler.getD {}
      (clusterHandler.initConnectPool masterNode.connectIp masterNode.connectPort σ.connectionNum
          call.connects).map fun (ok, clusterHandler) =>
        (ok, σ.setMaster masterClusterId
          { masterNode with clusterHandler := some clusterHandler, isAlived := ok })

def switchStep (σ : MasterState) (call : SwitchCall) : Option MasterState :=
  (doSwitchMaster σ call).map Prod.snd

def MasterState.Attempts (σ : MasterState) (clusterId : Bytes) : Prop :=
  σ.masterClusterId ≠ clusterId ∧ (σ.masterNode clusterId).isAlived = false

instance (σ : MasterState) (clusterId : Bytes) : Decidable (σ.Attempts clusterId) :=
  inferInstanceAs (Decidable (_ ∧ _))

def attempts (clusterId : Bytes) : MasterState → List SwitchCall → List (List Bool)
  | _, [] => []
  | σ, call :: calls =>
    (if addressId call.masterAddr = clusterId ∧ σ.Attempts clusterId then [call.connects] else []) ++
      match switchStep σ call with
      | none => []
      | some σ' => attempts clusterId σ' calls

structure MasterState.OpenTo (σ : MasterState) (addr : RedisServerInfo) : Prop where
  master : σ.masterClusterId = addressId addr
  node : ∃ node, σ.dataNodes.get? (addressId addr) = some node ∧ node.isAlived = true ∧
    node.connectIp = addr.serverIp ∧ node.connectPort = addr.serverPort ∧
    node.clusterHandler = some (openPool addr.serverIp addr.serverPort σ.connectionNum)

/-! ### One call -/

@[simp] theorem masterNode_setMaster_self (σ : MasterState) (clusterId : Bytes) (node : RedisProxyInfo) :
    (σ.setMaster clusterId node).masterNode clusterId = node := by
  simp [MasterState.masterNode, MasterState.setMaster, StdMap.get?_assign]

theorem masterNode_setMaster_ne {σ : MasterState} {clusterId clusterId' : Bytes} {node : RedisProxyInfo}
    (hne : clusterId' ≠ clusterId) :
    (σ.setMaster clusterId node).masterNode clusterId' = σ.masterNode clusterId' := by
  simp [MasterState.masterNode, MasterState.setMaster, StdMap.get?_assign, hne]

theorem doSwitchMaster_cases {σ σ' : MasterState} {call : SwitchCall} {ok : Bool}
    (h : doSwitchMaster σ call = some (ok, σ')) :
    (¬ σ.Attempts (addressId call.masterAddr) ∧ ok = true ∧ σ.masterClusterId = addressId call.masterAddr ∧
      σ' = σ) ∨
    (¬ σ.Attempts (addressId call.masterAddr) ∧ ok = true ∧
      σ' = σ.setMaster (addressId call.masterAddr) (σ.masterNode (addressId call.masterAddr))) ∨
    (σ.Attempts (addressId call.masterAddr) ∧ ∃ pool,
      ((σ.masterNode (addressId call.masterAddr)).clusterHandler.getD {}).initConnectPool
        (σ.masterNode (addressId call.masterAddr)).connectIp
        (σ.masterNode (addressId call.masterAddr)).connectPort σ.connectionNum call.connects =
          some (ok, pool) ∧
      σ' = σ.setMaster (addressId call.masterAddr)
        { σ.masterNode (addressId call.masterAddr) with clusterHandler := some pool, isAlived := ok }) := by
  simp only [doSwitchMaster] at h
  split at h
  · next hmaster =>
    cases h
    exact Or.inl ⟨fun hattempts => hattempts.1 hmaster, rfl, hmaster, rfl⟩
  · next hmaster =>
    split at h
    · next halive =>
      cases h
      exact Or.inr (Or.inl ⟨fun hattempts => by simp [hattempts.2] at halive, rfl, rfl⟩)
    · next halive =>
      obtain ⟨⟨ok', pool⟩, hpool, heq⟩ := Option.map_eq_some_iff.1 h
      cases heq
      exact Or.inr (Or.inr ⟨⟨hmaster, by simpa using halive⟩, pool, hpool, rfl⟩)

theorem doSwitchMaster_frame {σ σ' : MasterState} {call : SwitchCall} {ok : Bool}
    (h : doSwitchMaster σ call = some (ok, σ')) :
    σ'.connectionNum = σ.connectionNum ∧ σ'.masterClusterId = addressId call.masterAddr ∧
    ∀ clusterId, clusterId ≠ addressId call.masterAddr → σ'.masterNode clusterId = σ.masterNode clusterId := by
  obtain ⟨-, -, hmaster, rfl⟩ | ⟨-, -, rfl⟩ | ⟨-, pool, -, rfl⟩ := doSwitchMaster_cases h
  · exact ⟨rfl, hmaster, fun _ _ => rfl⟩
  · exact ⟨rfl, rfl, fun _ hne => masterNode_setMaster_ne hne⟩
  · exact ⟨rfl, rfl, fun _ hne => masterNode_setMaster_ne hne⟩

/-! ### A node and the attempts made -/

structure Tracks (connectionNum : ℕ) (first : RedisProxyInfo) (tried : List (List Bool))
    (node : RedisProxyInfo) : Prop where
  connectIp : node.connectIp = first.connectIp
  connectPort : node.connectPort = first.connectPort
  kept : first.isAlived = true → node = first
  alive : first.isAlived = false → (node.isAlived = true ↔ ∃ connects ∈ tried, connectionNum ≤ opened connects)
  pool : first.isAlived = false → ∃ rest : List PoolConnection,
    (rest = [] ↔ (first.clusterHandler.getD {}).connections = [] ∧
      ∀ connects ∈ tried, ¬ (0 < opened connects ∧ opened connects < connectionNum)) ∧
    if node.isAlived then
      node.clusterHandler = some ⟨first.connectIp, first.connectPort,
        rest ++ replicate connectionNum ⟨first.connectIp, first.connectPort, false⟩⟩
    else (node.clusterHandler.getD {}).connections = rest

theorem Tracks.refl (connectionNum : ℕ) (first : RedisProxyInfo) : Tracks connectionNum first [] first where
  connectIp := rfl
  connectPort := rfl
  kept := fun _ => rfl
  alive := by simp
  pool := by
    intro hdead
    refine ⟨(first.clusterHandler.getD {}).connections, by simp, ?_⟩
    rw [if_neg (by simp [hdead])]

theorem Tracks.attempt {connectionNum : ℕ} {first node : RedisProxyInfo} {tried : List (List Bool)}
    {connects : List Bool} {ok : Bool} {pool : RedisCluster} (h : Tracks connectionNum first tried node)
    (hdead : node.isAlived = false)
    (hpool : (node.clusterHandler.getD {}).initConnectPool node.connectIp node.connectPort connectionNum
      connects = some (ok, pool)) :
    Tracks connectionNum first (tried ++ [connects])
      { node with clusterHandler := some pool, isAlived := ok } := by
  have hfirst : first.isAlived = false := by
    by_contra hfirst
    have hkept := h.kept (by simpa using hfirst)
    simp [← hkept, hdead] at hfirst
  have htried : ¬ ∃ connects ∈ tried, connectionNum ≤ opened connects := by
    rw [← h.alive hfirst]
    simp [hdead]
  obtain ⟨rest, hrest, hconnections⟩ := h.pool hfirst
  rw [if_neg (by simp [hdead])] at hconnections
  rw [RedisCluster.initConnectPool, openConnections_eq, h.connectIp, h.connectPort, hconnections] at hpool
  by_cases hok : connectionNum ≤ opened connects
  · -- all connections are opened, behind what the pool still holds
    rw [decide_eq_true hok, min_eq_left hok] at hpool
    cases hpool
    refine ⟨h.connectIp, h.connectPort, fun halive => ?_, fun _ => ?_, fun _ => ⟨rest, ?_, rfl⟩⟩
    · simp [hfirst] at halive
    · exact ⟨fun _ => ⟨connects, by simp, hok⟩, fun _ => rfl⟩
    · rw [hrest]
      simp only [forall_mem_append, forall_mem_singleton]
      have : ¬ (0 < opened connects ∧ opened connects < connectionNum) := fun hlt => by omega
      simp [this]
  · rw [decide_eq_false hok, min_eq_right (by omega)] at hpool
    obtain ⟨-, heq⟩ := Option.ite_none_left_eq_some.1 hpool
    cases heq
    refine ⟨h.connectIp, h.connectPort, fun halive => ?_, fun _ => ?_, fun _ => ⟨_, ?_, rfl⟩⟩
    · simp [hfirst] at halive
    · constructor
      · exact nofun
      · rintro ⟨connects', hmem, hle⟩
        obtain hmem | hmem := mem_append.1 hmem
        · exact absurd ⟨connects', hmem, hle⟩ htried
        · rw [mem_singleton.1 hmem] at hle
          exact absurd hle hok
    · -- nothing is left behind exactly when nothing was there and nothing was opened
      have hempty (l : List PoolConnection) (f : PoolConnection → PoolConnection) :
          l.map f = [] ↔ l = [] := map_eq_nil_iff
      simp only [Option.getD_some, hempty, append_eq_nil_iff, hrest, replicate_eq_nil_iff,
        forall_mem_append, forall_mem_singleton, and_assoc]
      have : opened connects = 0 ↔ ¬ (0 < opened connects ∧ opened connects < connectionNum) := by omega
      rw [this]

theorem Tracks.step {σ σ' : MasterState} {call : SwitchCall} {ok : Bool} {clusterId : Bytes}
    {first : RedisProxyInfo} {tried : List (List Bool)}
    (h : Tracks σ.connectionNum first tried (σ.masterNode clusterId))
    (hcall : doSwitchMaster σ call = some (ok, σ')) :
    Tracks σ.connectionNum first
      (tried ++ if addressId call.masterAddr = clusterId ∧ σ.Attempts clusterId then [call.connects] else [])
      (σ'.masterNode clusterId) := by
  by_cases hid : addressId call.masterAddr = clusterId
  · subst hid
    obtain ⟨hnone, -, -, rfl⟩ | ⟨hnone, -, rfl⟩ | ⟨hattempts, pool, hpool, rfl⟩ := doSwitchMaster_cases hcall
    · simpa [hnone] using h
    · simpa [hnone] using h
    · rw [if_pos ⟨rfl, hattempts⟩, masterNode_setMaster_self]
      exact h.attempt hattempts.2 hpool
  · rw [(doSwitchMaster_frame hcall).2.2 clusterId (Ne.symm hid), if_neg (fun h => hid h.1),
      append_nil]
    exact h

theorem Tracks.run {first : RedisProxyInfo} (clusterId : Bytes) :
    ∀ (calls : List SwitchCall) (σ σ' : MasterState) (tried : List (List Bool)),
      Tracks σ.connectionNum first tried (σ.masterNode clusterId) →
      Lts.run switchStep σ calls = some σ' →
      σ'.connectionNum = σ.connectionNum ∧
      Tracks σ.connectionNum first (tried ++ attempts clusterId σ calls) (σ'.masterNode clusterId) := by
  intro calls
  induction calls with
  | nil =>
    intro σ σ' tried h hrun
    cases hrun
    exact ⟨rfl, by simpa [attempts] using h⟩
  | cons call calls ih =>
    intro σ σ' tried h hrun
    obtain ⟨τ, hstep, hrest⟩ := Lts.run_cons hrun
    obtain ⟨⟨ok, _⟩, hcall, rfl⟩ := Option.map_eq_some_iff.1 hstep
    have hnum := (doSwitchMaster_frame hcall).1
    have htau := ih _ σ' _ (hnum ▸ h.step hcall) hrest
    rw [hnum] at htau
    rw [attempts, hstep, ← append_assoc]
    exact htau

theorem attempts_concat {clusterId : Bytes} {call : SwitchCall} :
    ∀ (calls : List SwitchCall) (σ σ' : MasterState), Lts.run switchStep σ calls = some σ' →
      attempts clusterId σ (calls ++ [call]) = attempts clusterId σ calls ++
        if addressId call.masterAddr = clusterId ∧ σ'.Attempts clusterId then [call.connects] else [] := by
  intro calls
  induction calls with
  | nil =>
    intro σ σ' hrun
    cases hrun
    cases h : switchStep σ call <;> simp [attempts, h]
  | cons call' calls ih =>
    intro σ σ' hrun
    obtain ⟨τ, hstep, hrest⟩ := Lts.run_cons hrun
    simp only [cons_append, attempts, hstep, ih τ σ' hrest, append_assoc]

/-! ### A call that returns true -/

theorem openTo_iff {σ : MasterState} {addr : RedisServerInfo} :
    σ.OpenTo addr ↔ σ.masterClusterId = addressId addr ∧
      (σ.masterNode (addressId addr)).isAlived = true ∧
      ((σ.masterNode (addressId addr)).connectIp = addr.serverIp ∧
        (σ.masterNode (addressId addr)).connectPort = addr.serverPort) ∧
      (σ.masterNode (addressId addr)).clusterHandler =
        some (openPool addr.serverIp addr.serverPort σ.connectionNum) := by
  cases hget : σ.dataNodes.get? (addressId addr) with
  | none =>
    have hdead : (σ.masterNode (addressId addr)).isAlived = false := by
      simp [MasterState.masterNode, hget]
    constructor
    · rintro ⟨-, node, hnode, -⟩
      rw [hget] at hnode
      cases hnode
    · rintro ⟨-, halive, -⟩
      rw [hdead] at halive
      cases halive
  | some node =>
    have hnode : σ.masterNode (addressId addr) = node := by simp [MasterState.masterNode, hget]
    rw [hnode]
    constructor
    · rintro ⟨hmaster, node', hnode', halive, hip, hport, hpool⟩
      obtain rfl := Option.some.inj (hget.symm.trans hnode')
      exact ⟨hmaster, halive, ⟨hip, hport⟩, hpool⟩
    · rintro ⟨hmaster, halive, ⟨hip, hport⟩, hpool⟩
      exact ⟨hmaster, node, hget, halive, hip, hport, hpool⟩

instance (σ : MasterState) (addr : RedisServerInfo) : Decidable (σ.OpenTo addr) :=
  decidable_of_iff _ openTo_iff.symm

theorem doSwitchMaster_openTo_iff (σ₀ σ σ' : MasterState) (calls : List SwitchCall) (call : SwitchCall)
    (hrun : Lts.run switchStep σ₀ calls = some σ) (hcall : doSwitchMaster σ call = some (true, σ')) :
    let addr := call.masterAddr
    let first := σ₀.masterNode (addressId addr)
    let tried := attempts (addressId addr) σ₀ (calls ++ [call])
    σ'.OpenTo addr ↔
      (first.connectIp = addr.serverIp ∧ first.connectPort = addr.serverPort) ∧
      if first.isAlived then
        first.clusterHandler = some (openPool addr.serverIp addr.serverPort σ₀.connectionNum)
      else (first.clusterHandler.getD {}).connections = [] ∧
        (∃ connects ∈ tried, σ₀.connectionNum ≤ opened connects) ∧
        ∀ connects ∈ tried, ¬ (0 < opened connects ∧ opened connects < σ₀.connectionNum) := by
  intro addr first tried
  obtain ⟨hnum, hbefore⟩ := Tracks.run (addressId addr) calls σ₀ σ []
    (Tracks.refl σ₀.connectionNum first) hrun
  rw [← hnum] at hbefore
  have htracks := hbefore.step hcall
  obtain ⟨hnum', hmaster, -⟩ := doSwitchMaster_frame hcall
  rw [nil_append, ← attempts_concat calls σ₀ σ hrun, hnum] at htracks
  rw [openTo_iff, hnum', hnum, htracks.connectIp, htracks.connectPort]
  by_cases hfirst : first.isAlived = true
  · -- an entry that was alive from the beginning is never touched
    rw [if_pos hfirst, htracks.kept hfirst]
    exact ⟨fun h => h.2.2, fun h => ⟨hmaster, hfirst, h⟩⟩
  · obtain ⟨rest, hrest, hpool⟩ := htracks.pool (by simpa using hfirst)
    have halive := htracks.alive (by simpa using hfirst)
    rw [if_neg hfirst]
    constructor
    · rintro ⟨-, hnode, haddr, hopen⟩
      refine ⟨haddr, ?_⟩
      rw [if_pos hnode, hopen, haddr.1, haddr.2] at hpool
      have hconnections := congrArg RedisCluster.connections (Option.some.inj hpool)
      obtain ⟨hempty, hclean⟩ := hrest.1 (append_left_eq_self.1 hconnections.symm)
      exact ⟨hempty, halive.1 hnode, hclean⟩
    · rintro ⟨haddr, hempty, hopened, hclean⟩
      have hnode := halive.2 hopened
      refine ⟨hmaster, hnode, haddr, ?_⟩
      rw [if_pos hnode, hrest.2 ⟨hempty, hclean⟩, haddr.1, haddr.2] at hpool
      exact hpool

theorem doSwitchMaster_openTo_sample :
    let b : RedisServerInfo := ⟨ascii "10.0.0.2", 7002⟩
    let slave : RedisProxyInfo := ⟨addressId b, ascii "10.0.0.2", 7002, none, false⟩
    let σ : MasterState := ⟨⟨ascii "10.0.0.1", 7001⟩, 2, ascii "10.0.0.1:7001",
      (∅ : StdMap Bytes RedisProxyInfo).assign (addressId b) slave⟩
    (doSwitchMaster σ ⟨b, [true, true]⟩).map Prod.fst = some true ∧
      ∀ σ', doSwitchMaster σ ⟨b, [true, true]⟩ = some (true, σ') → σ'.OpenTo b := by
  intro b slave σ
  constructor
  · decide +kernel
  · intro σ' hcall
    exact (doSwitchMaster_openTo_iff σ σ σ' [] ⟨b, [true, true]⟩ rfl hcall).2 (by decide +kernel)

theorem doSwitchMaster_not_open :
    let a : RedisServerInfo := ⟨ascii "10.0.0.1", 7001⟩
    let b : RedisServerInfo := ⟨ascii "10.0.0.2", 7002⟩
    let master : RedisProxyInfo :=
      ⟨addressId a, a.serverIp, a.serverPort, some (openPool a.serverIp a.serverPort 1), true⟩
    let slave : RedisProxyInfo := ⟨addressId b, b.serverIp, b.serverPort, none, false⟩
    let nodes := (∅ : StdMap Bytes RedisProxyInfo).assign (addressId a) master
    let alone : MasterState := ⟨a, 1, addressId a, nodes⟩
    let paired : MasterState := ⟨a, 1, addressId a, nodes.assign (addressId b) slave⟩
    (doSwitchMaster alone ⟨b, [true]⟩).map (fun (ok, σ) =>
      (ok, (σ.masterNode (addressId b)).connectIp, decide (σ.OpenTo b))) =
        some (true, ascii "10.0.0.1", false) ∧
    ((switchStep paired ⟨b, [false]⟩).bind (doSwitchMaster · ⟨b, [true]⟩)).map (fun (ok, σ) =>
      (ok, (σ.masterNode (addressId b)).isAlived, decide (σ.OpenTo b))) =
        some (true, false, false) := by
  decide +kernel

end GBDownLinker
