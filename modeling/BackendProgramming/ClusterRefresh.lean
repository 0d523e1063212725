/-
**Saving a new topology.**

`RedisClient::checkAndSaveRedisClusters` clears the map of the slots and stores the clusters one after another,
with a connection pool for each cluster that was not known.  When a pool cannot be opened it returns at once,
and what is left is the part of the new topology in front of the cluster that refused.
-/

import BackendProgramming.ClusterNodes

set_option autoImplicit false

namespace GBDownLinker

open CText List

/-! ### The state -/

structure ClusterEntry extends RedisClusterInfo where
  clusterHandler : Option ℕ := none
  scanCursor : ℤ := 0
  deriving DecidableEq

structure Topology where
  slotMap : StdMap ℕ Bytes := ∅
  clusterMap : StdMap Bytes ClusterEntry := ∅
  unusedHandlers : StdMap Bytes (Option ℕ) := ∅
  connectionNum : ℕ := 0
  connectTimeout : ℕ := 0
  handlers : ℕ := 0

/-! ### The function -/

def serveRange (clusterId : Bytes) (slotMap : StdMap ℕ Bytes) (range : ℕ × ℕ) : StdMap ℕ Bytes :=
  (range' range.1 (range.2 + 1 - range.1)).foldl (fun m i => m.assign i clusterId) slotMap

def serveSlots (clusterId : Bytes) (clusterInfo : ClusterEntry) (slotMap : StdMap ℕ Bytes) :
    StdMap ℕ Bytes :=
  if clusterInfo.isMaster then clusterInfo.slotMap.entries.foldl (serveRange clusterId) slotMap
  else slotMap

def Topology.save (σ : Topology) (clusterId : Bytes) (clusterInfo : ClusterEntry) : Topology :=
  { σ with
    clusterMap := σ.clusterMap.assign clusterId clusterInfo
    slotMap := serveSlots clusterId clusterInfo σ.slotMap }

def ClusterEntry.keeping (clusterInfo oldClusterInfo : ClusterEntry) : ClusterEntry :=
  { clusterInfo with
    clusterHandler := oldClusterInfo.clusterHandler
    connectionNum := oldClusterInfo.connectionNum
    connectTimeout := oldClusterInfo.connectTimeout
    readTimeout := oldClusterInfo.readTimeout }

def Topology.opening (σ : Topology) (clusterInfo : ClusterEntry) : ClusterEntry :=
  { clusterInfo with
    clusterHandler := some σ.handlers
    connectionNum := σ.connectionNum
    connectTimeout := σ.connectTimeout }

def saveLoop (connects : Bytes → Bool) : List (Bytes × ClusterEntry) → Topology → Bool × Topology
  | [], σ => (true, σ)
  | (clusterId, clusterInfo) :: rest, σ =>
    match σ.clusterMap.get? clusterId with
    | some oldClusterInfo =>
      saveLoop connects rest (σ.save clusterId (clusterInfo.keeping oldClusterInfo))
    | none =>
      let created := { σ with handlers := σ.handlers + 1 }
      if connects clusterId then
        saveLoop connects rest (created.save clusterId (σ.opening clusterInfo))
      else (false, created)

def Topology.dropUnused (σ : Topology) (clusterMap : StdMap Bytes ClusterEntry) : Topology :=
  let unusedClusters := σ.clusterMap.entries.filter fun x => (clusterMap.get? x.1).isNone
  { σ with
    unusedHandlers := unusedClusters.foldl (fun m x => m.assign x.1 x.2.clusterHandler) σ.unusedHandlers
    clusterMap := (unusedClusters.map Prod.fst).foldl StdMap.erase σ.clusterMap }

def checkAndSaveRedisClusters (connects : Bytes → Bool) (clusterMap : StdMap Bytes ClusterEntry)
    (σ : Topology) : Bool × Topology :=
  match saveLoop connects clusterMap.entries { σ with slotMap := ∅ } with
  | (false, σ) => (false, σ)
  | (true, σ) => (true, σ.dropUnused clusterMap)

structure ClusterEntry.Shows (entry info : ClusterEntry) : Prop where
  clusterId : entry.clusterId = info.clusterId
  isMaster : entry.isMaster = info.isMaster
  isAlived : entry.isAlived = info.isAlived
  masterClusterId : entry.masterClusterId = info.masterClusterId
  slotMap : entry.slotMap = info.slotMap
  bakClusterList : entry.bakClusterList = info.bakClusterList
  scanCursor : entry.scanCursor = info.scanCursor

/-! ### Who serves a slot -/

def Serves (slot : ℕ) (clusterInfo : ClusterEntry) : Prop :=
  clusterInfo.isMaster = true ∧ ∃ range ∈ clusterInfo.slotMap.entries, range.1 ≤ slot ∧ slot ≤ range.2

instance (slot : ℕ) (clusterInfo : ClusterEntry) : Decidable (Serves slot clusterInfo) :=
  inferInstanceAs (Decidable (_ ∧ _))

def servedBy (slot : ℕ) (before : Option Bytes) (clusters : List (Bytes × ClusterEntry)) : Option Bytes :=
  clusters.foldl (fun found x => if Serves slot x.2 then some x.1 else found) before

theorem serveRange_get? (clusterId : Bytes) (m : StdMap ℕ Bytes) (range : ℕ × ℕ) (slot : ℕ) :
    (serveRange clusterId m range).get? slot =
      if range.1 ≤ slot ∧ slot ≤ range.2 then some clusterId else m.get? slot := by
  have hloop : ∀ (l : List ℕ) (m : StdMap ℕ Bytes),
      (l.foldl (fun m i => m.assign i clusterId) m).get? slot =
        if slot ∈ l then some clusterId else m.get? slot := by
    intro l
    induction l with
    | nil => intro m; simp
    | cons i l ih =>
      intro m
      rw [foldl_cons, ih, StdMap.get?_assign]
      by_cases hl : slot ∈ l <;> by_cases hi : slot = i <;> simp [hl, hi]
  have hmem : slot ∈ range' range.1 (range.2 + 1 - range.1) ↔ range.1 ≤ slot ∧ slot ≤ range.2 := by
    rw [mem_range'_1]
    omega
  rw [serveRange, hloop]
  simp only [hmem]

theorem serveSlots_get? (clusterId : Bytes) (clusterInfo : ClusterEntry) (m : StdMap ℕ Bytes)
    (slot : ℕ) :
    (serveSlots clusterId clusterInfo m).get? slot =
      if Serves slot clusterInfo then some clusterId else m.get? slot := by
  have hloop : ∀ (l : List (ℕ × ℕ)) (m : StdMap ℕ Bytes),
      (l.foldl (serveRange clusterId) m).get? slot =
        if ∃ range ∈ l, range.1 ≤ slot ∧ slot ≤ range.2 then some clusterId else m.get? slot := by
    intro l
    induction l with
    | nil => intro m; simp
    | cons range l ih =>
      intro m
      rw [foldl_cons, ih, serveRange_get?]
      by_cases hl : ∃ range ∈ l, range.1 ≤ slot ∧ slot ≤ range.2
      · simp only [hl, exists_mem_cons_iff, or_true, if_true]
      · simp only [hl, exists_mem_cons_iff, or_false, if_false]
  by_cases hmaster : clusterInfo.isMaster
  · have hserves : Serves slot clusterInfo ↔
        ∃ range ∈ clusterInfo.slotMap.entries, range.1 ≤ slot ∧ slot ≤ range.2 := by
      simp only [Serves, hmaster, true_and]
    simp only [serveSlots, hmaster, if_true, hloop, hserves]
  · simp [serveSlots, Serves, hmaster]

/-! ### What the loop leaves -/

def accepted (connects : Bytes → Bool) (σ : Topology) (clusters : List (Bytes × ClusterEntry)) :
    List (Bytes × ClusterEntry) :=
  clusters.takeWhile fun x => (σ.clusterMap.get? x.1).isSome || connects x.1

section Loop

variable (connects : Bytes → Bool)

theorem accepted_cons {connects : Bytes → Bool} {σ : Topology} {x : Bytes × ClusterEntry}
    (rest : List (Bytes × ClusterEntry))
    (hx : ((σ.clusterMap.get? x.1).isSome || connects x.1) = true) :
    accepted connects σ (x :: rest) = x :: accepted connects σ rest := by
  simp [accepted, hx]

theorem accepted_save {connects : Bytes → Bool} {σ τ : Topology} {clusterId : Bytes}
    {clusterInfo : ClusterEntry} {rest : List (Bytes × ClusterEntry)} (hclusters : τ.clusterMap = σ.clusterMap)
    (hnew : clusterId ∉ rest.map Prod.fst) :
    accepted connects (τ.save clusterId clusterInfo) rest = accepted connects σ rest := by
  induction rest with
  | nil => rfl
  | cons x rest ih =>
    rw [map_cons, mem_cons, not_or] at hnew
    have hget : (τ.save clusterId clusterInfo).clusterMap.get? x.1 = σ.clusterMap.get? x.1 := by
      simp [Topology.save, StdMap.get?_assign, Ne.symm hnew.1, hclusters]
    have ih := ih hnew.2
    simp only [accepted] at ih ⊢
    simp only [takeWhile_cons, hget, ih]

theorem saveLoop_cons {connects : Bytes → Bool} {σ : Topology} {x : Bytes × ClusterEntry}
    (rest : List (Bytes × ClusterEntry))
    (hx : ((σ.clusterMap.get? x.1).isSome || connects x.1) = true) :
    ∃ (τ : Topology) (entry : ClusterEntry),
      saveLoop connects (x :: rest) σ = saveLoop connects rest (τ.save x.1 entry) ∧
      τ.slotMap = σ.slotMap ∧ τ.clusterMap = σ.clusterMap ∧
      entry.Shows x.2 ∧ ∀ old, σ.clusterMap.get? x.1 = some old → entry = x.2.keeping old := by
  cases hold : σ.clusterMap.get? x.1 with
  | some old =>
    refine ⟨σ, x.2.keeping old, by simp only [saveLoop, hold], rfl, rfl,
      ⟨rfl, rfl, rfl, rfl, rfl, rfl, rfl⟩, ?_⟩
    intro old' h
    rw [Option.some.inj h]
  | none =>
    have hconnects : connects x.1 = true := by simpa [hold] using hx
    exact ⟨{ σ with handlers := σ.handlers + 1 }, σ.opening x.2,
      by simp only [saveLoop, hold, hconnects, if_true], rfl, rfl,
      ⟨rfl, rfl, rfl, rfl, rfl, rfl, rfl⟩, nofun⟩

theorem saveLoop_refused {connects : Bytes → Bool} {σ : Topology} {x : Bytes × ClusterEntry}
    {rest : List (Bytes × ClusterEntry)}
    (hx : ¬ ((σ.clusterMap.get? x.1).isSome || connects x.1) = true) :
    saveLoop connects (x :: rest) σ = (false, { σ with handlers := σ.handlers + 1 }) := by
  obtain ⟨hold, hconnects⟩ : σ.clusterMap.get? x.1 = none ∧ connects x.1 = false := by simpa using hx
  simp [saveLoop, hold, hconnects]

theorem saveLoop_slotMap (slot : ℕ) :
    ∀ (clusters : List (Bytes × ClusterEntry)) (σ : Topology), (clusters.map Prod.fst).Nodup →
      (saveLoop connects clusters σ).2.slotMap.get? slot =
        servedBy slot (σ.slotMap.get? slot) (accepted connects σ clusters) := by
  intro clusters
  induction clusters with
  | nil => intro σ _; rfl
  | cons x rest ih =>
    intro σ hnodup
    obtain ⟨hnew, hrest⟩ := nodup_cons.1 hnodup
    by_cases hx : ((σ.clusterMap.get? x.1).isSome || connects x.1) = true
    · obtain ⟨τ, entry, hrun, hslots, hclusters, hshows, -⟩ := saveLoop_cons rest hx
      have hserves : Serves slot entry ↔ Serves slot x.2 := by
        rw [Serves, Serves, hshows.isMaster, hshows.slotMap]
      rw [hrun, ih _ hrest, accepted_save hclusters hnew, accepted_cons rest hx]
      simp [servedBy, Topology.save, serveSlots_get?, hserves, hslots]
    · rw [saveLoop_refused hx]
      simp [accepted, servedBy, hx]

theorem saveLoop_clusterMap_other {clusterId : Bytes} :
    ∀ (clusters : List (Bytes × ClusterEntry)) (σ : Topology), (clusters.map Prod.fst).Nodup →
      clusterId ∉ (accepted connects σ clusters).map Prod.fst →
      (saveLoop connects clusters σ).2.clusterMap.get? clusterId = σ.clusterMap.get? clusterId := by
  intro clusters
  induction clusters with
  | nil => intro σ _ _; rfl
  | cons x rest ih =>
    intro σ hnodup hother
    obtain ⟨hnew, hrest⟩ := nodup_cons.1 hnodup
    by_cases hx : ((σ.clusterMap.get? x.1).isSome || connects x.1) = true
    · obtain ⟨τ, entry, hrun, -, hclusters, -, -⟩ := saveLoop_cons rest hx
      rw [accepted_cons rest hx, map_cons, mem_cons, not_or] at hother
      rw [hrun, ih _ hrest (by rw [accepted_save hclusters hnew]; exact hother.2)]
      simp [Topology.save, StdMap.get?_assign, hother.1, hclusters]
    · rw [saveLoop_refused hx]

theorem saveLoop_clusterMap_accepted {x : Bytes × ClusterEntry} :
    ∀ (clusters : List (Bytes × ClusterEntry)) (σ : Topology), (clusters.map Prod.fst).Nodup →
      x ∈ accepted connects σ clusters →
      ∃ entry, (saveLoop connects clusters σ).2.clusterMap.get? x.1 = some entry ∧ entry.Shows x.2 ∧
        ∀ old, σ.clusterMap.get? x.1 = some old → entry = x.2.keeping old := by
  intro clusters
  induction clusters with
  | nil => intro σ _ h; simp [accepted] at h
  | cons y rest ih =>
    intro σ hnodup hmem
    obtain ⟨hnew, hrest⟩ := nodup_cons.1 hnodup
    by_cases hy : ((σ.clusterMap.get? y.1).isSome || connects y.1) = true
    · obtain ⟨τ, entry, hrun, -, hclusters, hshows, hentry⟩ := saveLoop_cons rest hy
      have haccepted : accepted connects (τ.save y.1 entry) rest = accepted connects σ rest :=
        accepted_save hclusters hnew
      have hsub : ∀ z ∈ accepted connects σ rest, z ∈ rest := fun z hz =>
        (takeWhile_sublist _).subset hz
      rw [accepted_cons rest hy, mem_cons] at hmem
      rw [hrun]
      obtain rfl | hmem := hmem
      · -- no later cluster has this id
        refine ⟨entry, ?_, hshows, hentry⟩
        rw [saveLoop_clusterMap_other connects _ _ hrest]
        · simp [Topology.save, StdMap.get?_assign]
        · rw [haccepted]
          exact fun h => hnew (map_subset _ (fun z hz => hsub z hz) h)
      · have hne : x.1 ≠ y.1 := fun h => hnew (h ▸ mem_map_of_mem (hsub x hmem))
        obtain ⟨entry', hget, hshows', hkeep⟩ := ih (τ.save y.1 entry) hrest (by rw [haccepted]; exact hmem)
        refine ⟨entry', hget, hshows', fun old hold => hkeep old ?_⟩
        simpa [Topology.save, StdMap.get?_assign, hne, hclusters] using hold
    · simp [accepted, hy] at hmem

end Loop

/-! ### A failed refresh -/

structure Topology.SameMaps (σ τ : Topology) : Prop where
  slots : ∀ slot, τ.slotMap.get? slot = σ.slotMap.get? slot
  clusters : ∀ clusterId, τ.clusterMap.get? clusterId = σ.clusterMap.get? clusterId

theorem failed_refresh_keeps_maps_iff (connects : Bytes → Bool) (clusterMap : StdMap Bytes ClusterEntry)
    (σ : Topology) (hfailed : (checkAndSaveRedisClusters connects clusterMap σ).1 = false) :
    σ.SameMaps (checkAndSaveRedisClusters connects clusterMap σ).2 ↔
      (∀ slot, σ.slotMap.get? slot = servedBy slot none (accepted connects σ clusterMap.entries)) ∧
      ∀ x ∈ accepted connects σ clusterMap.entries,
        ∃ old, σ.clusterMap.get? x.1 = some old ∧ x.2.keeping old = old := by
  -- a failed call ends with what the loop has left
  have hleft : (checkAndSaveRedisClusters connects clusterMap σ).2 =
      (saveLoop connects clusterMap.entries { σ with slotMap := ∅ }).2 := by
    revert hfailed
    rw [checkAndSaveRedisClusters]
    split
    · next h => intro _; rw [h]
    · exact nofun
  rw [hleft]
  have hslots := fun slot => saveLoop_slotMap connects slot clusterMap.entries
    { σ with slotMap := ∅ } clusterMap.nodup
  constructor
  · intro hsame
    constructor
    · intro slot
      rw [← hsame.slots slot, hslots]
      rfl
    · intro x hx
      obtain ⟨entry, hentry, -, hkeep⟩ :=
        saveLoop_clusterMap_accepted connects _ { σ with slotMap := ∅ } clusterMap.nodup hx
      have hold : σ.clusterMap.get? x.1 = some entry := by rw [← hsame.clusters, hentry]
      exact ⟨entry, hold, (hkeep entry hold).symm⟩
  · rintro ⟨hserved, hknown⟩
    constructor
    · intro slot
      rw [hslots, hserved slot]
      rfl
    · intro clusterId
      by_cases hmem : clusterId ∈ (accepted connects σ clusterMap.entries).map Prod.fst
      · obtain ⟨x, hx, rfl⟩ := mem_map.1 hmem
        obtain ⟨entry, hentry, -, hkeep⟩ :=
          saveLoop_clusterMap_accepted connects _ { σ with slotMap := ∅ } clusterMap.nodup hx
        obtain ⟨old, hold, heq⟩ := hknown x hx
        rw [hentry, hkeep old hold, heq, hold]
      · exact saveLoop_clusterMap_other connects _ { σ with slotMap := ∅ } clusterMap.nodup hmem

theorem failed_refresh_keeps_maps_sample :
    let a : ClusterEntry := { isMaster := true, slotMap := (∅ : StdMap ℕ ℕ).assign 0 1 }
    let σ : Topology := { slotMap := ((∅ : StdMap ℕ Bytes).assign 0 (ascii "a")).assign 1 (ascii "a")
                          clusterMap := (∅ : StdMap Bytes ClusterEntry).assign (ascii "a") a }
    let clusterMap := ((∅ : StdMap Bytes ClusterEntry).assign (ascii "a") a).assign (ascii "b") {}
    (checkAndSaveRedisClusters (fun _ => false) clusterMap σ).1 = false ∧
      σ.SameMaps (checkAndSaveRedisClusters (fun _ => false) clusterMap σ).2 := by
  intro a σ clusterMap
  have haccepted : accepted (fun _ => false) σ clusterMap.entries = [(ascii "a", a)] := rfl
  refine ⟨rfl, (failed_refresh_keeps_maps_iff (fun _ => false) clusterMap σ rfl).2 ⟨?_, ?_⟩⟩
  · intro slot
    have hserves : ∀ slot, Serves slot a ↔ slot = 0 ∨ slot = 1 := by
      intro slot
      simp [Serves, a, StdMap.mem_assign]
      omega
    by_cases h0 : slot = 0 <;> by_cases h1 : slot = 1 <;>
      simp [haccepted, servedBy, hserves, StdMap.get?_assign, σ, h0, h1]
  · intro x hx
    rw [haccepted, mem_singleton] at hx
    exact ⟨a, by rw [hx]; rfl, by rw [hx]; rfl⟩

theorem failed_refresh_loses_slots :
    let b : ClusterEntry := { isMaster := true, slotMap := (∅ : StdMap ℕ ℕ).assign 0 1 }
    let σ : Topology := { slotMap := ((∅ : StdMap ℕ Bytes).assign 0 (ascii "b")).assign 1 (ascii "b")
                          clusterMap := (∅ : StdMap Bytes ClusterEntry).assign (ascii "b") b }
    let clusterMap := ((∅ : StdMap Bytes ClusterEntry).assign (ascii "b") b).assign (ascii "a") {}
    let result := checkAndSaveRedisClusters (fun _ => false) clusterMap σ
    result.1 = false ∧ σ.slotMap.get? 0 = some (ascii "b") ∧ result.2.slotMap.get? 0 = none ∧
      ¬ σ.SameMaps result.2 := by
  intro b σ clusterMap result
  have hlost : result.2.slotMap.get? 0 = none := rfl
  refine ⟨rfl, rfl, hlost, ?_⟩
  intro hsame
  have hsome : σ.slotMap.get? 0 = some (ascii "b") := rfl
  rw [← hsame.slots 0, hlost] at hsome
  cases hsome

end GBDownLinker
