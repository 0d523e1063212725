/-
**The connection pools of a cluster client.**

A pool is reached from the entry of its node in `m_clusterMap`, or from `m_unusedHandlers` after the node has
left, until `releaseUnusedClusterHandler` deletes it.  A pointer that is null, or whose pool has been deleted,
cannot be followed.
-/

import Mathlib.Data.List.TakeWhile
import BackendProgramming.ClusterRefresh
import BackendProgramming.Custody

set_option autoImplicit false

namespace GBDownLinker

open CText Function List Option Prod

/-! ### The state -/

structure Pools where
  topology : Topology
  freed : List ℕ := []

inductive Place where
  | cluster (clusterId : Bytes)
  | unused (clusterId : Bytes)
  deriving DecidableEq

def Topology.holds (σ : Topology) : Place → Option ℕ
  | .cluster clusterId => (σ.clusterMap.get? clusterId).bind ClusterEntry.clusterHandler
  | .unused clusterId => (σ.unusedHandlers.get? clusterId).join

def Topology.custody (freed : List ℕ) (σ : Topology) : Custody Place := ⟨σ.holds, σ.handlers, freed⟩

@[simp] theorem Topology.custody_holds (freed : List ℕ) (σ : Topology) :
    (σ.custody freed).holds = σ.holds := rfl

/-! ### The functions -/

def report (clusterMap : ClusterMap) : StdMap Bytes ClusterEntry where
  entries := clusterMap.entries.map fun x => (x.1, { toRedisClusterInfo := x.2 })
  nodup := by simpa [comp_def] using clusterMap.nodup

def initLoop (connects : Bytes → Bool) : List (Bytes × ClusterEntry) → Topology → Bool × Topology
  | [], σ => (true, σ)
  | (clusterId, clusterInfo) :: rest, σ =>
    let created := { σ with handlers := σ.handlers + 1 }
    if connects clusterId then
      initLoop connects rest (created.save clusterId { clusterInfo with clusterHandler := some σ.handlers })
    else
      (false, { created with
        clusterMap := created.clusterMap.assign clusterId { clusterInfo with clusterHandler := none } })

def initRedisCluster (connects : Bytes → Bool) (σ : Topology) : Bool × Topology :=
  initLoop connects σ.clusterMap.entries σ

def Pools.needFreeClusters (canFree : ℕ → Bool) (p : Pools) :
    List (Bytes × Option ℕ) → Option (List Bytes)
  | [] => some []
  | (_, none) :: _ => none
  | (clusterId, some handler) :: rest =>
    if p.freed.contains handler then none
    else
      (p.needFreeClusters canFree rest).map fun needFree =>
        if canFree handler then clusterId :: needFree else needFree

def Pools.free (p : Pools) (clusterId : Bytes) : Option Pools :=
  match p.topology.unusedHandlers.get? clusterId with
  | some (some handler) =>
    if p.freed.contains handler then none
    else
      some
        { topology := { p.topology with unusedHandlers := p.topology.unusedHandlers.erase clusterId }
          freed := handler :: p.freed }
  | _ => none

def releaseUnusedClusterHandler (canFree : ℕ → Bool) (p : Pools) : Option Pools :=
  (p.needFreeClusters canFree p.topology.unusedHandlers.entries).bind fun needFree =>
    needFree.foldlM Pools.free p

/-! ### What every call keeps -/

structure Topology.Ok (freed : List ℕ) (σ : Topology) : Prop where
  sound : (σ.custody freed).Sound
  cluster : ∀ {clusterId info}, σ.clusterMap.get? clusterId = some info → info.clusterHandler ≠ none
  unused : ∀ {clusterId handler}, σ.unusedHandlers.get? clusterId = some handler → handler ≠ none
  slots : ∀ {slot clusterId}, σ.slotMap.get? slot = some clusterId → (σ.clusterMap.get? clusterId).isSome

section Save

variable {freed : List ℕ} {σ : Topology} {clusterId : Bytes}

theorem Topology.holds_cluster {info : ClusterEntry} (h : σ.clusterMap.get? clusterId = some info) :
    σ.holds (.cluster clusterId) = info.clusterHandler := by
  simp [Topology.holds, h]

theorem custody_keeping {info old : ClusterEntry} (hold : σ.clusterMap.get? clusterId = some old) :
    (σ.save clusterId (info.keeping old)).custody freed = σ.custody freed := by
  have hholds : (σ.save clusterId (info.keeping old)).holds = σ.holds := by
    funext place
    cases place with
    | unused id => rfl
    | cluster id =>
      by_cases hid : id = clusterId
      · simp [Topology.holds, Topology.save, StdMap.get?_assign, hid, hold, ClusterEntry.keeping]
      · simp [Topology.holds, Topology.save, StdMap.get?_assign, hid]
  simp only [Topology.custody, hholds]
  rfl

theorem custody_created {entry : ClusterEntry} (hentry : entry.clusterHandler = some σ.handlers) :
    (({ σ with handlers := σ.handlers + 1 } : Topology).save clusterId entry).custody freed =
      (σ.custody freed).make (.cluster clusterId) := by
  have hholds : (({ σ with handlers := σ.handlers + 1 } : Topology).save clusterId entry).holds =
      update σ.holds (.cluster clusterId) (some σ.handlers) := by
    funext place
    cases place with
    | unused id => rfl
    | cluster id =>
      by_cases hid : id = clusterId
      · simp [Topology.holds, Topology.save, StdMap.get?_assign, hid, hentry]
      · simp [Topology.holds, Topology.save, StdMap.get?_assign, hid]
  simp only [Topology.custody, hholds]
  rfl

theorem Topology.save_slots {entry : ClusterEntry} {clusterId : Bytes} {σ : Topology}
    (h : ∀ slot id, σ.slotMap.get? slot = some id → (σ.clusterMap.get? id).isSome) {slot : ℕ} {id : Bytes}
    (hslot : (σ.save clusterId entry).slotMap.get? slot = some id) :
    ((σ.save clusterId entry).clusterMap.get? id).isSome := by
  rw [Topology.save, serveSlots_get?] at hslot
  simp only [Topology.save, StdMap.get?_assign]
  split at hslot
  · simp [some.inj hslot]
  · split
    · rfl
    · exact h slot id hslot

theorem Topology.Ok.save {entry : ClusterEntry} (h : σ.Ok freed) {τ : Topology}
    (hclusters : τ.clusterMap = σ.clusterMap) (hunused : τ.unusedHandlers = σ.unusedHandlers)
    (hslots : τ.slotMap = σ.slotMap) (hentry : entry.clusterHandler ≠ none)
    (hsound : ((τ.save clusterId entry).custody freed).Sound) : (τ.save clusterId entry).Ok freed where
  sound := hsound
  cluster := by
    intro id info hid
    rw [Topology.save, StdMap.get?_assign] at hid
    split at hid
    · exact some.inj hid ▸ hentry
    · rw [hclusters] at hid
      exact h.cluster hid
  unused := by
    intro id handler hid
    exact h.unused (hunused ▸ hid)
  slots := Topology.save_slots fun slot id hslot => by
    rw [hslots] at hslot
    rw [hclusters]
    exact h.slots hslot

theorem saveLoop_invariant {I : Topology → Prop} (connects : Bytes → Bool)
    (hknown : ∀ σ id info old, I σ → σ.clusterMap.get? id = some old →
      I (σ.save id (ClusterEntry.keeping info old)))
    (hnew : ∀ σ id info, I σ → σ.clusterMap.get? id = none →
      I (({ σ with handlers := σ.handlers + 1 } : Topology).save id (σ.opening info)))
    (clusters : List (Bytes × ClusterEntry)) (σ : Topology) (hI : I σ) :
    ((saveLoop connects clusters σ).1 = true ∧ I (saveLoop connects clusters σ).2) ∨
    ((saveLoop connects clusters σ).1 = false ∧
      ∃ τ, I τ ∧ (saveLoop connects clusters σ).2 = { τ with handlers := τ.handlers + 1 }) := by
  induction clusters generalizing σ with
  | nil => exact .inl ⟨rfl, hI⟩
  | cons x rest ih =>
    rw [saveLoop]
    cases hold : σ.clusterMap.get? x.1 with
    | some old => exact ih _ (hknown σ _ _ old hI hold)
    | none =>
      simp only
      split
      · exact ih _ (hnew σ _ _ hI hold)
      · exact .inr ⟨rfl, σ, hI, rfl⟩

theorem saveLoop_unusedHandlers (connects : Bytes → Bool) (clusters : List (Bytes × ClusterEntry))
    (σ : Topology) : (saveLoop connects clusters σ).2.unusedHandlers = σ.unusedHandlers := by
  rcases saveLoop_invariant (I := fun τ => τ.unusedHandlers = σ.unusedHandlers) connects
    (fun _ _ _ _ hI _ => hI) (fun _ _ _ hI _ => hI) clusters σ rfl with ⟨-, h⟩ | ⟨-, τ, h, heq⟩
  · exact h
  · rw [heq]
    exact h

end Save

theorem Topology.Ok.keeping {freed : List ℕ} {σ : Topology} {clusterId : Bytes} {info old : ClusterEntry}
    (h : σ.Ok freed) (hold : σ.clusterMap.get? clusterId = some old) :
    (σ.save clusterId (info.keeping old)).Ok freed := by
  have hkeep : (info.keeping old).clusterHandler = old.clusterHandler := rfl
  refine h.save rfl rfl rfl (by rw [hkeep]; exact h.cluster hold) ?_
  rw [custody_keeping hold]
  exact h.sound

theorem Topology.Ok.opening {freed : List ℕ} {σ : Topology} {clusterId : Bytes} {info : ClusterEntry}
    (h : σ.Ok freed) :
    (({ σ with handlers := σ.handlers + 1 } : Topology).save clusterId (σ.opening info)).Ok freed := by
  refine h.save rfl rfl rfl (by simp [Topology.opening]) ?_
  rw [custody_created rfl]
  exact h.sound.make

theorem Topology.Ok.created {freed : List ℕ} {σ : Topology} (h : σ.Ok freed) :
    ({ σ with handlers := σ.handlers + 1 } : Topology).Ok freed where
  sound := h.sound.drop
  cluster := h.cluster
  unused := h.unused
  slots := h.slots

theorem Topology.Ok.saveLoop {freed : List ℕ} {σ : Topology} (h : σ.Ok freed) (connects : Bytes → Bool)
    (clusters : List (Bytes × ClusterEntry)) : (saveLoop connects clusters σ).2.Ok freed := by
  rcases saveLoop_invariant (I := Topology.Ok freed) connects
    (fun _ _ _ _ hI hold => hI.keeping hold) (fun _ _ _ hI _ => hI.opening) clusters σ h with
    ⟨-, hok⟩ | ⟨-, τ, hok, heq⟩
  · exact hok
  · rw [heq]
    exact hok.created

/-! ### The nodes that have left -/

section Drop

variable {freed : List ℕ} {σ : Topology} {clusterMap : StdMap Bytes ClusterEntry}

theorem mem_unusedClusters {clusterId : Bytes} {info : ClusterEntry} :
    (clusterId, info) ∈ σ.clusterMap.entries.filter (fun x => (clusterMap.get? x.1).isNone) ↔
      σ.clusterMap.get? clusterId = some info ∧ (clusterMap.get? clusterId).isNone := by
  rw [mem_filter, StdMap.get?_eq_some_iff]

theorem dropUnused_clusterMap (σ : Topology) (clusterMap : StdMap Bytes ClusterEntry) (clusterId : Bytes) :
    (σ.dropUnused clusterMap).clusterMap.get? clusterId =
      if (clusterMap.get? clusterId).isSome then σ.clusterMap.get? clusterId else none := by
  rw [Topology.dropUnused, StdMap.get?_foldl_erase]
  have hmem : clusterId ∈ (σ.clusterMap.entries.filter fun x => (clusterMap.get? x.1).isNone).map fst ↔
      ∃ info, σ.clusterMap.get? clusterId = some info ∧ (clusterMap.get? clusterId).isNone := by
    rw [List.mem_map]
    constructor
    · rintro ⟨x, hx, rfl⟩
      exact ⟨x.2, mem_unusedClusters.1 hx⟩
    · rintro ⟨info, h⟩
      exact ⟨(clusterId, info), mem_unusedClusters.2 h, rfl⟩
  simp only [hmem]
  cases hnew : clusterMap.get? clusterId <;> cases hold : σ.clusterMap.get? clusterId <;> simp

theorem dropUnused_unusedHandlers (σ : Topology) (clusterMap : StdMap Bytes ClusterEntry)
    (clusterId : Bytes) :
    (σ.dropUnused clusterMap).unusedHandlers.get? clusterId =
      if (clusterMap.get? clusterId).isSome then σ.unusedHandlers.get? clusterId
      else ((σ.clusterMap.get? clusterId).map ClusterEntry.clusterHandler).or
        (σ.unusedHandlers.get? clusterId) := by
  -- the loop assigns to different keys
  let gone := (σ.clusterMap.entries.filter fun x => (clusterMap.get? x.1).isNone).map
    fun x => (x.1, x.2.clusterHandler)
  have hloop : (σ.dropUnused clusterMap).unusedHandlers = σ.unusedHandlers.assignAll gone := by
    simp only [Topology.dropUnused, StdMap.assignAll, gone, foldl_map]
  have hkeys : gone.map fst =
      (σ.clusterMap.entries.filter fun x => (clusterMap.get? x.1).isNone).map fst := by
    simp [gone, comp_def]
  have hnodup : (gone.map fst).Nodup := by
    rw [hkeys]
    exact σ.clusterMap.nodup.sublist (filter_sublist.map _)
  have hgone : ∀ handler, (clusterId, handler) ∈ gone ↔ ∃ info, (σ.clusterMap.get? clusterId = some info ∧
      (clusterMap.get? clusterId).isNone) ∧ info.clusterHandler = handler := by
    intro handler
    simp only [gone, List.mem_map]
    constructor
    · rintro ⟨x, hx, heq⟩
      obtain ⟨rfl, rfl⟩ := mk.inj heq
      exact ⟨x.2, mem_unusedClusters.1 hx, rfl⟩
    · rintro ⟨info, h, rfl⟩
      exact ⟨(clusterId, info), mem_unusedClusters.2 h, rfl⟩
  have hkey : clusterId ∈ gone.map fst ↔ ∃ handler, (clusterId, handler) ∈ gone := by
    simp [List.mem_map]
  refine ext fun handler => ?_
  rw [hloop, StdMap.get?_assignAll hnodup, hkey]
  simp only [hgone]
  cases hnew : clusterMap.get? clusterId <;> cases hold : σ.clusterMap.get? clusterId <;> simp

def placeBefore (σ : Topology) (clusterMap : StdMap Bytes ClusterEntry) : Place → Place
  | .cluster clusterId => .cluster clusterId
  | .unused clusterId =>
    if (clusterMap.get? clusterId).isNone && (σ.clusterMap.get? clusterId).isSome then .cluster clusterId
    else .unused clusterId

theorem holds_dropUnused_cluster (clusterId : Bytes) :
    (σ.dropUnused clusterMap).holds (.cluster clusterId) =
      if (clusterMap.get? clusterId).isSome then σ.holds (.cluster clusterId) else none := by
  rw [Topology.holds, dropUnused_clusterMap]
  split <;> rfl

theorem holds_dropUnused_unused (h : σ.Ok freed) (clusterId : Bytes) :
    (σ.dropUnused clusterMap).holds (.unused clusterId) =
      σ.holds (placeBefore σ clusterMap (.unused clusterId)) := by
  rw [Topology.holds, dropUnused_unusedHandlers, placeBefore]
  cases hnew : clusterMap.get? clusterId with
  | some info => simp [Topology.holds]
  | none =>
    cases hold : σ.clusterMap.get? clusterId with
    | none => simp [Topology.holds]
    | some old =>
      obtain ⟨handler, hhandler⟩ := ne_none_iff_exists'.1 (h.cluster hold)
      simp [Topology.holds, hold, hhandler]

theorem custody_dropUnused (h : σ.Ok freed) : ((σ.dropUnused clusterMap).custody freed).Sound := by
  have hcluster : ∀ {id n}, (σ.dropUnused clusterMap).holds (.cluster id) = some n →
      (clusterMap.get? id).isSome ∧ σ.holds (.cluster id) = some n := by
    intro id n hn
    rw [holds_dropUnused_cluster] at hn
    exact ite_none_right_eq_some.1 hn
  -- a pool that has left stands for a node that is not in the new map
  have hleft : ∀ {id id' n}, (σ.dropUnused clusterMap).holds (.cluster id) = some n →
      placeBefore σ clusterMap (.unused id') ≠ .cluster id := by
    intro id id' n hn heq
    rw [placeBefore] at heq
    split at heq
    case isFalse => cases heq
    case isTrue hgone =>
      obtain rfl := Place.cluster.inj heq
      have hsome := (hcluster hn).1
      simp_all
  refine h.sound.move (placeBefore σ clusterMap) ?_ ?_
  · intro place n hn
    cases place with
    | cluster id => exact (hcluster hn).2
    | unused id => rwa [holds_dropUnused_unused h] at hn
  · intro p q n hp hq heq
    cases p with
    | cluster id =>
      cases q with
      | cluster id' => exact heq
      | unused id' => exact absurd heq.symm (hleft hp)
    | unused id =>
      cases q with
      | cluster id' => exact absurd heq (hleft hq)
      | unused id' =>
        simp only [placeBefore] at heq
        split at heq <;> split at heq <;> cases heq <;> rfl

theorem Topology.Ok.dropUnused (h : σ.Ok freed)
    (hslots : ∀ {slot clusterId}, σ.slotMap.get? slot = some clusterId → (clusterMap.get? clusterId).isSome) :
    (σ.dropUnused clusterMap).Ok freed where
  sound := custody_dropUnused h
  cluster := by
    intro clusterId info hget
    rw [dropUnused_clusterMap] at hget
    exact h.cluster (ite_none_right_eq_some.1 hget).2
  unused := by
    intro clusterId handler hget
    rw [dropUnused_unusedHandlers] at hget
    split at hget
    · exact h.unused hget
    · rcases or_eq_some_iff.1 hget with hget | ⟨-, hget⟩
      · obtain ⟨info, hinfo, rfl⟩ := map_eq_some_iff.1 hget
        exact h.cluster hinfo
      · exact h.unused hget
  slots := by
    intro slot clusterId hslot
    rw [dropUnused_clusterMap, if_pos (hslots hslot)]
    exact h.slots hslot

end Drop

/-! ### A refresh -/

section Refresh

variable {freed : List ℕ} {σ : Topology} {connects : Bytes → Bool} {clusterMap : StdMap Bytes ClusterEntry}

theorem servedBy_eq_some {slot : ℕ} {before : Option Bytes} {clusters : List (Bytes × ClusterEntry)}
    {clusterId : Bytes} (h : servedBy slot before clusters = some clusterId) :
    before = some clusterId ∨ ∃ x ∈ clusters, x.1 = clusterId ∧ Serves slot x.2 := by
  induction clusters generalizing before with
  | nil => exact .inl h
  | cons x rest ih =>
    rcases ih h with hx | ⟨y, hy, hserves⟩
    · dsimp only at hx
      split at hx
      case isTrue hserves => exact .inr ⟨x, mem_cons_self, some.inj hx, hserves⟩
      case isFalse => exact .inl hx
    · exact .inr ⟨y, mem_cons_of_mem _ hy, hserves⟩

theorem servedBy_isSome {slot : ℕ} {before : Option Bytes} {clusters : List (Bytes × ClusterEntry)}
    (h : before.isSome ∨ ∃ x ∈ clusters, Serves slot x.2) : (servedBy slot before clusters).isSome := by
  induction clusters generalizing before with
  | nil => simpa [servedBy] using h
  | cons x rest ih =>
    refine ih ?_
    by_cases hx : Serves slot x.2
    · simp [hx]
    · simpa [hx] using h

theorem saveLoop_slotMap_serves {slot : ℕ} {clusterId : Bytes}
    (h : (saveLoop connects clusterMap.entries { σ with slotMap := ∅ }).2.slotMap.get? slot = some clusterId) :
    ∃ info, clusterMap.get? clusterId = some info ∧ Serves slot info := by
  rw [saveLoop_slotMap connects slot _ _ clusterMap.nodup] at h
  rcases servedBy_eq_some h with hnone | ⟨x, hx, rfl, hserves⟩
  · cases hnone
  · exact ⟨x.2, StdMap.get?_eq_some_iff.2 ((takeWhile_sublist _).subset hx), hserves⟩

theorem checkAndSaveRedisClusters_eq (connects : Bytes → Bool) (clusterMap : StdMap Bytes ClusterEntry)
    (σ : Topology) :
    checkAndSaveRedisClusters connects clusterMap σ =
      let loop := saveLoop connects clusterMap.entries { σ with slotMap := ∅ }
      (loop.1, if loop.1 then loop.2.dropUnused clusterMap else loop.2) := by
  rw [checkAndSaveRedisClusters]
  split
  case h_1 τ hloop => simp [hloop]
  case h_2 τ hloop => simp [hloop]

theorem Topology.Ok.clear (h : σ.Ok freed) : ({ σ with slotMap := ∅ } : Topology).Ok freed :=
  ⟨h.sound, h.cluster, h.unused, by intro slot id hslot; simp at hslot⟩

theorem Topology.Ok.checkAndSaveRedisClusters (h : σ.Ok freed) (connects : Bytes → Bool)
    (clusterMap : StdMap Bytes ClusterEntry) :
    (checkAndSaveRedisClusters connects clusterMap σ).2.Ok freed := by
  have hloop := h.clear.saveLoop connects clusterMap.entries
  rw [checkAndSaveRedisClusters_eq]
  simp only
  split
  · refine hloop.dropUnused ?_
    intro slot id hslot
    obtain ⟨info, hinfo, -⟩ := saveLoop_slotMap_serves hslot
    simp [hinfo]
  · exact hloop

structure Installed (clusterMap : StdMap Bytes ClusterEntry) (σ : Topology) : Prop where
  keys : ∀ clusterId, clusterId ∈ σ.clusterMap.keys ↔ clusterId ∈ clusterMap.keys
  serves : ∀ slot clusterId, σ.slotMap.get? slot = some clusterId →
    ∃ info, clusterMap.get? clusterId = some info ∧ Serves slot info
  complete : ∀ x ∈ clusterMap.entries, ∀ slot, Serves slot x.2 → (σ.slotMap.get? slot).isSome

theorem saveLoop_fst (connects : Bytes → Bool) (clusters : List (Bytes × ClusterEntry)) (σ : Topology)
    (hnodup : (clusters.map fst).Nodup) :
    (saveLoop connects clusters σ).1 = true ↔ accepted connects σ clusters = clusters := by
  induction clusters generalizing σ with
  | nil => simp [saveLoop, accepted]
  | cons x rest ih =>
    obtain ⟨hnew, hrest⟩ := nodup_cons.1 hnodup
    by_cases hx : ((σ.clusterMap.get? x.1).isSome || connects x.1) = true
    · obtain ⟨τ, entry, hrun, -, hclusters, -, -⟩ := saveLoop_cons rest hx
      rw [hrun, ih _ hrest, accepted_save hclusters hnew, accepted_cons rest hx,
        cons_inj_right]
    · rw [saveLoop_refused hx]
      simp [accepted, hx]

theorem checkAndSaveRedisClusters_fst (connects : Bytes → Bool) (clusterMap : StdMap Bytes ClusterEntry)
    (σ : Topology) :
    (checkAndSaveRedisClusters connects clusterMap σ).1 = true ↔
      ∀ x ∈ clusterMap.entries, (σ.clusterMap.get? x.1).isSome ∨ connects x.1 := by
  rw [checkAndSaveRedisClusters_eq]
  simp only
  rw [saveLoop_fst connects _ _ clusterMap.nodup, accepted, takeWhile_eq_self_iff]
  simp

theorem saveLoop_clusterMap_notMem {clusterId : Bytes} (hnone : clusterMap.get? clusterId = none) :
    (saveLoop connects clusterMap.entries σ).2.clusterMap.get? clusterId = σ.clusterMap.get? clusterId := by
  refine saveLoop_clusterMap_other connects _ _ clusterMap.nodup ?_
  intro hmem
  obtain ⟨x, hx, rfl⟩ := mem_map.1 hmem
  have hsome := StdMap.get?_eq_some_iff.2 ((takeWhile_sublist _).subset hx)
  rw [hnone] at hsome
  cases hsome

theorem shows_of_accepted (h : (checkAndSaveRedisClusters connects clusterMap σ).1 = true)
    {clusterId : Bytes} {info : ClusterEntry} (hget : clusterMap.get? clusterId = some info) :
    ∃ entry, (checkAndSaveRedisClusters connects clusterMap σ).2.clusterMap.get? clusterId = some entry ∧
      entry.Shows info := by
  rw [checkAndSaveRedisClusters_eq] at h ⊢
  simp only at h ⊢
  rw [if_pos h, dropUnused_clusterMap, hget, isSome_some, if_pos rfl]
  rw [saveLoop_fst connects _ _ clusterMap.nodup] at h
  have hmem : (clusterId, info) ∈ accepted connects { σ with slotMap := ∅ } clusterMap.entries := by
    rw [h]
    exact StdMap.get?_eq_some_iff.1 hget
  obtain ⟨entry, hentry, hshows, -⟩ := saveLoop_clusterMap_accepted connects _ _ clusterMap.nodup hmem
  exact ⟨entry, hentry, hshows⟩

theorem installed_of_accepted (h : (checkAndSaveRedisClusters connects clusterMap σ).1 = true) :
    Installed clusterMap (checkAndSaveRedisClusters connects clusterMap σ).2 := by
  have hshows : ∀ id info, clusterMap.get? id = some info → ∃ entry,
      (checkAndSaveRedisClusters connects clusterMap σ).2.clusterMap.get? id = some entry := by
    intro id info hget
    obtain ⟨entry, hentry, -⟩ := shows_of_accepted h hget
    exact ⟨entry, hentry⟩
  rw [checkAndSaveRedisClusters_eq] at h hshows ⊢
  simp only at h hshows ⊢
  rw [if_pos h] at hshows ⊢
  rw [saveLoop_fst connects _ _ clusterMap.nodup] at h
  refine ⟨?_, ?_, ?_⟩
  · intro clusterId
    rw [← StdMap.get?_isSome_iff, ← StdMap.get?_isSome_iff]
    cases hget : clusterMap.get? clusterId with
    | none => simp [dropUnused_clusterMap, hget]
    | some info => simpa using isSome_iff_exists.2 (hshows clusterId info hget)
  · intro slot clusterId hslot
    exact saveLoop_slotMap_serves hslot
  · intro x hx slot hserves
    show ((saveLoop connects clusterMap.entries { σ with slotMap := ∅ }).2.slotMap.get? slot).isSome = true
    rw [saveLoop_slotMap connects slot _ _ clusterMap.nodup, h]
    exact servedBy_isSome (.inr ⟨x, hx, hserves⟩)

theorem not_installed_of_refused (h : ¬ (checkAndSaveRedisClusters connects clusterMap σ).1 = true) :
    ¬ Installed clusterMap (checkAndSaveRedisClusters connects clusterMap σ).2 := by
  intro hinstalled
  obtain ⟨x, hx, hrefused⟩ : ∃ x ∈ clusterMap.entries,
      ¬ ((σ.clusterMap.get? x.1).isSome ∨ connects x.1 = true) := by
    simpa [checkAndSaveRedisClusters_fst] using h
  have hmem := (hinstalled.keys x.1).2 (mem_map_of_mem hx)
  rw [← StdMap.get?_isSome_iff, checkAndSaveRedisClusters_eq] at hmem
  rw [checkAndSaveRedisClusters_eq] at h
  simp only at h hmem
  rw [if_neg h, saveLoop_clusterMap_other connects _ _ clusterMap.nodup] at hmem
  · exact hrefused (.inl hmem)
  · -- a cluster with the id of one that refuses is not accepted
    intro haccepted
    obtain ⟨y, hy, heq⟩ := mem_map.1 haccepted
    have hknown := mem_takeWhile_imp hy
    rw [heq] at hknown
    exact hrefused (by simpa using hknown)

end Refresh

/-! ### Freeing pools -/

theorem needFreeClusters_some (canFree : ℕ → Bool) {p : Pools} (h : p.topology.Ok p.freed)
    (entries : List (Bytes × Option ℕ))
    (hentries : ∀ x ∈ entries, p.topology.unusedHandlers.get? x.1 = some x.2) :
    ∃ needFree, p.needFreeClusters canFree entries = some needFree ∧
      needFree.Sublist (entries.map fst) := by
  induction entries with
  | nil => exact ⟨[], rfl, List.Sublist.refl _⟩
  | cons x rest ih =>
    obtain ⟨hx, hrest⟩ := forall_mem_cons.1 hentries
    obtain ⟨needFree, hneed, hsub⟩ := ih hrest
    obtain ⟨clusterId, handler⟩ := x
    cases handler with
    | none => exact absurd rfl (h.unused hx)
    | some handler =>
      have hlive : handler ∉ p.freed :=
        h.sound.notMem (p := .unused clusterId) (by simp [Topology.custody, Topology.holds, hx])
      refine ⟨if canFree handler then clusterId :: needFree else needFree, ?_, ?_⟩
      · simp [Pools.needFreeClusters, hlive, hneed]
      · split
        · exact hsub.cons_cons _
        · exact hsub.cons _

structure Released (p p' : Pools) : Prop where
  ok : p'.topology.Ok p'.freed
  clusterMap : p'.topology.clusterMap = p.topology.clusterMap
  slotMap : p'.topology.slotMap = p.topology.slotMap
  handlers : p'.topology.handlers = p.topology.handlers
  connectionNum : p'.topology.connectionNum = p.topology.connectionNum
  connectTimeout : p'.topology.connectTimeout = p.topology.connectTimeout
  kept : ∀ {base}, (p.topology.custody p.freed).Kept base → (p'.topology.custody p'.freed).Kept base

theorem Released.trans {p p' p'' : Pools} (h : Released p p') (h' : Released p' p'') : Released p p'' where
  ok := h'.ok
  clusterMap := h'.clusterMap.trans h.clusterMap
  slotMap := h'.slotMap.trans h.slotMap
  handlers := h'.handlers.trans h.handlers
  connectionNum := h'.connectionNum.trans h.connectionNum
  connectTimeout := h'.connectTimeout.trans h.connectTimeout
  kept hkept := h'.kept (h.kept hkept)

theorem free_ok {p : Pools} {clusterId : Bytes} {handler : ℕ} (h : p.topology.Ok p.freed)
    (hget : p.topology.unusedHandlers.get? clusterId = some (some handler)) :
    ∃ p', p.free clusterId = some p' ∧ Released p p' ∧
      ∀ id ≠ clusterId, p'.topology.unusedHandlers.get? id = p.topology.unusedHandlers.get? id := by
  have hholds : (p.topology.custody p.freed).holds (.unused clusterId) = some handler := by
    simp [Topology.custody, Topology.holds, hget]
  have hlive : handler ∉ p.freed := h.sound.notMem hholds
  let τ : Topology := { p.topology with unusedHandlers := p.topology.unusedHandlers.erase clusterId }
  have hcustody : τ.custody (handler :: p.freed) =
      (p.topology.custody p.freed).free (.unused clusterId) handler := by
    have hτ : τ.holds = update p.topology.holds (.unused clusterId) none := by
      funext place
      cases place with
      | cluster id => rfl
      | unused id => by_cases hid : id = clusterId <;> simp [Topology.holds, τ, StdMap.get?_erase, hid]
    simp only [Topology.custody, hτ]
    rfl
  refine ⟨⟨τ, handler :: p.freed⟩, ?_, ⟨⟨?_, h.cluster, ?_, h.slots⟩, rfl, rfl, rfl, rfl, rfl, ?_⟩, ?_⟩
  · simp [Pools.free, hget, hlive, τ]
  · rw [hcustody]
    exact h.sound.free hholds
  · intro id handler' hid
    rw [show τ.unusedHandlers = p.topology.unusedHandlers.erase clusterId from rfl, StdMap.get?_erase] at hid
    split at hid
    · cases hid
    · exact h.unused hid
  · intro base hkept
    rw [hcustody]
    exact hkept.free hholds
  · intro id hid
    simp [τ, StdMap.get?_erase, hid]

theorem releaseUnusedClusterHandler_ok {p : Pools} (h : p.topology.Ok p.freed) (canFree : ℕ → Bool) :
    ∃ p', releaseUnusedClusterHandler canFree p = some p' ∧ Released p p' := by
  obtain ⟨needFree, hneed, hsub⟩ := needFreeClusters_some canFree h
    p.topology.unusedHandlers.entries (fun x hx => StdMap.get?_eq_some_iff.2 hx)
  rw [releaseUnusedClusterHandler, hneed, bind_some]
  -- the second loop: the pools that are still to be freed are held, and different
  have hloop : ∀ (needFree : List Bytes) (p : Pools), p.topology.Ok p.freed → needFree.Nodup →
      (∀ id ∈ needFree, (p.topology.unusedHandlers.get? id).isSome) →
      ∃ p', needFree.foldlM Pools.free p = some p' ∧ Released p p' := by
    intro needFree
    induction needFree with
    | nil => intro p h _ _; exact ⟨p, rfl, h, rfl, rfl, rfl, rfl, rfl, id⟩
    | cons id needFree ih =>
      intro p h hnodup hheld
      obtain ⟨hnew, hnodup⟩ := nodup_cons.1 hnodup
      obtain ⟨hid, hheld⟩ := forall_mem_cons.1 hheld
      obtain ⟨pointer, hpointer⟩ := isSome_iff_exists.1 hid
      obtain ⟨handler, rfl⟩ := ne_none_iff_exists'.1 (h.unused hpointer)
      obtain ⟨p₁, hfree, hreleased, hothers⟩ := free_ok h hpointer
      have hheld₁ : ∀ id' ∈ needFree, (p₁.topology.unusedHandlers.get? id').isSome := by
        intro id' hid'
        rw [hothers id' (fun heq => hnew (heq ▸ hid'))]
        exact hheld id' hid'
      obtain ⟨p₂, hrun, hreleased₂⟩ := ih p₁ hreleased.ok hnodup hheld₁
      refine ⟨p₂, ?_, hreleased.trans hreleased₂⟩
      rw [foldlM_cons, hfree]
      exact hrun
  refine hloop needFree p h (p.topology.unusedHandlers.nodup.sublist hsub) ?_
  intro id hid
  exact StdMap.get?_isSome_iff.2 (hsub.subset hid)

/-! ### The first pools -/

structure Topology.Starting (pending : List Bytes) (σ : Topology) : Prop where
  sound : (σ.custody []).Sound
  cluster : ∀ {clusterId info}, σ.clusterMap.get? clusterId = some info →
    clusterId ∈ pending ∨ info.clusterHandler ≠ none
  unused : σ.unusedHandlers = ∅
  slots : ∀ {slot clusterId}, σ.slotMap.get? slot = some clusterId → (σ.clusterMap.get? clusterId).isSome

theorem initLoop_starting {connects : Bytes → Bool} (clusters : List (Bytes × ClusterEntry)) (σ : Topology)
    (h : σ.Starting (clusters.map fst)) (hinit : (initLoop connects clusters σ).1 = true) :
    (initLoop connects clusters σ).2.Starting [] := by
  induction clusters generalizing σ with
  | nil => exact h
  | cons x rest ih =>
    rw [initLoop] at hinit ⊢
    simp only at hinit ⊢
    split at hinit
    case isFalse => cases hinit
    case isTrue hconnects =>
      rw [if_pos hconnects]
      refine ih _ ⟨?_, ?_, h.unused, ?_⟩ hinit
      · rw [custody_created rfl]
        exact h.sound.make
      · intro id info hid
        rw [Topology.save, StdMap.get?_assign] at hid
        split at hid
        · exact .inr (some.inj hid ▸ by simp)
        case isFalse hne =>
          exact (h.cluster hid).imp_left fun hmem => (mem_cons.1 hmem).resolve_left hne
      · exact Topology.save_slots fun _ _ => h.slots

def stored (params : ConnectionParams) (clusterMap : ClusterMap) : Topology where
  clusterMap := report clusterMap
  connectionNum := params.connectionNum
  connectTimeout := params.connectTimeout

theorem initRedisCluster_ok {connects : Bytes → Bool} {params : ConnectionParams} {clusterMap : ClusterMap}
    (hinit : (initRedisCluster connects (stored params clusterMap)).1 = true) :
    (initRedisCluster connects (stored params clusterMap)).2.Ok [] := by
  have hnull : (stored params clusterMap).holds = fun _ => none := by
    funext place
    cases place with
    | unused id => rfl
    | cluster id =>
      refine bind_eq_none_iff.2 fun info hinfo => ?_
      have hmem := StdMap.get?_eq_some_iff.1 hinfo
      obtain ⟨x, -, heq⟩ := mem_map.1 hmem
      exact (mk.inj heq).2 ▸ rfl
  have hstart : (stored params clusterMap).Starting ((report clusterMap).entries.map fst) := by
    refine ⟨?_, ?_, rfl, ?_⟩
    · simp only [Topology.custody, hnull]
      exact ⟨by simp, by simp, by simp, by simp⟩
    · intro id info hid
      exact .inl (StdMap.mem_keys_of_get? hid)
    · intro slot id hslot
      simp [stored] at hslot
  have hdone : (initRedisCluster connects (stored params clusterMap)).2.Starting [] :=
    initLoop_starting _ _ hstart hinit
  refine ⟨hdone.sound, ?_, ?_, hdone.slots⟩
  · intro id info hid
    exact (hdone.cluster hid).resolve_left (not_mem_nil)
  · intro id handler hid
    rw [hdone.unused] at hid
    cases hid

end GBDownLinker
