/-
**The pools over every sequence of calls.**

The maps stay consistent whatever happens.  A pool may be lost, however: one made for a node that then refuses
the connection, and one of a node that leaves, comes back and leaves again before its first pool could be
freed.
-/

import BackendProgramming.ClusterPools
import BackendProgramming.Lts

set_option autoImplicit false

namespace GBDownLinker

open CText

/-! ### Every sequence of calls -/

inductive PoolCall where
  | checkAndSaveRedisClusters (connects : Bytes → Bool) (clusterMap : StdMap Bytes ClusterEntry)
  | releaseUnusedClusterHandler (canFree : ℕ → Bool)

def Pools.step (p : Pools) : PoolCall → Option Pools
  | .checkAndSaveRedisClusters connects clusterMap =>
    some { p with
      topology := (GBDownLinker.checkAndSaveRedisClusters connects clusterMap p.topology).2 }
  | .releaseUnusedClusterHandler canFree => GBDownLinker.releaseUnusedClusterHandler canFree p

structure Routed (p : Pools) : Prop where
  slots : ∀ slot clusterId, p.topology.slotMap.get? slot = some clusterId →
    clusterId ∈ p.topology.clusterMap.keys
  alive : ∀ x ∈ p.topology.clusterMap.entries,
    ∃ handler, x.2.clusterHandler = some handler ∧ handler < p.topology.handlers ∧ handler ∉ p.freed
  unshared : ∀ x ∈ p.topology.clusterMap.entries, ∀ y ∈ p.topology.clusterMap.entries,
    x.2.clusterHandler = y.2.clusterHandler → x = y
  apart : ∀ x ∈ p.topology.clusterMap.entries, ∀ y ∈ p.topology.unusedHandlers.entries,
    x.2.clusterHandler ≠ y.2

theorem Topology.Ok.routed {p : Pools} (h : p.topology.Ok p.freed) : Routed p := by
  have hheld : ∀ x ∈ p.topology.clusterMap.entries, ∃ handler, x.2.clusterHandler = some handler ∧
      (p.topology.custody p.freed).holds (.cluster x.1) = some handler := by
    intro x hx
    have hget := StdMap.get?_eq_some_iff.2 hx
    obtain ⟨handler, hhandler⟩ := Option.ne_none_iff_exists'.1 (h.cluster hget)
    exact ⟨handler, hhandler, (Topology.holds_cluster hget).trans hhandler⟩
  refine ⟨fun slot id hslot => StdMap.get?_isSome_iff.1 (h.slots hslot), ?_, ?_, ?_⟩
  · intro x hx
    obtain ⟨handler, hhandler, hholds⟩ := hheld x hx
    exact ⟨handler, hhandler, h.sound.lt hholds, h.sound.notMem hholds⟩
  · intro x hx y hy heq
    obtain ⟨handler, hhandler, hholds⟩ := hheld x hx
    obtain ⟨handler', hhandler', hholds'⟩ := hheld y hy
    obtain rfl : handler = handler' := by simpa [hhandler, hhandler'] using heq
    have hkey := Place.cluster.inj (h.sound.inj hholds hholds')
    exact List.inj_on_of_nodup_map p.topology.clusterMap.nodup hx hy hkey
  · intro x hx y hy heq
    obtain ⟨handler, hhandler, hholds⟩ := hheld x hx
    have hunused : (p.topology.custody p.freed).holds (.unused y.1) = some handler := by
      simp [Topology.custody, Topology.holds, StdMap.get?_eq_some_iff.2 hy, ← heq, hhandler]
    cases h.sound.inj hholds hunused

theorem step_ok {p : Pools} (h : p.topology.Ok p.freed) (call : PoolCall) :
    ∃ p', p.step call = some p' ∧ p'.topology.Ok p'.freed := by
  cases call with
  | checkAndSaveRedisClusters connects clusterMap =>
    exact ⟨_, rfl, h.checkAndSaveRedisClusters connects clusterMap⟩
  | releaseUnusedClusterHandler canFree =>
    obtain ⟨p', hstep, hreleased⟩ := releaseUnusedClusterHandler_ok h canFree
    exact ⟨p', hstep, hreleased.ok⟩

theorem run_ok {p : Pools} (h : p.topology.Ok p.freed) (calls : List PoolCall) :
    ∃ p', Lts.run Pools.step p calls = some p' ∧ p'.topology.Ok p'.freed :=
  Lts.exists_run (I := fun p : Pools => p.topology.Ok p.freed) (fun _ call h _ => step_ok h call) h
    (Lts.Along.of_true p calls)

theorem routed_of_run (params : ConnectionParams) (clusterMap : ClusterMap) (connects : Bytes → Bool)
    (hinit : (initRedisCluster connects (stored params clusterMap)).1 = true) (calls : List PoolCall) :
    ∃ p, Lts.run Pools.step ⟨(initRedisCluster connects (stored params clusterMap)).2, []⟩ calls = some p ∧
      Routed p ∧
      ∀ connects clusterMap, (checkAndSaveRedisClusters connects clusterMap p.topology).1 = true →
        Installed clusterMap (checkAndSaveRedisClusters connects clusterMap p.topology).2 := by
  obtain ⟨p, hrun, hok⟩ := run_ok (p := ⟨_, []⟩) (initRedisCluster_ok hinit) calls
  exact ⟨p, hrun, hok.routed, fun _ _ => installed_of_accepted⟩

theorem routed_of_run_replaced :
    let a : RedisClusterInfo := { isMaster := true, slotMap := (∅ : StdMap ℕ ℕ).assign 0 1 }
    let start := initRedisCluster (fun _ => true) (stored ⟨1, 1, 1⟩ ((∅ : ClusterMap).assign (ascii "a") a))
    let new := report ((∅ : ClusterMap).assign (ascii "b") a)
    start.1 = true ∧
    ∃ p, Lts.run Pools.step ⟨start.2, []⟩
        [.checkAndSaveRedisClusters (fun _ => false) new, .checkAndSaveRedisClusters (fun _ => true) new,
          .releaseUnusedClusterHandler fun _ => true] = some p ∧ Routed p := by
  intro a start new
  have hinit : start.1 = true := rfl
  obtain ⟨p, hrun, hrouted, -⟩ := routed_of_run ⟨1, 1, 1⟩ ((∅ : ClusterMap).assign (ascii "a") a)
    (fun _ => true) hinit
    [.checkAndSaveRedisClusters (fun _ => false) new, .checkAndSaveRedisClusters (fun _ => true) new,
      .releaseUnusedClusterHandler fun _ => true]
  exact ⟨hinit, p, hrun, hrouted⟩

/-! ### Pools that are lost -/

def Retained (base : ℕ) (p : Pools) : Prop :=
  ∀ handler, base ≤ handler → handler < p.topology.handlers →
    (∃ x ∈ p.topology.clusterMap.entries, x.2.clusterHandler = some handler) ∨
    (∃ x ∈ p.topology.unusedHandlers.entries, x.2 = some handler) ∨ handler ∈ p.freed

theorem retained_iff_kept {base : ℕ} {p : Pools} :
    Retained base p ↔ (p.topology.custody p.freed).Kept base := by
  have hplaces : ∀ handler, (∃ place, p.topology.holds place = some handler) ↔
      (∃ x ∈ p.topology.clusterMap.entries, x.2.clusterHandler = some handler) ∨
      ∃ x ∈ p.topology.unusedHandlers.entries, x.2 = some handler := by
    intro handler
    constructor
    · rintro ⟨place, hplace⟩
      cases place with
      | cluster id =>
        obtain ⟨info, hget, hhandler⟩ := Option.bind_eq_some_iff.1 hplace
        exact .inl ⟨(id, info), StdMap.get?_eq_some_iff.1 hget, hhandler⟩
      | unused id =>
        exact .inr ⟨(id, some handler), StdMap.get?_eq_some_iff.1 (Option.join_eq_some_iff.1 hplace), rfl⟩
    · rintro (⟨x, hx, hhandler⟩ | ⟨x, hx, hhandler⟩)
      · exact ⟨.cluster x.1, (Topology.holds_cluster (StdMap.get?_eq_some_iff.2 hx)).trans hhandler⟩
      · refine ⟨.unused x.1, Option.join_eq_some_iff.2 ?_⟩
        rw [← hhandler]
        exact StdMap.get?_eq_some_iff.2 hx
  simp only [Retained, Custody.Kept, Topology.custody, hplaces, or_assoc]

section Lost

variable {base : ℕ} {freed : List ℕ} {σ : Topology}

theorem kept_dropUnused_iff (h : σ.Ok freed) (hkept : (σ.custody freed).Kept base)
    (clusterMap : StdMap Bytes ClusterEntry) :
    ((σ.dropUnused clusterMap).custody freed).Kept base ↔
      ∀ clusterId, (σ.clusterMap.get? clusterId).isSome → clusterMap.get? clusterId = none →
        ∀ handler, σ.unusedHandlers.get? clusterId = some (some handler) → handler < base := by
  have hinj : ∀ {p q n}, σ.holds p = some n → σ.holds q = some n → p = q := by
    intro p q n hp hq
    exact h.sound.inj (p := p) (q := q) (n := n) hp hq
  refine (h.sound.kept_move_iff hkept).trans ?_
  simp only [Topology.custody_holds]
  constructor
  · intro hmoved id hid hgone handler hunused
    by_contra hbase
    have hholds : σ.holds (.unused id) = some handler := by simp [Topology.holds, hunused]
    obtain ⟨place, hplace⟩ := hmoved (.unused id) handler (Nat.le_of_not_lt hbase) hholds
    -- the pool was at one place only, and that one has been given to another pool
    cases place with
    | cluster id' =>
      rw [holds_dropUnused_cluster] at hplace
      cases hinj (Option.ite_none_right_eq_some.1 hplace).2 hholds
    | unused id' =>
      rw [holds_dropUnused_unused h] at hplace
      have heq := hinj hplace hholds
      rw [placeBefore] at heq
      split at heq
      case isTrue => cases heq
      case isFalse hstay =>
        obtain rfl := Place.unused.inj heq
        simp [hgone, hid] at hstay
  · intro hfree place n hbase hn
    cases place with
    | cluster id =>
      cases hnew : clusterMap.get? id with
      | some info => exact ⟨.cluster id, by simpa [holds_dropUnused_cluster, hnew] using hn⟩
      | none =>
        obtain ⟨info, hget, -⟩ := Option.bind_eq_some_iff.1 hn
        refine ⟨.unused id, ?_⟩
        rw [holds_dropUnused_unused h, placeBefore, hnew, hget]
        exact hn
    | unused id =>
      refine ⟨.unused id, ?_⟩
      rw [holds_dropUnused_unused h, placeBefore]
      split
      case isFalse => exact hn
      case isTrue hgone =>
        simp only [Bool.and_eq_true, Option.isNone_iff_eq_none] at hgone
        have := hfree id hgone.2 hgone.1 n (Option.join_eq_some_iff.1 hn)
        omega

theorem kept_saveLoop (h : σ.Ok freed) (hkept : (σ.custody freed).Kept base) (hbase : base ≤ σ.handlers)
    (connects : Bytes → Bool) (clusters : List (Bytes × ClusterEntry)) :
    ((saveLoop connects clusters σ).2.custody freed).Kept base ↔
      (saveLoop connects clusters σ).1 = true := by
  rcases saveLoop_invariant
    (I := fun τ => τ.Ok freed ∧ (τ.custody freed).Kept base ∧ base ≤ τ.handlers) connects
    (by
      rintro τ id info old ⟨hok, hkept, hbase⟩ hold
      refine ⟨hok.keeping hold, ?_, hbase⟩
      rwa [custody_keeping hold])
    (by
      rintro τ id info ⟨hok, hkept, hbase⟩ hnone
      refine ⟨hok.opening, ?_, Nat.le_succ_of_le hbase⟩
      rw [custody_created rfl]
      exact hkept.make (by simp [Topology.holds, hnone]))
    clusters σ ⟨h, hkept, hbase⟩ with ⟨htrue, -, hkept, -⟩ | ⟨hfalse, τ, ⟨hok, -, hbase⟩, heq⟩
  · exact iff_of_true hkept htrue
  · refine iff_of_false ?_ (by simp [hfalse])
    rw [heq]
    exact hok.sound.not_kept_drop hbase

theorem kept_checkAndSave_iff (h : σ.Ok freed) (hkept : (σ.custody freed).Kept base)
    (hbase : base ≤ σ.handlers) (connects : Bytes → Bool) (clusterMap : StdMap Bytes ClusterEntry) :
    ((checkAndSaveRedisClusters connects clusterMap σ).2.custody freed).Kept base ↔
      (∀ x ∈ clusterMap.entries, (σ.clusterMap.get? x.1).isSome ∨ connects x.1) ∧
      ∀ clusterId, (σ.clusterMap.get? clusterId).isSome → clusterMap.get? clusterId = none →
        ∀ handler, σ.unusedHandlers.get? clusterId = some (some handler) → handler < base := by
  have hloop := kept_saveLoop h.clear hkept hbase connects clusterMap.entries
  rw [← checkAndSaveRedisClusters_fst, checkAndSaveRedisClusters_eq]
  simp only
  split
  case isFalse hrefused => simp [hloop, hrefused]
  case isTrue hdone =>
    have hτ := h.clear.saveLoop connects clusterMap.entries
    have hunused := saveLoop_unusedHandlers connects clusterMap.entries { σ with slotMap := ∅ }
    rw [kept_dropUnused_iff hτ (hloop.2 hdone) clusterMap, hunused]
    constructor
    · intro hfree
      refine ⟨hdone, fun id hid hnone => hfree id ?_ hnone⟩
      rw [saveLoop_clusterMap_notMem hnone]
      exact hid
    · rintro ⟨-, hfree⟩ id hid hnone
      rw [saveLoop_clusterMap_notMem hnone] at hid
      exact hfree id hid hnone

theorem le_handlers_checkAndSave (hbase : base ≤ σ.handlers) (connects : Bytes → Bool)
    (clusterMap : StdMap Bytes ClusterEntry) :
    base ≤ (checkAndSaveRedisClusters connects clusterMap σ).2.handlers := by
  have hloop : base ≤ (saveLoop connects clusterMap.entries { σ with slotMap := ∅ }).2.handlers := by
    rcases saveLoop_invariant (I := fun τ => base ≤ τ.handlers) connects (fun _ _ _ _ hI _ => hI)
      (fun _ _ _ hI _ => Nat.le_succ_of_le hI) clusterMap.entries { σ with slotMap := ∅ } hbase with
      ⟨-, h⟩ | ⟨-, τ, h, heq⟩
    · exact h
    · rw [heq]
      exact Nat.le_succ_of_le h
  rw [checkAndSaveRedisClusters_eq]
  simp only
  split
  · exact hloop
  · exact hloop

end Lost

def Pools.Keeps (base : ℕ) (p : Pools) : PoolCall → Prop
  | .checkAndSaveRedisClusters connects clusterMap =>
    (∀ x ∈ clusterMap.entries, (p.topology.clusterMap.get? x.1).isSome ∨ connects x.1) ∧
    ∀ clusterId, (p.topology.clusterMap.get? clusterId).isSome → clusterMap.get? clusterId = none →
      ∀ handler, p.topology.unusedHandlers.get? clusterId = some (some handler) → handler < base
  | .releaseUnusedClusterHandler _ => True

theorem retained_iff (params : ConnectionParams) (clusterMap : ClusterMap) (connects : Bytes → Bool)
    (hinit : (initRedisCluster connects (stored params clusterMap)).1 = true) (calls : List PoolCall) :
    let start : Pools := ⟨(initRedisCluster connects (stored params clusterMap)).2, []⟩
    let base := start.topology.handlers
    Lts.Along Pools.step (fun p call => ∀ p', p.step call = some p' → Retained base p') start calls ↔
      Lts.Along Pools.step (Pools.Keeps base) start calls := by
  intro start base
  have hstart : (start.topology.custody start.freed).Kept base := by
    intro n hbase hn
    exact absurd hn (Nat.not_lt_of_le hbase)
  refine Lts.Along.iff_of_invariant (G := fun _ _ => True)
    (I := fun p => p.topology.Ok p.freed ∧ (p.topology.custody p.freed).Kept base ∧ base ≤ p.topology.handlers)
    ?_ ⟨initRedisCluster_ok hinit, hstart, le_refl _⟩ ?_
  · rintro p call ⟨hok, hkept, hbase⟩ -
    cases call with
    | checkAndSaveRedisClusters connects clusterMap =>
      have hiff := kept_checkAndSave_iff hok hkept hbase connects clusterMap
      refine ⟨?_, ?_⟩
      · simp only [Pools.step, Option.some.injEq, forall_eq', retained_iff_kept]
        exact hiff
      · rintro hkeeps p' hstep
        cases hstep
        exact ⟨hok.checkAndSaveRedisClusters connects clusterMap, hiff.2 hkeeps,
          le_handlers_checkAndSave hbase connects clusterMap⟩
    | releaseUnusedClusterHandler canFree =>
      obtain ⟨p₁, hrelease, hreleased⟩ := releaseUnusedClusterHandler_ok hok canFree
      have hsame : ∀ p', p.step (.releaseUnusedClusterHandler canFree) = some p' → p' = p₁ := by
        intro p' hstep
        exact Option.some.inj (hstep.symm.trans hrelease)
      refine ⟨iff_of_true ?_ trivial, ?_⟩
      · intro p' hstep
        rw [hsame p' hstep, retained_iff_kept]
        exact hreleased.kept hkept
      · rintro - p' hstep
        rw [hsame p' hstep]
        exact ⟨hreleased.ok, hreleased.kept hkept, hreleased.handlers ▸ hbase⟩
  · exact Lts.Along.of_true _ _

theorem retained_iff_released :
    let m : RedisClusterInfo := { isMaster := true, slotMap := (∅ : StdMap ℕ ℕ).assign 0 1 }
    let one := (∅ : ClusterMap).assign (ascii "m") m
    let start := initRedisCluster (fun _ => true) (stored ⟨1, 1, 1⟩ one)
    let both := report (one.assign (ascii "a") {})
    start.1 = true ∧
    Lts.Along Pools.step (fun p call => ∀ p', p.step call = some p' → Retained start.2.handlers p')
      ⟨start.2, []⟩
      [.checkAndSaveRedisClusters (fun _ => true) both,
        .checkAndSaveRedisClusters (fun _ => true) (report one), .releaseUnusedClusterHandler fun _ => true] := by
  intro m one start both
  have hinit : start.1 = true := rfl
  refine ⟨hinit, (retained_iff ⟨1, 1, 1⟩ one (fun _ => true) hinit _).2 ?_⟩
  refine ⟨⟨by simp, ?_⟩, ?_⟩
  · intro id _ _ handler hunused
    cases hunused
  · rintro p hp
    cases hp
    refine ⟨⟨by simp, ?_⟩, fun _ _ => ⟨trivial, fun _ _ => trivial⟩⟩
    intro id _ _ handler hunused
    cases hunused

theorem second_departure_loses_pool :
    let m : RedisClusterInfo := { isMaster := true, slotMap := (∅ : StdMap ℕ ℕ).assign 0 1 }
    let one := (∅ : ClusterMap).assign (ascii "m") m
    let start := initRedisCluster (fun _ => true) (stored ⟨1, 1, 1⟩ one)
    let both := report (one.assign (ascii "a") {})
    start.1 = true ∧
    ∃ p, Lts.run Pools.step ⟨start.2, []⟩
        [.checkAndSaveRedisClusters (fun _ => true) both,
          .checkAndSaveRedisClusters (fun _ => true) (report one),
          .releaseUnusedClusterHandler fun _ => false,
          .checkAndSaveRedisClusters (fun _ => true) both,
          .checkAndSaveRedisClusters (fun _ => true) (report one)] = some p ∧
      ¬ Retained start.2.handlers p := by
  intro m one start both
  -- the pools in the maps at the end
  have hend : (Lts.run Pools.step ⟨start.2, []⟩
      [.checkAndSaveRedisClusters (fun _ => true) both,
        .checkAndSaveRedisClusters (fun _ => true) (report one),
        .releaseUnusedClusterHandler fun _ => false,
        .checkAndSaveRedisClusters (fun _ => true) both,
        .checkAndSaveRedisClusters (fun _ => true) (report one)]).map
      (fun p => (p.topology.handlers, p.topology.clusterMap.entries.map (·.2.clusterHandler),
        p.topology.unusedHandlers.entries.map Prod.snd, p.freed)) =
      some (3, [some 0], [some 2], []) := by decide +kernel
  obtain ⟨p, hp, heq⟩ := Option.map_eq_some_iff.1 hend
  simp only [Prod.mk.injEq] at heq
  obtain ⟨hmade, hclusters, hunused, hfreed⟩ := heq
  refine ⟨rfl, p, hp, ?_⟩
  intro h
  rcases h 1 (by decide +kernel) (by rw [hmade]; decide) with ⟨x, hx, hhandler⟩ | ⟨x, hx, hhandler⟩ | hmem
  · have hmem : some 1 ∈ p.topology.clusterMap.entries.map (·.2.clusterHandler) :=
      List.mem_map.2 ⟨x, hx, hhandler⟩
    simp [hclusters] at hmem
  · have hmem : some 1 ∈ p.topology.unusedHandlers.entries.map Prod.snd := List.mem_map.2 ⟨x, hx, hhandler⟩
    simp [hunused] at hmem
  · simp [hfreed] at hmem

end GBDownLinker
