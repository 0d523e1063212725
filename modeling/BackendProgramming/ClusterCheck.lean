/-
**The check of the topology.**

`DoCheckClusterNodes` frees the pools that have left, asks the nodes for the topology until a master answers,
and saves the answer if something has changed.  It takes the cursor of the scan of a node for a part of the
topology, so that a scan that is under way looks like a change and is put back to the start.
-/

import BackendProgramming.ClusterPoolRuns

set_option autoImplicit false

namespace GBDownLinker

open CText StdString Option

/-! ### The functions -/

def getRedisClustersByCommand (params : ConnectionParams) (answer : Bytes → Option RedisReplyInfo) :
    List (Bytes × ClusterEntry) → Option (Option ClusterMap)
  | [] => some none
  | (clusterId, oldClusterInfo) :: rest =>
    if oldClusterInfo.clusterHandler = none then none
    else
      match answer clusterId with
      | none => getRedisClustersByCommand params answer rest
      | some replyInfo =>
        if replyInfo.replyType ≠ .string then some none
        else
          match replyInfo.arrayList.head?.bind ReplyArrayInfo.arrayValue with
          | none => none
          | some value =>
            -- the answer of a replica may not be the newest
            if contains (value.takeWhile (· ≠ 0)) (ascii "myself,slave") then
              getRedisClustersByCommand params answer rest
            else
              match parseClusterInfo params replyInfo with
              | (false, _) => some none
              | (true, clusterMap) => some (some clusterMap)

def slotsMissing (slotMap slotMap' : StdMap ℕ ℕ) : Bool :=
  slotMap.entries.any fun slot =>
    match slotMap'.get? slot.1 with
    | none => true
    | some stopSlotNum => slot.2 ≠ stopSlotNum

def baksMissing (bakClusterList bakClusterList' : List Bytes) : Bool :=
  bakClusterList.any fun bak => !bakClusterList'.any fun bak' => bak = bak'

def nodeChanged (clusterInfo oldClusterInfo : ClusterEntry) : Bool :=
  clusterInfo.clusterId ≠ oldClusterInfo.clusterId ||
  clusterInfo.isMaster ≠ oldClusterInfo.isMaster ||
  clusterInfo.isAlived ≠ oldClusterInfo.isAlived ||
  clusterInfo.masterClusterId ≠ oldClusterInfo.masterClusterId ||
  clusterInfo.scanCursor ≠ oldClusterInfo.scanCursor ||
  baksMissing clusterInfo.bakClusterList oldClusterInfo.bakClusterList ||
  baksMissing oldClusterInfo.bakClusterList clusterInfo.bakClusterList ||
  slotsMissing clusterInfo.slotMap oldClusterInfo.slotMap ||
  slotsMissing oldClusterInfo.slotMap clusterInfo.slotMap

def clustersChanged (clusterMap oldClusterMap : StdMap Bytes ClusterEntry) : Bool :=
  (clusterMap.entries.any fun x =>
    match oldClusterMap.get? x.1 with
    | none => true
    | some oldClusterInfo => nodeChanged x.2 oldClusterInfo) ||
  oldClusterMap.entries.any fun x => (clusterMap.get? x.1).isNone

structure Outside where
  answer : Bytes → Option RedisReplyInfo
  connects : Bytes → Bool
  canFree : ℕ → Bool

def Topology.params (σ : Topology) (readTimeout : ℕ) : ConnectionParams :=
  ⟨σ.connectionNum, σ.connectTimeout, readTimeout⟩

def saveIfChanged (connects : Bytes → Bool) (clusterMap : ClusterMap) (σ : Topology) : Topology :=
  if clustersChanged (report clusterMap) σ.clusterMap then
    (checkAndSaveRedisClusters connects (report clusterMap) σ).2
  else σ

def DoCheckClusterNodes (readTimeout : ℕ) (outside : Outside) (p : Pools) : Option Pools :=
  (releaseUnusedClusterHandler outside.canFree p).bind fun p =>
    (getRedisClustersByCommand (p.topology.params readTimeout) outside.answer
      p.topology.clusterMap.entries).map fun found =>
        match found with
        | none => p
        | some clusterMap => { p with topology := saveIfChanged outside.connects clusterMap p.topology }

def updateClusterCursor (clusterId : Bytes) (newcursor : ℤ) (p : Pools) : Pools :=
  if newcursor < 0 then p
  else
    match p.topology.clusterMap.get? clusterId with
    | none => p
    | some info =>
      { p with
        topology := { p.topology with
          clusterMap := p.topology.clusterMap.assign clusterId { info with scanCursor := newcursor } } }

inductive ClientEvent where
  | updateClusterCursor (clusterId : Bytes) (newcursor : ℤ)
  | DoCheckClusterNodes (outside : Outside)

def Pools.check (readTimeout : ℕ) (p : Pools) : ClientEvent → Option Pools
  | .updateClusterCursor clusterId newcursor => some (GBDownLinker.updateClusterCursor clusterId newcursor p)
  | .DoCheckClusterNodes outside => GBDownLinker.DoCheckClusterNodes readTimeout outside p

/-! ### The comparison -/

structure SameNode (info old : ClusterEntry) : Prop where
  clusterId : info.clusterId = old.clusterId
  isMaster : info.isMaster = old.isMaster
  masterClusterId : info.masterClusterId = old.masterClusterId
  bakClusterList : ∀ bak, bak ∈ info.bakClusterList ↔ bak ∈ old.bakClusterList
  slotMap : ∀ slot, info.slotMap.get? slot = old.slotMap.get? slot

structure SameCluster (clusterMap oldClusterMap : StdMap Bytes ClusterEntry) : Prop where
  keys : ∀ clusterId, clusterId ∈ clusterMap.keys ↔ clusterId ∈ oldClusterMap.keys
  node : ∀ clusterId info old, clusterMap.get? clusterId = some info →
    oldClusterMap.get? clusterId = some old → SameNode info old

theorem slotsMissing_eq_false {slotMap slotMap' : StdMap ℕ ℕ} :
    slotsMissing slotMap slotMap' = false ↔ ∀ x ∈ slotMap.entries, slotMap'.get? x.1 = some x.2 := by
  rw [slotsMissing, List.any_eq_false]
  refine forall₂_congr fun x _ => ?_
  cases slotMap'.get? x.1 with
  | none => simp
  | some stop =>
    simp only [ne_eq, decide_not, Bool.not_eq_true, Bool.not_eq_false', decide_eq_true_eq,
      some.injEq]
    exact eq_comm

theorem baksMissing_eq_false {bakClusterList bakClusterList' : List Bytes} :
    baksMissing bakClusterList bakClusterList' = false ↔ ∀ bak ∈ bakClusterList, bak ∈ bakClusterList' := by
  simp [baksMissing]

theorem nodeChanged_eq_false {info old : ClusterEntry} :
    nodeChanged info old = false ↔
      SameNode info old ∧ info.isAlived = old.isAlived ∧ info.scanCursor = old.scanCursor := by
  simp only [nodeChanged, Bool.or_eq_false_iff, baksMissing_eq_false, slotsMissing_eq_false,
    decide_eq_false_iff_not, not_not]
  constructor
  · rintro ⟨⟨⟨⟨⟨⟨⟨⟨hid, hmaster⟩, halive⟩, hmasterId⟩, hcursor⟩, hbaks⟩, hbaks'⟩, hslots⟩, hslots'⟩
    exact ⟨⟨hid, hmaster, hmasterId, fun bak => ⟨hbaks bak, hbaks' bak⟩,
      StdMap.get?_eq_iff.2 ⟨hslots, hslots'⟩⟩, halive, hcursor⟩
  · rintro ⟨hsame, halive, hcursor⟩
    obtain ⟨hslots, hslots'⟩ := StdMap.get?_eq_iff.1 hsame.slotMap
    exact ⟨⟨⟨⟨⟨⟨⟨⟨hsame.clusterId, hsame.isMaster⟩, halive⟩, hsame.masterClusterId⟩, hcursor⟩,
      fun bak => (hsame.bakClusterList bak).1⟩, fun bak => (hsame.bakClusterList bak).2⟩, hslots⟩, hslots'⟩

theorem clustersChanged_eq_false {clusterMap oldClusterMap : StdMap Bytes ClusterEntry} :
    clustersChanged clusterMap oldClusterMap = false ↔
      SameCluster clusterMap oldClusterMap ∧
      ∀ clusterId info old, clusterMap.get? clusterId = some info →
        oldClusterMap.get? clusterId = some old →
        info.isAlived = old.isAlived ∧ info.scanCursor = old.scanCursor := by
  have hnew : (∀ x ∈ clusterMap.entries, ¬ (match oldClusterMap.get? x.1 with
      | none => true
      | some old => nodeChanged x.2 old) = true) ↔
      ∀ clusterId info, clusterMap.get? clusterId = some info →
        ∃ old, oldClusterMap.get? clusterId = some old ∧ nodeChanged info old = false := by
    constructor
    · intro h clusterId info hget
      have hx := h (clusterId, info) (StdMap.get?_eq_some_iff.1 hget)
      simp only at hx
      split at hx
      · exact absurd rfl hx
      · next old hold => exact ⟨old, hold, Bool.eq_false_iff.2 hx⟩
    · intro h x hx
      obtain ⟨old, hold, hsame⟩ := h x.1 x.2 (StdMap.get?_eq_some_iff.2 hx)
      simp [hold, hsame]
  have hold : (∀ x ∈ oldClusterMap.entries, ¬ (clusterMap.get? x.1).isNone = true) ↔
      ∀ clusterId ∈ oldClusterMap.keys, clusterId ∈ clusterMap.keys := by
    simp only [StdMap.keys, List.forall_mem_map]
    refine forall₂_congr fun x _ => ?_
    rw [← StdMap.keys, ← StdMap.get?_isSome_iff]
    cases clusterMap.get? x.1 <;> simp
  rw [clustersChanged, Bool.or_eq_false_iff, List.any_eq_false, List.any_eq_false, hnew, hold]
  constructor
  · rintro ⟨hfound, hkeys⟩
    refine ⟨⟨fun id => ⟨?_, hkeys id⟩, ?_⟩, ?_⟩
    · intro hmem
      obtain ⟨info, hget⟩ := isSome_iff_exists.1 (StdMap.get?_isSome_iff.2 hmem)
      obtain ⟨old, hget', -⟩ := hfound id info hget
      exact StdMap.mem_keys_of_get? hget'
    · intro id info old hget hget'
      obtain ⟨old', hget'', hsame⟩ := hfound id info hget
      obtain rfl := some.inj (hget'.symm.trans hget'')
      exact (nodeChanged_eq_false.1 hsame).1
    · intro id info old hget hget'
      obtain ⟨old', hget'', hsame⟩ := hfound id info hget
      obtain rfl := some.inj (hget'.symm.trans hget'')
      exact (nodeChanged_eq_false.1 hsame).2
  · rintro ⟨hsame, hrest⟩
    refine ⟨?_, fun id hid => (hsame.keys id).2 hid⟩
    intro id info hget
    obtain ⟨old, hget'⟩ := isSome_iff_exists.1
      (StdMap.get?_isSome_iff.2 ((hsame.keys id).1 (StdMap.mem_keys_of_get? hget)))
    exact ⟨old, hget', nodeChanged_eq_false.2 ⟨hsame.node id info old hget hget', hrest id info old hget hget'⟩⟩

/-! ### What the events keep -/

theorem updateClusterCursor_ok {p : Pools} (h : p.topology.Ok p.freed) (clusterId : Bytes) (newcursor : ℤ) :
    (updateClusterCursor clusterId newcursor p).topology.Ok (updateClusterCursor clusterId newcursor p).freed := by
  rw [updateClusterCursor]
  split
  · exact h
  · split
    · exact h
    · next info hget =>
      -- the entry keeps its pool
      have hholds : ({ p.topology with
          clusterMap := p.topology.clusterMap.assign clusterId { info with scanCursor := newcursor } } :
          Topology).holds = p.topology.holds := by
        funext place
        cases place with
        | unused id => rfl
        | cluster id =>
          by_cases hid : id = clusterId <;> simp [Topology.holds, StdMap.get?_assign, hid, hget]
      refine ⟨?_, ?_, h.unused, ?_⟩
      · simp only [Topology.custody, hholds]
        exact h.sound
      · intro id info' hid
        rw [StdMap.get?_assign] at hid
        split at hid
        · cases hid
          exact (h.cluster hget : info.clusterHandler ≠ none)
        · exact h.cluster hid
      · intro slot id hslot
        rw [StdMap.get?_assign]
        split
        · rfl
        · exact h.slots hslot

theorem check_ok {readTimeout : ℕ} {p p' : Pools} {event : ClientEvent} (h : p.topology.Ok p.freed)
    (hstep : p.check readTimeout event = some p') : p'.topology.Ok p'.freed := by
  cases event with
  | updateClusterCursor clusterId newcursor =>
    cases hstep
    exact updateClusterCursor_ok h clusterId newcursor
  | DoCheckClusterNodes outside =>
    obtain ⟨p₁, hrelease, hreleased⟩ := releaseUnusedClusterHandler_ok h outside.canFree
    simp only [Pools.check, DoCheckClusterNodes, hrelease, bind_some] at hstep
    obtain ⟨found, -, rfl⟩ := map_eq_some_iff.1 hstep
    cases found with
    | none => exact hreleased.ok
    | some clusterMap =>
      simp only [saveIfChanged]
      split
      · exact hreleased.ok.checkAndSaveRedisClusters _ _
      · exact hreleased.ok

theorem SameCluster.updateClusterCursor {clusterMap : StdMap Bytes ClusterEntry} {p : Pools}
    (h : SameCluster clusterMap p.topology.clusterMap) (clusterId : Bytes) (newcursor : ℤ) :
    SameCluster clusterMap (updateClusterCursor clusterId newcursor p).topology.clusterMap := by
  rw [GBDownLinker.updateClusterCursor]
  split
  · exact h
  · split
    · exact h
    · next entry hentry =>
      refine ⟨?_, ?_⟩
      · intro id
        rw [h.keys, ← StdMap.get?_isSome_iff, ← StdMap.get?_isSome_iff, StdMap.get?_assign]
        split
        · next hid => simp [hid, hentry]
        · rfl
      · intro id info old hget hold
        rw [StdMap.get?_assign] at hold
        split at hold
        · next hid =>
          cases hold
          obtain ⟨hid', hmaster, hmasterId, hbaks, hslots⟩ := h.node id info entry hget (hid ▸ hentry)
          exact ⟨hid', hmaster, hmasterId, hbaks, hslots⟩
        · exact h.node id info old hget hold

/-! ### The check of one state -/

section Check

variable {clusterMap : ClusterMap} {connects : Bytes → Bool} {σ : Topology}

theorem report_scanCursor {clusterId : Bytes} {info : ClusterEntry}
    (h : (report clusterMap).get? clusterId = some info) : info.scanCursor = 0 := by
  obtain ⟨x, -, heq⟩ := List.mem_map.1 (StdMap.get?_eq_some_iff.1 h)
  exact (Prod.mk.inj heq).2 ▸ rfl

theorem ClusterEntry.Shows.sameNode {entry info : ClusterEntry} (h : entry.Shows info) :
    SameNode info entry where
  clusterId := h.clusterId.symm
  isMaster := h.isMaster.symm
  masterClusterId := h.masterClusterId.symm
  bakClusterList _ := by rw [h.bakClusterList]
  slotMap _ := by rw [h.slotMap]

theorem check_unchanged_iff (hsame : SameCluster (report clusterMap) σ.clusterMap) :
    ((saveIfChanged connects clusterMap σ).clusterMap = σ.clusterMap ∧
      (saveIfChanged connects clusterMap σ).slotMap = σ.slotMap) ↔
    ∀ clusterId info old, (report clusterMap).get? clusterId = some info →
      σ.clusterMap.get? clusterId = some old → info.isAlived = old.isAlived ∧ old.scanCursor = 0 := by
  cases hchanged : clustersChanged (report clusterMap) σ.clusterMap with
  | false =>
    rw [saveIfChanged, hchanged, if_neg Bool.false_ne_true]
    refine iff_of_true ⟨rfl, rfl⟩ ?_
    intro id info old hget hold
    obtain ⟨halive, hcursor⟩ := (clustersChanged_eq_false.1 hchanged).2 id info old hget hold
    exact ⟨halive, hcursor.symm.trans (report_scanCursor hget)⟩
  | true =>
    rw [saveIfChanged, hchanged, if_pos rfl]
    -- every node is known, so the new map is installed, with the links and the cursors of the report
    have hdone : (checkAndSaveRedisClusters connects (report clusterMap) σ).1 = true := by
      rw [checkAndSaveRedisClusters_fst]
      intro x hx
      exact .inl (StdMap.get?_isSome_iff.2 ((hsame.keys x.1).1 (List.mem_map_of_mem hx)))
    constructor
    · rintro ⟨hclusters, -⟩ id info old hget hold
      obtain ⟨entry, hentry, hshows⟩ := shows_of_accepted hdone hget
      rw [hclusters, hold] at hentry
      cases hentry
      exact ⟨hshows.isAlived.symm, hshows.scanCursor.trans (report_scanCursor hget)⟩
    · intro hrest
      have hnot : clustersChanged (report clusterMap) σ.clusterMap = false := by
        refine clustersChanged_eq_false.2 ⟨hsame, ?_⟩
        intro id info old hget hold
        obtain ⟨halive, hcursor⟩ := hrest id info old hget hold
        exact ⟨halive, (report_scanCursor hget).trans hcursor.symm⟩
      rw [hchanged] at hnot
      cases hnot

theorem check_changed_iff (hother : ¬ SameCluster (report clusterMap) σ.clusterMap) :
    (Installed (report clusterMap) (saveIfChanged connects clusterMap σ) ∧
      SameCluster (report clusterMap) (saveIfChanged connects clusterMap σ).clusterMap) ↔
    ∀ x ∈ (report clusterMap).entries, (σ.clusterMap.get? x.1).isSome ∨ connects x.1 := by
  have hchanged : clustersChanged (report clusterMap) σ.clusterMap = true := by
    by_contra hnot
    exact hother (clustersChanged_eq_false.1 (Bool.eq_false_iff.2 hnot)).1
  rw [saveIfChanged, if_pos hchanged, ← checkAndSaveRedisClusters_fst]
  constructor
  · rintro ⟨hinstalled, -⟩
    by_contra hrefused
    exact not_installed_of_refused hrefused hinstalled
  · intro hdone
    have hinstalled := installed_of_accepted hdone
    refine ⟨hinstalled, ⟨fun id => (hinstalled.keys id).symm, ?_⟩⟩
    intro id info entry hget hentry
    obtain ⟨entry', hentry', hshows⟩ := shows_of_accepted hdone hget
    obtain rfl := some.inj (hentry.symm.trans hentry')
    exact hshows.sameNode

end Check

/-! ### The check in every state -/

theorem check_iff (params : ConnectionParams) (clusterMap₀ : ClusterMap) (connects₀ : Bytes → Bool)
    (hinit : (initRedisCluster connects₀ (stored params clusterMap₀)).1 = true)
    (events : List ClientEvent) (p : Pools)
    (hrun : Lts.run (Pools.check params.readTimeout)
      ⟨(initRedisCluster connects₀ (stored params clusterMap₀)).2, []⟩ events = some p)
    (outside : Outside) (clusterMap : ClusterMap)
    (hreport : getRedisClustersByCommand (p.topology.params params.readTimeout) outside.answer
      p.topology.clusterMap.entries = some (some clusterMap)) :
    ∃ p', DoCheckClusterNodes params.readTimeout outside p = some p' ∧
      (SameCluster (report clusterMap) p.topology.clusterMap →
        ((p'.topology.clusterMap = p.topology.clusterMap ∧ p'.topology.slotMap = p.topology.slotMap) ↔
          ∀ clusterId info old, (report clusterMap).get? clusterId = some info →
            p.topology.clusterMap.get? clusterId = some old →
            info.isAlived = old.isAlived ∧ old.scanCursor = 0)) ∧
      (¬ SameCluster (report clusterMap) p.topology.clusterMap →
        ((Installed (report clusterMap) p'.topology ∧
          SameCluster (report clusterMap) p'.topology.clusterMap) ↔
          ∀ x ∈ (report clusterMap).entries,
            (p.topology.clusterMap.get? x.1).isSome ∨ outside.connects x.1)) := by
  have hok : p.topology.Ok p.freed := by
    refine Lts.run_invariant (I := fun p => p.topology.Ok p.freed) (G := fun _ _ => True) ?_
      (initRedisCluster_ok hinit) (Lts.Along.of_true _ _) hrun
    intro p event p' hok _ hstep
    exact check_ok hok hstep
  obtain ⟨p₁, hrelease, hreleased⟩ := releaseUnusedClusterHandler_ok hok outside.canFree
  have hparams : p₁.topology.params params.readTimeout = p.topology.params params.readTimeout := by
    rw [Topology.params, Topology.params, hreleased.connectionNum, hreleased.connectTimeout]
  refine ⟨{ p₁ with topology := saveIfChanged outside.connects clusterMap p₁.topology }, ?_, ?_, ?_⟩
  · rw [DoCheckClusterNodes, hrelease, bind_some, hparams, hreleased.clusterMap, hreport]
    rfl
  · rw [← hreleased.clusterMap, ← hreleased.slotMap]
    exact check_unchanged_iff
  · rw [← hreleased.clusterMap]
    exact check_changed_iff

theorem check_iff_answered :
    let text := ascii "n a:1 master - 0 0 1 connected 0-1\n"
    let outside : Outside := ⟨fun _ => some ⟨.string, [], 0, [⟨.string, some text, 35⟩]⟩, fun _ => true, fun _ => true⟩
    let map := (∅ : ClusterMap).assign (ascii "a:1")
      ⟨ascii "n", ascii "a", 1, 1, 1, 1, true, true, [], (∅ : StdMap ℕ ℕ).assign 0 1, []⟩
    let start := initRedisCluster (fun _ => true) (stored ⟨1, 1, 1⟩ map)
    start.1 = true ∧
    getRedisClustersByCommand (start.2.params 1) outside.answer start.2.clusterMap.entries = some (some map) ∧
    SameCluster (report map) start.2.clusterMap ∧
    ∃ p', DoCheckClusterNodes 1 outside ⟨start.2, []⟩ = some p' ∧
      p'.topology.clusterMap = start.2.clusterMap ∧ p'.topology.slotMap = start.2.slotMap := by
  intro text outside map start
  have hinit : start.1 = true := by decide +kernel
  have hreport : getRedisClustersByCommand (start.2.params 1) outside.answer start.2.clusterMap.entries =
      some (some map) := by decide +kernel
  have hstart : clustersChanged (report map) start.2.clusterMap = false := by decide +kernel
  obtain ⟨hsame, hrest⟩ := clustersChanged_eq_false.1 hstart
  obtain ⟨p', hcheck, hunchanged, -⟩ := check_iff ⟨1, 1, 1⟩ map (fun _ => true) hinit [] ⟨start.2, []⟩ rfl
    outside map hreport
  refine ⟨hinit, hreport, hsame, p', hcheck, (hunchanged hsame).2 ?_⟩
  intro id info old hget hold
  obtain ⟨halive, hcursor⟩ := hrest id info old hget hold
  exact ⟨halive, hcursor.symm.trans (report_scanCursor hget)⟩

theorem scan_looks_like_change :
    let text := ascii "n a:1 master - 0 0 1 connected 0-1\n"
    let outside : Outside := ⟨fun _ => some ⟨.string, [], 0, [⟨.string, some text, 35⟩]⟩, fun _ => true, fun _ => true⟩
    let map := (∅ : ClusterMap).assign (ascii "a:1")
      ⟨ascii "n", ascii "a", 1, 1, 1, 1, true, true, [], (∅ : StdMap ℕ ℕ).assign 0 1, []⟩
    let start := initRedisCluster (fun _ => true) (stored ⟨1, 1, 1⟩ map)
    let p := updateClusterCursor (ascii "a:1") 5 ⟨start.2, []⟩
    start.1 = true ∧
    Lts.run (Pools.check 1) ⟨start.2, []⟩ [.updateClusterCursor (ascii "a:1") 5] = some p ∧
    getRedisClustersByCommand (p.topology.params 1) outside.answer p.topology.clusterMap.entries =
      some (some map) ∧
    SameCluster (report map) p.topology.clusterMap ∧
    ∃ p', DoCheckClusterNodes 1 outside p = some p' ∧ p'.topology.clusterMap ≠ p.topology.clusterMap := by
  intro text outside map start p
  have hstart : clustersChanged (report map) start.2.clusterMap = false := by decide +kernel
  have hsame : SameCluster (report map) p.topology.clusterMap :=
    SameCluster.updateClusterCursor (p := ⟨start.2, []⟩) (clustersChanged_eq_false.1 hstart).1
      (ascii "a:1") 5
  have hafter : (DoCheckClusterNodes 1 outside p).map (fun p' =>
      decide (p'.topology.clusterMap ≠ p.topology.clusterMap)) = some true := by decide +kernel
  obtain ⟨p', hcheck, hne⟩ := map_eq_some_iff.1 hafter
  refine ⟨by decide +kernel, ?_, by decide +kernel, hsame, p', hcheck, of_decide_eq_true hne⟩
  simp only [Lts.run, Pools.check, bind_some, p]

end GBDownLinker
