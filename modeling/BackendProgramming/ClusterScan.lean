/-
**Scanning the keys of a cluster.**

`scanKeys` sends `SCAN` to each node until a reply has the cursor 0.  There are three places at which it goes
round without getting on: a node that has left the topology is looked up again and again; a replica that has
answered is asked again with the same cursor; and with `SCAN_NOLOOP` the cursor that is sent is always 0.  Such
a turn is idle unless the reply has a key.  A step of the model is one turn of a loop, with at most one send.
-/

import Mathlib.Data.Prod.Lex
import Mathlib.Dynamics.PeriodicPts.Lemmas
import BackendProgramming.Progress
import BackendProgramming.KeyListing
import BackendProgramming.RedisBudget

set_option autoImplicit false

namespace GBDownLinker

open Function List Option

namespace ClusterScan

open CText Progress KeyListing

/-! ### The function -/

structure Env where
  clusterMap : ℕ → Bytes → Option RedisClusterInfo
  reply : ℕ → Bytes → ℕ → Option RedisReplyInfo

inductive Place where
  | node (nodes : List Bytes)
  | bak (clusterId : Bytes) (baks nodes : List Bytes)
  | done

structure State where
  place : Place
  keys : List Bytes
  scanCursor : Bytes → ℕ

def parseScanKeysReply (replyInfo : RedisReplyInfo) (keys : List Bytes) : Bool × List Bytes × ℤ :=
  if replyInfo.replyType ≠ .array then (false, keys, -1)
  else (true, keys ++ Routing.replyKeys replyInfo, replyInfo.intValue)

def updateClusterCursor (clusterMap : Bytes → Option RedisClusterInfo) (clusterId : Bytes) (newcursor : ℤ)
    (scanCursor : Bytes → ℕ) : Bytes → ℕ :=
  if newcursor < 0 then scanCursor
  else if (clusterMap clusterId).isSome then update scanCursor clusterId newcursor.toNat
  else scanCursor

def sentCursor (scanMode : Budget.ScanMode) (cursor : ℕ) : ℕ :=
  if scanMode = .noloop then 0 else cursor

structure Call where
  scanMode : Budget.ScanMode
  count : ℕ
  keys : List Bytes := []
  clusterMap : ClusterMap
  scanCursor : Bytes → ℕ
  env : Env

section Step

variable (c : Call)

def absorb (t : ℕ) (clusterId : Bytes) (replyInfo : RedisReplyInfo) (s : State) : State × ℤ :=
  let (success, keys, retCursor) := parseScanKeysReply replyInfo s.keys
  let scanCursor :=
    if success then updateClusterCursor (c.env.clusterMap t) clusterId retCursor s.scanCursor else s.scanCursor
  (⟨s.place, keys, scanCursor⟩, retCursor)

def nextNode (count : ℕ) (nodes : List Bytes) (s : State) : State :=
  if count ≤ s.keys.length then { s with place := .done } else { s with place := .node nodes }

def step (t : ℕ) (s : State) : State :=
  match s.place with
  | .done => s
  | .node [] => { s with place := .done }
  | .node (clusterId :: nodes) =>
    match c.env.clusterMap t clusterId with
    | none => s
    | some clusterInfo =>
      if clusterInfo.isMaster && clusterInfo.isAlived then
        match c.env.reply t clusterId (sentCursor c.scanMode (s.scanCursor clusterId)) with
        | none => { s with place := .bak clusterId clusterInfo.bakClusterList nodes }
        | some replyInfo =>
          let after := absorb c t clusterId replyInfo s
          if c.count ≤ after.1.keys.length then { after.1 with place := .done }
          else if after.2 ≠ 0 then after.1
          else nextNode c.count nodes after.1
      else nextNode c.count nodes s
  | .bak _ [] nodes => nextNode c.count nodes s
  | .bak clusterId (bak :: baks) nodes =>
    match c.env.clusterMap t bak with
    | none => { s with place := .bak clusterId baks nodes }
    | some _ =>
      match c.env.reply t bak (sentCursor c.scanMode (s.scanCursor bak)) with
      | none => { s with place := .bak clusterId baks nodes }
      | some replyInfo =>
        let after := absorb c t clusterId replyInfo s
        -- after `break` the test behind the turn for the node ends the outer loop
        if c.count ≤ after.1.keys.length then { after.1 with place := .done } else after.1

def Call.state : ℕ → State := states (step c) ⟨.node c.clusterMap.keys, c.keys, c.scanCursor⟩

/-! ### Turns that do not get on -/

def retCursor (replyInfo : RedisReplyInfo) : ℤ := (parseScanKeysReply replyInfo []).2.2

def Idle (t : ℕ) (s : State) : Prop :=
  match s.place with
  | .node (clusterId :: _) =>
    c.env.clusterMap t clusterId = none ∨
      ∃ clusterInfo replyInfo, c.env.clusterMap t clusterId = some clusterInfo ∧
        clusterInfo.isMaster = true ∧ clusterInfo.isAlived = true ∧
        c.env.reply t clusterId (sentCursor c.scanMode (s.scanCursor clusterId)) = some replyInfo ∧
        s.keys.length < c.count ∧ Routing.replyKeys replyInfo = [] ∧ retCursor replyInfo ≠ 0
  | .bak _ (bak :: _) _ =>
    ∃ clusterInfo replyInfo, c.env.clusterMap t bak = some clusterInfo ∧
      c.env.reply t bak (sentCursor c.scanMode (s.scanCursor bak)) = some replyInfo ∧
      s.keys.length < c.count ∧ Routing.replyKeys replyInfo = []
  | _ => False

end Step

section Returns

variable {c : Call} {t : ℕ} {s : State}

theorem absorb_keys (clusterId : Bytes) (replyInfo : RedisReplyInfo) :
    (absorb c t clusterId replyInfo s).1.keys = s.keys ++ Routing.replyKeys replyInfo := by
  by_cases h : replyInfo.replyType = .array
  · simp [absorb, parseScanKeysReply, h]
  · simp [absorb, parseScanKeysReply, h, Routing.replyKeys]

theorem absorb_retCursor (clusterId : Bytes) (replyInfo : RedisReplyInfo) :
    (absorb c t clusterId replyInfo s).2 = retCursor replyInfo := by
  by_cases h : replyInfo.replyType = .array <;> simp [absorb, retCursor, parseScanKeysReply, h]

/-! ### What a turn does -/

section Turn

variable {clusterId bak : Bytes} {nodes baks : List Bytes} {clusterInfo : RedisClusterInfo}
  {replyInfo : RedisReplyInfo}

theorem step_done (h : s.place = .done) : step c t s = s := by
  simp only [step, h]

theorem step_end (h : s.place = .node []) : step c t s = { s with place := .done } := by
  simp only [step, h]

theorem step_gone (h : s.place = .node (clusterId :: nodes)) (hget : c.env.clusterMap t clusterId = none) :
    step c t s = s := by
  simp only [step, h, hget]

theorem step_other (h : s.place = .node (clusterId :: nodes))
    (hget : c.env.clusterMap t clusterId = some clusterInfo)
    (hrole : (clusterInfo.isMaster && clusterInfo.isAlived) = false) :
    step c t s = nextNode c.count nodes s := by
  simp only [step, h, hget, hrole, Bool.false_eq_true, if_false]

theorem step_unreached (h : s.place = .node (clusterId :: nodes))
    (hget : c.env.clusterMap t clusterId = some clusterInfo)
    (hrole : (clusterInfo.isMaster && clusterInfo.isAlived) = true)
    (hreply : c.env.reply t clusterId (sentCursor c.scanMode (s.scanCursor clusterId)) = none) :
    step c t s = { s with place := .bak clusterId clusterInfo.bakClusterList nodes } := by
  simp only [step, h, hget, hrole, if_true, hreply]

theorem step_reply (h : s.place = .node (clusterId :: nodes))
    (hget : c.env.clusterMap t clusterId = some clusterInfo)
    (hrole : (clusterInfo.isMaster && clusterInfo.isAlived) = true)
    (hreply : c.env.reply t clusterId (sentCursor c.scanMode (s.scanCursor clusterId)) = some replyInfo) :
    step c t s =
      if c.count ≤ (s.keys ++ Routing.replyKeys replyInfo).length then
        { (absorb c t clusterId replyInfo s).1 with place := .done }
      else if retCursor replyInfo ≠ 0 then (absorb c t clusterId replyInfo s).1
      else { (absorb c t clusterId replyInfo s).1 with place := .node nodes } := by
  simp only [step, h, hget, hrole, if_true, hreply, absorb_keys, absorb_retCursor]
  split
  · rfl
  · rename_i hfew
    split
    · rfl
    · rw [nextNode, absorb_keys, if_neg hfew]

theorem step_bak_nil (h : s.place = .bak clusterId [] nodes) :
    step c t s = nextNode c.count nodes s := by
  simp only [step, h]

theorem step_bak_gone (h : s.place = .bak clusterId (bak :: baks) nodes)
    (hget : c.env.clusterMap t bak = none) :
    step c t s = { s with place := .bak clusterId baks nodes } := by
  simp only [step, h, hget]

theorem step_bak_unreached (h : s.place = .bak clusterId (bak :: baks) nodes)
    (hget : c.env.clusterMap t bak = some clusterInfo)
    (hreply : c.env.reply t bak (sentCursor c.scanMode (s.scanCursor bak)) = none) :
    step c t s = { s with place := .bak clusterId baks nodes } := by
  simp only [step, h, hget, hreply]

theorem step_bak_reply (h : s.place = .bak clusterId (bak :: baks) nodes)
    (hget : c.env.clusterMap t bak = some clusterInfo)
    (hreply : c.env.reply t bak (sentCursor c.scanMode (s.scanCursor bak)) = some replyInfo) :
    step c t s =
      if c.count ≤ (s.keys ++ Routing.replyKeys replyInfo).length then
        { (absorb c t clusterId replyInfo s).1 with place := .done }
      else (absorb c t clusterId replyInfo s).1 := by
  simp only [step, h, hget, hreply, absorb_keys]

end Turn

theorem Idle.step_eq (h : Idle c t s) :
    (step c t s).place = s.place ∧ (step c t s).keys = s.keys := by
  unfold Idle at h
  split at h
  · rename_i clusterId nodes hplace
    rcases h with hgone | ⟨clusterInfo, replyInfo, hget, hmaster, halive, hreply, hfew, hkeys, hcursor⟩
    · rw [step_gone hplace hgone]
      exact ⟨rfl, rfl⟩
    · rw [step_reply hplace hget (by simp [hmaster, halive]) hreply, hkeys, append_nil,
        if_neg (not_le.2 hfew), if_pos hcursor, absorb_keys, hkeys, append_nil]
      exact ⟨rfl, rfl⟩
  · rename_i clusterId bak baks nodes hplace
    obtain ⟨clusterInfo, replyInfo, hget, hreply, hfew, hkeys⟩ := h
    rw [step_bak_reply hplace hget hreply, hkeys, append_nil, if_neg (not_le.2 hfew), absorb_keys,
      hkeys, append_nil]
    exact ⟨rfl, rfl⟩
  · exact h.elim

theorem Idle.place_ne_done (h : Idle c t s) : s.place ≠ .done := by
  intro hplace
  simp [Idle, hplace] at h

def left (count : ℕ) (s : State) : ℕ ×ₗ WithTop ℕ ×ₗ ℕ :=
  match s.place with
  | .done => toLex (0, toLex (0, 0))
  | .node nodes => toLex (nodes.length, toLex (⊤, count - s.keys.length))
  | .bak _ baks nodes => toLex (nodes.length + 1, toLex (baks.length, count - s.keys.length))

theorem left_congr {s' : State} (hplace : s'.place = s.place) (hkeys : s'.keys = s.keys) :
    left c.count s' = left c.count s := by
  simp only [left, hplace, hkeys]

theorem left_lt_of_keys {s' : State} {keys : List Bytes} (hplace : s'.place = s.place)
    (hdone : s.place ≠ .done) (hkeys : s'.keys = s.keys ++ keys) (hne : keys ≠ [])
    (hfew : (s.keys ++ keys).length < c.count) : left c.count s' < left c.count s := by
  have hlt : c.count - s'.keys.length < c.count - s.keys.length := by
    have := length_pos_iff.2 hne
    rw [hkeys]
    rw [length_append] at hfew ⊢
    omega
  unfold left
  rw [hplace]
  cases hs : s.place with
  | done => exact absurd hs hdone
  | node nodes => simpa [Prod.Lex.toLex_lt_toLex] using hlt
  | bak clusterId baks nodes => simpa [Prod.Lex.toLex_lt_toLex] using hlt

theorem left_node_lt {s' : State} {clusterId : Bytes} {nodes : List Bytes} (hplace : s'.place = .node nodes)
    (h : s.place = .node (clusterId :: nodes) ∨ ∃ baks, s.place = .bak clusterId baks nodes) :
    left c.count s' < left c.count s := by
  unfold left
  rcases h with h | ⟨baks, h⟩
  · simp [hplace, h, Prod.Lex.toLex_lt_toLex]
  · simp [hplace, h, Prod.Lex.toLex_lt_toLex]

theorem left_bak_lt {s' : State} {clusterId : Bytes} {nodes baks : List Bytes}
    (hplace : s'.place = .bak clusterId baks nodes)
    (h : s.place = .node (clusterId :: nodes) ∨ ∃ bak, s.place = .bak clusterId (bak :: baks) nodes) :
    left c.count s' < left c.count s := by
  unfold left
  rcases h with h | ⟨bak, h⟩
  · simp [hplace, h, Prod.Lex.toLex_lt_toLex]
  · simp only [hplace, h, Prod.Lex.toLex_lt_toLex, lt_irrefl, true_and, false_or, length_cons]
    exact .inl (WithTop.coe_lt_coe.2 (Nat.lt_succ_self _))

theorem nextNode_progress {clusterId : Bytes} {nodes : List Bytes}
    (h : s.place = .node (clusterId :: nodes) ∨ ∃ baks, s.place = .bak clusterId baks nodes) :
    (nextNode c.count nodes s).place = .done ∨ left c.count (nextNode c.count nodes s) < left c.count s := by
  unfold nextNode
  split
  · exact .inl rfl
  · exact .inr (left_node_lt rfl h)

theorem step_progress_node {clusterId : Bytes} {nodes : List Bytes}
    (hplace : s.place = .node (clusterId :: nodes)) (h : ¬ Idle c t s) :
    (step c t s).place = .done ∨ left c.count (step c t s) < left c.count s := by
  have hdone : s.place ≠ .done := by simp [hplace]
  cases hget : c.env.clusterMap t clusterId with
  | none => exact absurd (by simp [Idle, hplace, hget]) h
  | some clusterInfo =>
    cases hrole : clusterInfo.isMaster && clusterInfo.isAlived with
    | false =>
      rw [step_other hplace hget hrole]
      exact nextNode_progress (.inl hplace)
    | true =>
      cases hreply : c.env.reply t clusterId (sentCursor c.scanMode (s.scanCursor clusterId)) with
      | none =>
        rw [step_unreached hplace hget hrole hreply]
        exact .inr (left_bak_lt rfl (.inl hplace))
      | some replyInfo =>
        rw [step_reply hplace hget hrole hreply]
        split
        · exact .inl rfl
        · rename_i hfew
          split
          · rename_i hcursor
            -- a reply without keys would make the turn idle
            refine .inr (left_lt_of_keys rfl hdone (absorb_keys ..) (fun hkeys => h ?_)
              (not_le.1 hfew))
            rw [hkeys, append_nil] at hfew
            obtain ⟨hmaster, halive⟩ := Bool.and_eq_true_iff.1 hrole
            simp only [Idle, hplace]
            exact .inr ⟨clusterInfo, replyInfo, hget, hmaster, halive, hreply, not_le.1 hfew,
              hkeys, hcursor⟩
          · exact .inr (left_node_lt rfl (.inl hplace))

theorem step_progress_bak {clusterId bak : Bytes} {baks nodes : List Bytes}
    (hplace : s.place = .bak clusterId (bak :: baks) nodes) (h : ¬ Idle c t s) :
    (step c t s).place = .done ∨ left c.count (step c t s) < left c.count s := by
  have hdone : s.place ≠ .done := by simp [hplace]
  cases hget : c.env.clusterMap t bak with
  | none =>
    rw [step_bak_gone hplace hget]
    exact .inr (left_bak_lt rfl (.inr ⟨_, hplace⟩))
  | some clusterInfo =>
    cases hreply : c.env.reply t bak (sentCursor c.scanMode (s.scanCursor bak)) with
    | none =>
      rw [step_bak_unreached hplace hget hreply]
      exact .inr (left_bak_lt rfl (.inr ⟨_, hplace⟩))
    | some replyInfo =>
      rw [step_bak_reply hplace hget hreply]
      split
      · exact .inl rfl
      · rename_i hfew
        refine .inr (left_lt_of_keys rfl hdone (absorb_keys ..) (fun hkeys => h ?_)
          (not_le.1 hfew))
        rw [hkeys, append_nil] at hfew
        simp only [Idle, hplace]
        exact ⟨clusterInfo, replyInfo, hget, hreply, not_le.1 hfew, hkeys⟩

theorem step_progress (hdone : s.place ≠ .done) (h : ¬ Idle c t s) :
    (step c t s).place = .done ∨ left c.count (step c t s) < left c.count s := by
  cases hplace : s.place with
  | done => exact absurd hplace hdone
  | node nodes =>
    cases nodes with
    | nil => exact .inl (by rw [step_end hplace])
    | cons clusterId nodes => exact step_progress_node hplace h
  | bak clusterId baks nodes =>
    cases baks with
    | nil =>
      rw [step_bak_nil hplace]
      exact nextNode_progress (.inr ⟨_, hplace⟩)
    | cons bak baks => exact step_progress_bak hplace h

theorem returns_iff (c : Call) :
    (∃ t, (c.state t).place = .done) ↔
      ¬ ∃ t, ∀ u ≥ t, Idle c u (c.state u) :=
  ends_iff (fun s => s.place = .done) (left c.count) (fun _ _ h => by rw [step_done h, h])
    (fun _ _ h => h.place_ne_done) (fun _ _ h => left_congr h.step_eq.1 h.step_eq.2)
    fun _ _ hdone h => step_progress hdone h

theorem keys_isPrefix_step : s.keys <+: (step c t s).keys := by
  have hnext : ∀ nodes (s' : State), s.keys <+: s'.keys → s.keys <+: (nextNode c.count nodes s').keys := by
    intro nodes s' h
    unfold nextNode
    split <;> exact h
  have habsorb : ∀ clusterId replyInfo, s.keys <+: (absorb c t clusterId replyInfo s).1.keys := by
    intro clusterId replyInfo
    rw [absorb_keys]
    exact prefix_append ..
  simp only [step]
  split
  case h_1 | h_2 => exact prefix_rfl
  case h_3 clusterId nodes _ =>
    split
    case h_1 => exact prefix_rfl
    case h_2 =>
      split
      case isFalse => exact hnext _ _ prefix_rfl
      case isTrue =>
        split
        case h_1 => exact prefix_rfl
        case h_2 replyInfo _ =>
          have hkeys := habsorb clusterId replyInfo
          split
          · exact hkeys
          · split
            · exact hkeys
            · exact hnext _ _ hkeys
  case h_4 => exact hnext _ _ prefix_rfl
  case h_5 clusterId _ _ _ _ =>
    split
    case h_1 => exact prefix_rfl
    case h_2 =>
      split
      case h_1 => exact prefix_rfl
      case h_2 replyInfo _ =>
        have hkeys := habsorb clusterId replyInfo
        split <;> exact hkeys

theorem state_of_done_le {u : ℕ} (hdone : (c.state t).place = .done) (h : t ≤ u) : c.state u = c.state t :=
  states_eq_of_fixed (fun _ _ => step_done hdone) h

theorem keys_isPrefix_state {u : ℕ} (h : t ≤ u) : (c.state t).keys <+: (c.state u).keys :=
  states_rel (r := fun a b : State => a.keys <+: b.keys) (fun _ => prefix_rfl) (fun h₁ h₂ => h₁.trans h₂)
    (fun _ _ => keys_isPrefix_step) h

end Returns

/-! ### How the nodes answer -/

structure Behaviour where
  next : Bytes → ℕ → ℕ
  keys : Bytes → ℕ → List Bytes
  held : Bytes → List Bytes
  chain : ∀ clusterId, ∃ n, (next clusterId)^[n + 1] 0 = 0
  complete : ∀ clusterId, ∀ key ∈ held clusterId, ∃ k, key ∈ keys clusterId ((next clusterId)^[k] 0)

def Behaviour.reply (B : Behaviour) (clusterId : Bytes) (cursor : ℕ) : RedisReplyInfo :=
  { replyType := .array
    intValue := B.next clusterId cursor
    arrayList := (B.keys clusterId cursor).map keyInfo }

def Env.Follows (E : Env) (B : Behaviour) : Prop :=
  ∀ t clusterId cursor replyInfo, E.reply t clusterId cursor = some replyInfo →
    replyInfo = B.reply clusterId cursor

theorem Behaviour.replyKeys (B : Behaviour) (clusterId : Bytes) (cursor : ℕ) :
    Routing.replyKeys (B.reply clusterId cursor) = (B.keys clusterId cursor).map cString := by
  rw [replyKeys_eq rfl]
  rfl

theorem Behaviour.retCursor (B : Behaviour) (clusterId : Bytes) (cursor : ℕ) :
    retCursor (B.reply clusterId cursor) = B.next clusterId cursor := rfl

/-! ### Masters that are scanned from the beginning to the end -/

section Swept

variable (c : Call)

def AnswersAt (clusterId : Bytes) (nodes : List Bytes) (t : ℕ) : Prop :=
  let s := c.state t
  s.place = .node (clusterId :: nodes) ∧
    (∃ clusterInfo, c.env.clusterMap t clusterId = some clusterInfo ∧
      (clusterInfo.isMaster && clusterInfo.isAlived) = true) ∧
    (c.env.reply t clusterId (sentCursor c.scanMode (s.scanCursor clusterId))).isSome = true

def sentAt (clusterId : Bytes) (t : ℕ) : ℕ :=
  sentCursor c.scanMode ((c.state t).scanCursor clusterId)

def Swept (clusterId : Bytes) : Prop :=
  ∃ t n nodes, (∀ i ≤ n, AnswersAt c clusterId nodes (t + i)) ∧
    sentAt c clusterId t = 0 ∧
    ∀ replyInfo, c.env.reply (t + n) clusterId
      (sentAt c clusterId (t + n)) = some replyInfo →
      retCursor replyInfo = 0

end Swept

section Sweep

variable {c : Call} {B : Behaviour} {clusterId : Bytes} {nodes : List Bytes} {t : ℕ}

theorem AnswersAt.succ (h : AnswersAt c clusterId nodes t) (hE : c.env.Follows B) :
    let s := c.state t
    let s' := c.state (t + 1)
    let cursor := sentAt c clusterId t
    s'.keys = s.keys ++ (B.keys clusterId cursor).map cString ∧
      s'.scanCursor = update s.scanCursor clusterId (B.next clusterId cursor) ∧
      s'.place = if c.count ≤ s'.keys.length then .done
        else if B.next clusterId cursor ≠ 0 then .node (clusterId :: nodes) else .node nodes := by
  intro s s' cursor
  obtain ⟨hplace, ⟨clusterInfo, hget, hrole⟩, hsome⟩ := h
  obtain ⟨replyInfo, hreply⟩ := isSome_iff_exists.1 hsome
  obtain rfl := hE _ _ _ _ hreply
  have hkeys : (absorb c t clusterId (B.reply clusterId cursor) s).1.keys =
      s.keys ++ (B.keys clusterId cursor).map cString := by
    rw [absorb_keys, B.replyKeys]
  have hcursor : (absorb c t clusterId (B.reply clusterId cursor) s).1.scanCursor =
      update s.scanCursor clusterId (B.next clusterId cursor) := by
    simp [absorb, parseScanKeysReply, Behaviour.reply, updateClusterCursor, hget]
  have hs' : s' = if c.count ≤ (s.keys ++ (B.keys clusterId cursor).map cString).length then
        { (absorb c t clusterId (B.reply clusterId cursor) s).1 with place := .done }
      else if (B.next clusterId cursor : ℤ) ≠ 0 then (absorb c t clusterId (B.reply clusterId cursor) s).1
      else { (absorb c t clusterId (B.reply clusterId cursor) s).1 with place := .node nodes } := by
    rw [← B.replyKeys, ← B.retCursor]
    exact step_reply hplace hget hrole hreply
  have hkeys' : s'.keys = s.keys ++ (B.keys clusterId cursor).map cString := by
    rw [hs']
    split
    · exact hkeys
    · split <;> exact hkeys
  refine ⟨hkeys', ?_, ?_⟩
  · rw [hs']
    split
    · exact hcursor
    · split <;> exact hcursor
  · rw [hkeys', hs']
    by_cases henough : c.count ≤ (s.keys ++ (B.keys clusterId cursor).map cString).length
    · rw [if_pos henough, if_pos henough]
    · rw [if_neg henough, if_neg henough]
      by_cases hzero : B.next clusterId cursor = 0
      · simp [hzero]
      · simp only [ne_eq, Int.natCast_eq_zero, hzero, not_false_eq_true, if_true]
        exact hplace

theorem sentAt_eq_iterate (hE : c.env.Follows B) {n : ℕ} (hmode : c.scanMode = .loop)
    (h : ∀ i ≤ n, AnswersAt c clusterId nodes (t + i)) (hstart : sentAt c clusterId t = 0) :
    ∀ i ≤ n + 1, sentAt c clusterId (t + i) = (B.next clusterId)^[i] 0 := by
  intro i hi
  induction i with
  | zero => exact hstart
  | succ i ih =>
    have hprev := ih (Nat.le_of_succ_le hi)
    have hcursor := ((h i (Nat.le_of_succ_le_succ hi)).succ hE).2.1
    rw [iterate_succ_apply', ← hprev]
    have hsent : sentAt c clusterId (t + (i + 1)) =
        (c.state (t + i + 1)).scanCursor clusterId := by
      simp [sentAt, sentCursor, hmode, Nat.add_assoc]
    rw [hsent, hcursor, update_self]

theorem exists_sentAt_eq (hE : c.env.Follows B) {n : ℕ}
    (h : ∀ i ≤ n, AnswersAt c clusterId nodes (t + i)) (hstart : sentAt c clusterId t = 0)
    (hend : B.next clusterId (sentAt c clusterId (t + n)) = 0) (k : ℕ) :
    ∃ i ≤ n, sentAt c clusterId (t + i) = (B.next clusterId)^[k] 0 := by
  cases hmode : c.scanMode with
  | loop =>
    have hsent := sentAt_eq_iterate hE hmode h hstart
    have hperiod : (B.next clusterId)^[n + 1] 0 = 0 := by
      rw [iterate_succ_apply', ← hsent n (Nat.le_succ n), hend]
    have hlt : k % (n + 1) < n + 1 := Nat.mod_lt _ (Nat.succ_pos n)
    exact ⟨k % (n + 1), Nat.le_of_lt_succ hlt,
      (hsent _ hlt.le).trans (IsPeriodicPt.iterate_mod_apply hperiod k)⟩
  | noloop =>
    have hsent : ∀ u, sentAt c clusterId u = 0 := fun _ => by simp [sentAt, sentCursor, hmode]
    rw [hsent] at hend
    exact ⟨n, le_rfl, (hsent _).trans (iterate_fixed hend k).symm⟩

theorem Swept.mem_keys (h : Swept c clusterId) (hE : c.env.Follows B)
    {u : ℕ} (hdone : (c.state u).place = .done) {key : Bytes}
    (hkey : key ∈ B.held clusterId) : cString key ∈ (c.state u).keys := by
  obtain ⟨t, n, nodes, hanswers, hstart, hlast⟩ := h
  obtain ⟨k, hk⟩ := B.complete clusterId key hkey
  have hend : B.next clusterId (sentAt c clusterId (t + n)) = 0 := by
    obtain ⟨replyInfo, hreply⟩ := isSome_iff_exists.1 (hanswers n le_rfl).2.2
    have hzero := hlast replyInfo hreply
    rw [hE _ _ _ _ hreply, B.retCursor] at hzero
    exact Int.natCast_eq_zero.1 hzero
  obtain ⟨i, hi, hsent⟩ := exists_sentAt_eq hE hanswers hstart hend k
  have hlater : t + i + 1 ≤ u := by
    by_contra hlt
    have hsame := state_of_done_le hdone (show u ≤ t + i by omega)
    rw [← hsame, (hanswers i hi).1] at hdone
    cases hdone
  refine (keys_isPrefix_state hlater).subset ?_
  rw [((hanswers i hi).succ hE).1, hsent]
  exact mem_append_right _ (mem_map_of_mem hk)

/-! ### When a call returns, with all keys -/

def AliveMaster (c : Call) (clusterId : Bytes) : Prop :=
  ∃ clusterInfo, c.clusterMap.get? clusterId = some clusterInfo ∧
    (clusterInfo.isMaster && clusterInfo.isAlived) = true

def Succeeds (c : Call) (B : Behaviour) : Prop :=
  ∃ t, (c.state t).place = .done ∧ ((c.state t).keys.length < c.count →
    ∀ clusterId, AliveMaster c clusterId → ∀ key ∈ B.held clusterId, key ∈ (c.state t).keys)

theorem state_eq_of_done {u v : ℕ} (hu : (c.state u).place = .done) (hv : (c.state v).place = .done) :
    c.state u = c.state v := by
  rcases le_total u v with h | h
  · exact (state_of_done_le hu h).symm
  · exact state_of_done_le hv h

end Sweep

/-! ### Calls that never return -/

def sampleBehaviour (late : Bool) : Behaviour where
  next _ cursor := if cursor = 0 then 1 else 0
  keys _ cursor := if cursor = (if late then 1 else 0) then [ascii "k"] else []
  held _ := [ascii "k"]
  chain _ := ⟨1, rfl⟩
  complete _ key hkey := ⟨if late then 1 else 0, by cases late <;> exact hkey⟩

def sampleMap : ClusterMap :=
  ((∅ : ClusterMap).assign (ascii "a") (node true [ascii "b"])).assign (ascii "b") (node false [])

def sampleEnv (late : Bool) (answers : Bytes → Bool) : Env where
  clusterMap _ := sampleMap.get?
  reply _ clusterId cursor :=
    if answers clusterId then some ((sampleBehaviour late).reply clusterId cursor) else none

def sampleCall (scanMode : Budget.ScanMode) (env : Env) (cursor : ℕ) : Call where
  scanMode := scanMode
  count := 2
  clusterMap := sampleMap
  scanCursor _ := cursor
  env := env

theorem sampleEnv_follows (late : Bool) (answers : Bytes → Bool) :
    (sampleEnv late answers).Follows (sampleBehaviour late) := by
  intro t clusterId cursor replyInfo h
  simp only [sampleEnv] at h
  split at h
  · exact (some.inj h).symm
  · cases h

theorem not_succeeds_of_idle {c : Call} {B : Behaviour} {t : ℕ}
    (hstep : ∀ u ≥ t, step c u (c.state t) = c.state t) (hidle : ∀ u ≥ t, Idle c u (c.state t)) :
    ¬ Succeeds c B := by
  rintro ⟨u, hdone, -⟩
  have hstays : ∀ u ≥ t, c.state u = c.state t := fun u hu => states_eq_of_fixed hstep hu
  exact (returns_iff c).1 ⟨u, hdone⟩ ⟨t, fun v hv => (hstays v hv).symm ▸ hidle v hv⟩

theorem absorb_absorb {c : Call} {t u : ℕ} {s : State} (clusterId : Bytes) {replyInfo : RedisReplyInfo}
    (hmap : c.env.clusterMap u = c.env.clusterMap t) (hkeys : Routing.replyKeys replyInfo = []) :
    (absorb c u clusterId replyInfo (absorb c t clusterId replyInfo s).1).1 =
      (absorb c t clusterId replyInfo s).1 := by
  have hcursor : ∀ newcursor scanCursor, updateClusterCursor (c.env.clusterMap t) clusterId newcursor
      (updateClusterCursor (c.env.clusterMap t) clusterId newcursor scanCursor) =
        updateClusterCursor (c.env.clusterMap t) clusterId newcursor scanCursor := by
    intro newcursor scanCursor
    unfold updateClusterCursor
    split_ifs <;> simp
  by_cases htype : replyInfo.replyType = .array
  · simp [absorb, parseScanKeysReply, htype, hkeys, hmap, hcursor]
  · simp [absorb, parseScanKeysReply, htype]

def vanishingEnv : Env where
  clusterMap t clusterId := if 0 < t ∧ clusterId = ascii "a" then none else sampleMap.get? clusterId
  reply _ clusterId cursor := some ((sampleBehaviour true).reply clusterId cursor)

end ClusterScan

end GBDownLinker
