/-
**Listing the keys of a cluster.**

`getKeysInCluster` asks every master for its keys.  If a master cannot be reached, all its replicas are asked,
into one reply object: a reply is appended to what is there, and a replica that fails empties the object.
-/

import BackendProgramming.ClusterRouting
import BackendProgramming.RedisRecv
import BackendProgramming.RedisScan

set_option autoImplicit false

namespace GBDownLinker

open List Option

namespace KeyListing

open CText Resp

/-! ### The function -/

inductive Outcome where
  | answered (keys : List Bytes)
  | refused (text : Bytes)
  | failed (left : RedisReplyInfo)

def doRedisCommand (replyInfo : RedisReplyInfo) : Outcome → Bool × RedisReplyInfo
  | .answered keys =>
    (true, { replyInfo with replyType := .array, arrayList := replyInfo.arrayList ++ keys.map keyInfo })
  | .refused text => (true, { replyInfo with replyType := .error, resultString := text })
  | .failed left => (false, left)

def freeReplyInfo (replyInfo : RedisReplyInfo) : RedisReplyInfo := { replyInfo with arrayList := [] }

abbrev Sends := Bytes → Bytes → Outcome

def sendBaks (clusterMap : ClusterMap) (outcome : Bytes → Outcome) :
    List Bytes → Bool → RedisReplyInfo → Bool × RedisReplyInfo
  | [], sendBak, replyInfo => (sendBak, replyInfo)
  | bak :: baks, sendBak, replyInfo =>
    match clusterMap.get? bak with
    | none => sendBaks clusterMap outcome baks sendBak replyInfo
    | some _ =>
      match doRedisCommand replyInfo (outcome bak) with
      | (false, replyInfo) => sendBaks clusterMap outcome baks sendBak (freeReplyInfo replyInfo)
      | (true, replyInfo) => sendBaks clusterMap outcome baks true replyInfo

def listNode (clusterMap : ClusterMap) (sends : Sends) (clusterId : Bytes) : List Bytes :=
  match clusterMap.get? clusterId with
  | none => []
  | some clusterInfo =>
    if clusterInfo.isMaster && clusterInfo.isAlived then
      match doRedisCommand {} (sends clusterId clusterId) with
      | (true, replyInfo) => Routing.replyKeys replyInfo
      | (false, replyInfo) =>
        let replyInfo := freeReplyInfo replyInfo
        if clusterInfo.bakClusterList.length ≠ 0 then
          match sendBaks clusterMap (sends clusterId) clusterInfo.bakClusterList false replyInfo with
          | (false, _) => []
          | (true, replyInfo) => Routing.replyKeys replyInfo
        else Routing.replyKeys replyInfo
    else []

def getKeysInCluster (clusterMap : ClusterMap) (sends : Sends) (keys : List Bytes) : Bool × List Bytes :=
  (true, clusterMap.entries.foldl (fun keys x => keys ++ listNode clusterMap sends x.1) keys)

/-! ### What the replicas leave -/

def keep (held : List Bytes) : Outcome → List Bytes
  | .answered keys => held ++ keys
  | .refused _ => held
  | .failed _ => []

def Emptied : List Outcome → Prop
  | [] => True
  | .answered _ :: _ => False
  | .refused _ :: earlier => Emptied earlier
  | .failed _ :: _ => True

def Once (outcomes : List Outcome) : Prop :=
  match outcomes.reverse with
  | .answered _ :: earlier => Emptied earlier
  | _ => False

def receive (replyInfo : RedisReplyInfo) (o : Outcome) : RedisReplyInfo :=
  match doRedisCommand replyInfo o with
  | (false, replyInfo) => freeReplyInfo replyInfo
  | (true, replyInfo) => replyInfo

def bakOutcomes (clusterMap : ClusterMap) (outcome : Bytes → Outcome) (baks : List Bytes) : List Outcome :=
  (baks.filter fun bak => (clusterMap.get? bak).isSome).map outcome

theorem sendBaks_eq (clusterMap : ClusterMap) (outcome : Bytes → Outcome) (baks : List Bytes) (sendBak : Bool)
    (replyInfo : RedisReplyInfo) :
    sendBaks clusterMap outcome baks sendBak replyInfo =
      (sendBak || (bakOutcomes clusterMap outcome baks).any fun o => (doRedisCommand {} o).1,
        (bakOutcomes clusterMap outcome baks).foldl receive replyInfo) := by
  induction baks generalizing sendBak replyInfo with
  | nil => simp [sendBaks, bakOutcomes]
  | cons bak baks ih =>
    rw [sendBaks]
    cases hget : clusterMap.get? bak with
    | none =>
      simp only [ih]
      simp [bakOutcomes, hget]
    | some info =>
      have hcons : bakOutcomes clusterMap outcome (bak :: baks) =
          outcome bak :: bakOutcomes clusterMap outcome baks := by
        simp [bakOutcomes, hget]
      rw [hcons, any_cons, foldl_cons]
      cases ho : outcome bak with
      | answered keys => simp [doRedisCommand, ih, receive]
      | refused text => simp [doRedisCommand, ih, receive]
      | failed left => simp [doRedisCommand, ih, receive]

theorem arrayList_foldl_receive (outcomes : List Outcome) {held : List Bytes} {replyInfo : RedisReplyInfo}
    (h : replyInfo.arrayList = held.map keyInfo) :
    (outcomes.foldl receive replyInfo).arrayList = (outcomes.foldl keep held).map keyInfo := by
  induction outcomes generalizing held replyInfo with
  | nil => exact h
  | cons o outcomes ih =>
    rw [foldl_cons, foldl_cons]
    refine ih ?_
    cases o with
    | answered keys => simp [receive, doRedisCommand, keep, h]
    | refused text => simp [receive, doRedisCommand, keep, h]
    | failed left => simp [receive, doRedisCommand, keep, freeReplyInfo]

def cString (key : Bytes) : Bytes := key.takeWhile (· ≠ 0)

theorem cString_eq_self {key : Bytes} (h : 0 ∉ key) : cString key = key :=
  takeWhile_eq_self_iff.2 fun b hb => by
    simp only [ne_eq, decide_not, Bool.not_eq_true', decide_eq_false_iff_not]
    rintro rfl
    exact h hb

theorem zero_notMem_cString (key : Bytes) : 0 ∉ cString key := fun h =>
  absurd (mem_takeWhile_imp h) (by simp)

theorem replyKeys_eq {replyInfo : RedisReplyInfo} {held : List Bytes}
    (h : replyInfo.arrayList = held.map keyInfo) :
    Routing.replyKeys replyInfo = if replyInfo.replyType = .array then held.map cString else [] := by
  have hfilter : (held.map keyInfo).filter (·.replyType = .string) = held.map keyInfo :=
    List.filter_eq_self.2 fun a ha => by
      obtain ⟨key, -, rfl⟩ := List.mem_map.1 ha
      rfl
  rw [Routing.replyKeys, h, hfilter, List.map_map]
  rfl

theorem replyKeys_foldl_receive (outcomes : List Outcome) (left : RedisReplyInfo) :
    Routing.replyKeys (outcomes.foldl receive (freeReplyInfo left)) =
      match outcomes.reverse with
      | .answered keys :: earlier => (earlier.reverse.foldl keep [] ++ keys).map cString
      | _ => [] := by
  have hempty : (freeReplyInfo left).arrayList = ([] : List Bytes).map keyInfo := rfl
  have hheld := arrayList_foldl_receive outcomes hempty
  rw [replyKeys_eq hheld]
  cases outcomes using reverseRecOn with
  | nil => simp
  | append_singleton earlier o =>
    rw [foldl_concat, foldl_concat, reverse_concat]
    cases o with
    | answered keys => simp [receive, doRedisCommand, keep]
    | refused text => simp [receive, doRedisCommand]
    | failed left => simp [keep]

theorem replyKeys_of_none {outcomes : List Outcome}
    (h : ∀ o ∈ outcomes, ¬ (doRedisCommand {} o).1 = true) (left : RedisReplyInfo) :
    Routing.replyKeys (outcomes.foldl receive (freeReplyInfo left)) = [] := by
  rw [replyKeys_foldl_receive]
  split
  · rename_i keys earlier hlast
    exact absurd rfl (h (.answered keys) (mem_reverse.1 (by simp [hlast])))
  · rfl

section Held

variable {H : List Bytes}

def Answers (H : List Bytes) (outcomes : List Outcome) : Prop :=
  ∀ keys, .answered keys ∈ outcomes → keys.Perm H

theorem Answers.tail {o : Outcome} {outcomes : List Outcome} (h : Answers H (o :: outcomes)) :
    Answers H outcomes := fun keys hmem => h keys (mem_cons_of_mem _ hmem)

theorem Answers.last {outcomes earlier : List Outcome} {keys : List Bytes} (h : Answers H outcomes)
    (hlast : outcomes.reverse = .answered keys :: earlier) : keys.Perm H ∧ Answers H earlier := by
  have hanswers : Answers H (.answered keys :: earlier) := fun keys' hmem =>
    h keys' (mem_reverse.1 (hlast ▸ hmem))
  exact ⟨hanswers keys (by simp), hanswers.tail⟩

theorem Answers.mem_of_mem_keep {outcomes : List Outcome} (h : Answers H outcomes) {key : Bytes}
    (hkey : key ∈ outcomes.reverse.foldl keep []) : key ∈ H := by
  induction outcomes with
  | nil => simp at hkey
  | cons o outcomes ih =>
    have hrest := ih h.tail
    rw [reverse_cons, foldl_append] at hkey
    cases o with
    | answered keys =>
      rcases mem_append.1 hkey with hheld | hnew
      · exact hrest hheld
      · exact (h keys (by simp)).mem_iff.1 hnew
    | refused text => exact hrest hkey
    | failed left => cases hkey

theorem Emptied.keep_eq_nil {outcomes : List Outcome} (h : Emptied outcomes) :
    outcomes.reverse.foldl keep [] = [] := by
  induction outcomes with
  | nil => rfl
  | cons o outcomes ih =>
    rw [reverse_cons, foldl_append]
    cases o with
    | answered keys => exact h.elim
    | refused text => exact ih h
    | failed left => rfl

theorem Answers.emptied_or_mem {outcomes : List Outcome} (h : Answers H outcomes) {key : Bytes}
    (hkey : key ∈ H) : Emptied outcomes ∨ key ∈ outcomes.reverse.foldl keep [] := by
  induction outcomes with
  | nil => exact .inl trivial
  | cons o outcomes ih =>
    have hrest := ih h.tail
    rw [reverse_cons, foldl_append]
    cases o with
    | answered keys => exact .inr (mem_append_right _ ((h keys (by simp)).mem_iff.2 hkey))
    | refused text => exact hrest
    | failed left => exact .inl trivial

end Held

/-! ### One master -/

section Master

variable {clusterMap : ClusterMap} {sends : Sends} {clusterId : Bytes} {clusterInfo : RedisClusterInfo}
  {H : List Bytes}

def Reached (clusterMap : ClusterMap) (sends : Sends) (clusterId : Bytes) (clusterInfo : RedisClusterInfo) :
    Prop :=
  clusterInfo.isAlived = true ∧
    match sends clusterId clusterId with
    | .answered _ => True
    | .refused _ => False
    | .failed _ => Once (bakOutcomes clusterMap (sends clusterId) clusterInfo.bakClusterList)

theorem listNode_master (hget : clusterMap.get? clusterId = some clusterInfo)
    (hmaster : clusterInfo.isMaster = true) (halive : clusterInfo.isAlived = true) :
    listNode clusterMap sends clusterId =
      match sends clusterId clusterId with
      | .answered keys => keys.map cString
      | .refused _ => []
      | .failed left => Routing.replyKeys ((bakOutcomes clusterMap (sends clusterId)
          clusterInfo.bakClusterList).foldl receive (freeReplyInfo left)) := by
  simp only [listNode, hget, hmaster, halive, Bool.and_self, if_true]
  cases sends clusterId clusterId with
  | answered keys =>
    exact (replyKeys_eq (nil_append _)).trans (if_pos rfl)
  | refused text => simp [doRedisCommand, Routing.replyKeys]
  | failed left =>
    simp only [doRedisCommand, sendBaks_eq, Bool.false_or]
    by_cases hbaks : clusterInfo.bakClusterList = []
    · simp [hbaks, bakOutcomes]
    · simp only [ne_eq, length_eq_zero_iff, hbaks, not_false_eq_true, if_true]
      split
      · rename_i hnone
        exact (replyKeys_of_none (any_eq_false.1 (Prod.ext_iff.1 hnone).1) left).symm
      · rename_i hsome
        exact congrArg _ (Prod.ext_iff.1 hsome).2.symm

theorem listNode_eq_nil (hget : clusterMap.get? clusterId = some clusterInfo)
    (h : ¬ (clusterInfo.isMaster = true ∧ clusterInfo.isAlived = true)) :
    listNode clusterMap sends clusterId = [] := by
  simp [listNode, hget, h]

def Faithful (clusterMap : ClusterMap) (sends : Sends) (clusterId : Bytes) (clusterInfo : RedisClusterInfo)
    (H : List Bytes) : Prop :=
  (∀ keys, sends clusterId clusterId = .answered keys → keys.Perm H) ∧
    Answers H (bakOutcomes clusterMap (sends clusterId) clusterInfo.bakClusterList)

theorem Faithful.exists_cString (h : Faithful clusterMap sends clusterId clusterInfo H)
    (hget : clusterMap.get? clusterId = some clusterInfo) {key : Bytes}
    (hkey : key ∈ listNode clusterMap sends clusterId) :
    ∃ key' ∈ H, cString key' = key := by
  by_cases hasked : clusterInfo.isMaster = true ∧ clusterInfo.isAlived = true
  · rw [listNode_master hget hasked.1 hasked.2] at hkey
    split at hkey
    · rename_i keys hanswer
      obtain ⟨key', hmem, rfl⟩ := mem_map.1 hkey
      exact ⟨key', (h.1 keys hanswer).mem_iff.1 hmem, rfl⟩
    · cases hkey
    · rw [replyKeys_foldl_receive] at hkey
      split at hkey
      · rename_i keys earlier hlast
        obtain ⟨hkeys, hearlier⟩ := h.2.last hlast
        obtain ⟨key', hmem, rfl⟩ := mem_map.1 hkey
        refine ⟨key', ?_, rfl⟩
        rcases mem_append.1 hmem with hheld | hnew
        · exact hearlier.mem_of_mem_keep hheld
        · exact hkeys.mem_iff.1 hnew
      · cases hkey
  · rw [listNode_eq_nil hget hasked] at hkey
    cases hkey

theorem Reached.listNode_perm (hreached : Reached clusterMap sends clusterId clusterInfo)
    (h : Faithful clusterMap sends clusterId clusterInfo H)
    (hget : clusterMap.get? clusterId = some clusterInfo) (hmaster : clusterInfo.isMaster = true)
    (hnul : ∀ key ∈ H, 0 ∉ key) : (listNode clusterMap sends clusterId).Perm H := by
  have hself : H.map cString = H := by
    rw [map_congr_left fun key hkey => cString_eq_self (hnul key hkey), List.map_id']
  rw [listNode_master hget hmaster hreached.1]
  have hcase := hreached.2
  split at hcase
  · rename_i keys hanswer
    exact hself ▸ (h.1 keys hanswer).map cString
  · exact hcase.elim
  · rename_i left hfailed
    rw [replyKeys_foldl_receive]
    rw [Once] at hcase
    split at hcase
    · rename_i keys earlier hlast
      obtain ⟨hkeys, -⟩ := h.2.last hlast
      simp only [hcase.keep_eq_nil, nil_append]
      exact hself ▸ hkeys.map cString
    · exact hcase.elim

theorem Faithful.reached (h : Faithful clusterMap sends clusterId clusterInfo H)
    (hget : clusterMap.get? clusterId = some clusterInfo)
    (hnodup : (listNode clusterMap sends clusterId).Nodup) {key : Bytes} (hkey : key ∈ H) (hnul : 0 ∉ key)
    (hlisted : key ∈ listNode clusterMap sends clusterId) :
    Reached clusterMap sends clusterId clusterInfo := by
  by_cases hasked : clusterInfo.isMaster = true ∧ clusterInfo.isAlived = true
  · refine ⟨hasked.2, ?_⟩
    rw [listNode_master hget hasked.1 hasked.2] at hnodup hlisted
    split at hlisted
    · trivial
    · cases hlisted
    · rename_i left hfailed
      simp only [hfailed, replyKeys_foldl_receive] at hnodup
      rw [replyKeys_foldl_receive] at hlisted
      split at hlisted
      · rename_i keys earlier hlast
        rw [Once, hlast]
        obtain ⟨hkeys, hearlier⟩ := h.2.last hlast
        refine (hearlier.emptied_or_mem hkey).resolve_right fun hheld => ?_
        -- the key is in the object before the last answer, and in the last answer
        simp only [hlast, map_append] at hnodup
        have hlast' : key ∈ keys := hkeys.mem_iff.2 hkey
        have hself := cString_eq_self hnul
        exact (nodup_append'.1 hnodup).2.2 (mem_map.2 ⟨key, hheld, hself⟩)
          (mem_map.2 ⟨key, hlast', hself⟩)
      · cases hlisted
  · rw [listNode_eq_nil hget hasked] at hlisted
    cases hlisted

end Master

/-! ### The cluster -/

structure Partitioned (clusterMap : ClusterMap) (holds : Bytes → List Bytes) : Prop where
  nodup : ∀ x ∈ clusterMap.entries, x.2.isMaster = true → (holds x.1).Nodup
  apart : ∀ x ∈ clusterMap.entries, ∀ y ∈ clusterMap.entries, x.2.isMaster = true → y.2.isMaster = true →
    x.1 ≠ y.1 → (holds x.1).Disjoint (holds y.1)
  replicas : ∀ x ∈ clusterMap.entries, x.2.isMaster = true → ∀ bak ∈ x.2.bakClusterList,
    (clusterMap.get? bak).isSome = true → (holds bak).Perm (holds x.1)

def Truthful (sends : Sends) (holds : Bytes → List Bytes) : Prop :=
  ∀ a b keys, sends a b = .answered keys → keys.Perm (holds b)

def matching (clusterMap : ClusterMap) (holds : Bytes → List Bytes) : List Bytes :=
  clusterMap.entries.flatMap fun x => if x.2.isMaster then holds x.1 else []

def EachOnce (clusterMap : ClusterMap) (holds : Bytes → List Bytes) (before after : List Bytes) : Prop :=
  ∃ added, after = before ++ added ∧ added.Perm (matching clusterMap holds)

theorem getKeysInCluster_eq (clusterMap : ClusterMap) (sends : Sends) (keys : List Bytes) :
    getKeysInCluster clusterMap sends keys =
      (true, keys ++ clusterMap.entries.flatMap fun x => listNode clusterMap sends x.1) := by
  have hfold : ∀ (l : List (Bytes × RedisClusterInfo)) (keys : List Bytes),
      l.foldl (fun keys x => keys ++ listNode clusterMap sends x.1) keys =
        keys ++ l.flatMap fun x => listNode clusterMap sends x.1 := by
    intro l
    induction l with
    | nil => simp
    | cons x l ih => simp [ih]
  rw [getKeysInCluster, hfold]

section Cluster

variable {clusterMap : ClusterMap} {sends : Sends} {holds : Bytes → List Bytes}

theorem Partitioned.faithful (hpart : Partitioned clusterMap holds) (htrue : Truthful sends holds)
    {x : Bytes × RedisClusterInfo} (hx : x ∈ clusterMap.entries) (hmaster : x.2.isMaster = true) :
    Faithful clusterMap sends x.1 x.2 (holds x.1) := by
  refine ⟨fun keys hanswer => htrue _ _ keys hanswer, fun keys hmem => ?_⟩
  obtain ⟨bak, hbak, hanswer⟩ := mem_map.1 hmem
  obtain ⟨hlist, hsome⟩ := mem_filter.1 hbak
  exact (htrue _ _ keys hanswer).trans (hpart.replicas x hx hmaster bak hlist hsome)

theorem Partitioned.exists_cString (hpart : Partitioned clusterMap holds) (htrue : Truthful sends holds)
    {x : Bytes × RedisClusterInfo} (hx : x ∈ clusterMap.entries) {key : Bytes}
    (hkey : key ∈ listNode clusterMap sends x.1) :
    x.2.isMaster = true ∧ ∃ key' ∈ holds x.1, cString key' = key := by
  have hget := StdMap.get?_eq_some_iff.2 hx
  by_cases hmaster : x.2.isMaster = true
  · exact ⟨hmaster, (hpart.faithful htrue hx hmaster).exists_cString hget hkey⟩
  · rw [listNode_eq_nil hget fun h => hmaster h.1] at hkey
    cases hkey

theorem mem_matching {key : Bytes} : key ∈ matching clusterMap holds ↔
    ∃ x ∈ clusterMap.entries, x.2.isMaster = true ∧ key ∈ holds x.1 := by
  simp only [matching, mem_flatMap, mem_ite_nil_right]

theorem Partitioned.nodup_matching (hpart : Partitioned clusterMap holds) :
    (matching clusterMap holds).Nodup := by
  refine nodup_flatMap.2 ⟨fun x hx => ?_, ?_⟩
  · split
    · exact hpart.nodup x hx ‹_›
    · exact nodup_nil
  · refine Pairwise.imp_of_mem ?_ (pairwise_map.1 clusterMap.nodup)
    intro x y hx hy hne
    simp only [Function.onFun]
    split <;> split
    · exact hpart.apart x hx y hy ‹_› ‹_› hne
    all_goals simp

theorem Partitioned.zero_notMem (hpart : Partitioned clusterMap holds) (htrue : Truthful sends holds)
    {key : Bytes} (hlisted : key ∈ clusterMap.entries.flatMap fun x => listNode clusterMap sends x.1) :
    0 ∉ key := by
  obtain ⟨x, hx, hmem⟩ := mem_flatMap.1 hlisted
  obtain ⟨-, key', -, rfl⟩ := hpart.exists_cString htrue hx hmem
  exact zero_notMem_cString key'

theorem Partitioned.mem_listNode (hpart : Partitioned clusterMap holds) (htrue : Truthful sends holds)
    (hnul : ∀ key ∈ matching clusterMap holds, 0 ∉ key) {x : Bytes × RedisClusterInfo}
    (hx : x ∈ clusterMap.entries) (hmaster : x.2.isMaster = true) {key : Bytes} (hkey : key ∈ holds x.1)
    (hlisted : key ∈ clusterMap.entries.flatMap fun x => listNode clusterMap sends x.1) :
    key ∈ listNode clusterMap sends x.1 := by
  obtain ⟨y, hy, hmem⟩ := mem_flatMap.1 hlisted
  obtain ⟨hmaster', key', hkey', hcut⟩ := hpart.exists_cString htrue hy hmem
  obtain rfl : key' = key := by
    rw [← hcut, cString_eq_self (hnul key' (mem_matching.2 ⟨y, hy, hmaster', hkey'⟩))]
  have hsame : x.1 = y.1 := by
    by_contra hdiff
    exact hpart.apart x hx y hy hmaster hmaster' hdiff hkey hkey'
  exact hsame ▸ hmem

theorem listed_once_iff (hpart : Partitioned clusterMap holds) (htrue : Truthful sends holds)
    (keys : List Bytes) :
    EachOnce clusterMap holds keys (getKeysInCluster clusterMap sends keys).2 ↔
      ∀ x ∈ clusterMap.entries, x.2.isMaster = true → holds x.1 ≠ [] →
        Reached clusterMap sends x.1 x.2 ∧ ∀ key ∈ holds x.1, 0 ∉ key := by
  rw [getKeysInCluster_eq]
  constructor
  · rintro ⟨added, hadded, hperm⟩ x hx hmaster hne
    obtain rfl := append_cancel_left hadded
    have hnodup := hperm.nodup_iff.2 hpart.nodup_matching
    have hnul : ∀ key ∈ matching clusterMap holds, 0 ∉ key := fun key hkey =>
      hpart.zero_notMem htrue (hperm.mem_iff.2 hkey)
    have hall : ∀ key ∈ holds x.1, key ∈ matching clusterMap holds := fun key hkey =>
      mem_matching.2 ⟨x, hx, hmaster, hkey⟩
    refine ⟨?_, fun key hkey => hnul key (hall key hkey)⟩
    obtain ⟨key, hkey⟩ := exists_mem_of_ne_nil _ hne
    have hlisted := hpart.mem_listNode htrue hnul hx hmaster hkey (hperm.mem_iff.2 (hall key hkey))
    exact (hpart.faithful htrue hx hmaster).reached (StdMap.get?_eq_some_iff.2 hx)
      ((nodup_flatMap.1 hnodup).1 x hx) hkey (hnul key (hall key hkey)) hlisted
  · intro hreached
    refine ⟨_, rfl, Perm.flatMap_left _ fun x hx => ?_⟩
    have hget := StdMap.get?_eq_some_iff.2 hx
    by_cases hmaster : x.2.isMaster = true
    · have hfaithful := hpart.faithful htrue hx hmaster
      rw [if_pos hmaster]
      by_cases hnil : holds x.1 = []
      · have hnone : listNode clusterMap sends x.1 = [] := eq_nil_iff_forall_not_mem.2 fun key hkey => by
          obtain ⟨key', hmem, -⟩ := hfaithful.exists_cString hget hkey
          simp [hnil] at hmem
        rw [hnone, hnil]
      · obtain ⟨hnode, hnul⟩ := hreached x hx hmaster hnil
        exact hnode.listNode_perm hfaithful hget hmaster hnul
    · rw [if_neg hmaster, listNode_eq_nil hget fun h => hmaster h.1]

end Cluster

/-! ### A key that is listed twice -/

def node (isMaster : Bool) (baks : List Bytes) : RedisClusterInfo :=
  { isMaster := isMaster, isAlived := true, bakClusterList := baks }

def sampleMap : ClusterMap :=
  ((((∅ : ClusterMap).assign (ascii "a") (node true [ascii "c", ascii "d"])).assign (ascii "b")
    (node true [])).assign (ascii "c") (node false [])).assign (ascii "d") (node false [])

def sampleHolds (clusterId : Bytes) : List Bytes :=
  if clusterId = ascii "b" then [ascii "k2"] else [ascii "k1"]

def sampleSends (c d : Outcome) : Sends := fun _ b =>
  if b = ascii "a" then .failed {}
  else if b = ascii "c" then c
  else if b = ascii "d" then d
  else .answered (sampleHolds b)

theorem sampleMap_partitioned : Partitioned sampleMap sampleHolds := by
  refine ⟨by decide, ?_, by decide⟩
  unfold List.Disjoint
  decide

theorem sampleSends_truthful {c d : Outcome}
    (hc : ∀ keys, c = .answered keys → keys = [ascii "k1"])
    (hd : ∀ keys, d = .answered keys → keys = [ascii "k1"]) : Truthful (sampleSends c d) sampleHolds := by
  intro a b keys h
  simp only [sampleSends] at h
  split at h
  · cases h
  · split at h
    · rename_i hb
      rw [hc keys h, hb]
      rfl
    · split at h
      · rename_i hb
        rw [hd keys h, hb]
        rfl
      · cases h
        rfl

theorem listed_once_sample :
    EachOnce sampleMap sampleHolds [] (getKeysInCluster sampleMap
      (sampleSends (.failed {}) (.answered [ascii "k1"])) []).2 := by
  refine (listed_once_iff sampleMap_partitioned (sampleSends_truthful (by simp) (by simp)) []).2 ?_
  intro x hx hmaster _
  have hentries : x ∈ [(ascii "a", node true [ascii "c", ascii "d"]), (ascii "b", node true []),
      (ascii "c", node false []), (ascii "d", node false [])] := hx
  simp only [mem_cons, not_mem_nil, or_false] at hentries
  rcases hentries with rfl | rfl | rfl | rfl
  · exact ⟨⟨rfl, trivial⟩, by decide⟩
  · exact ⟨⟨rfl, trivial⟩, by decide⟩
  · cases hmaster
  · cases hmaster

theorem not_eachOnce_of_length {holds : Bytes → List Bytes} {clusterMap : ClusterMap} {after : List Bytes}
    (h : after.length ≠ (matching clusterMap holds).length) : ¬ EachOnce clusterMap holds [] after := by
  rintro ⟨added, hadded, hperm⟩
  exact h (hadded ▸ hperm.length_eq)

theorem listed_twice :
    let twice := sampleSends (.answered [ascii "k1"]) (.answered [ascii "k1"])
    let lost := sampleSends (.answered [ascii "k1"]) (.failed {})
    Partitioned sampleMap sampleHolds ∧
    (Truthful twice sampleHolds ∧
      (getKeysInCluster sampleMap twice []).2 = [ascii "k1", ascii "k1", ascii "k2"] ∧
      ¬ EachOnce sampleMap sampleHolds [] (getKeysInCluster sampleMap twice []).2) ∧
    (Truthful lost sampleHolds ∧ (getKeysInCluster sampleMap lost []).2 = [ascii "k2"] ∧
      ¬ EachOnce sampleMap sampleHolds [] (getKeysInCluster sampleMap lost []).2) :=
  ⟨sampleMap_partitioned,
    ⟨sampleSends_truthful (by simp) (by simp), by decide, not_eachOnce_of_length (by decide)⟩,
    ⟨sampleSends_truthful (by simp) (by simp), by decide, not_eachOnce_of_length (by decide)⟩⟩

end KeyListing

end GBDownLinker
