/-
**What the LRU cache finds.**

The cache hands every call to the shard of the key's hash.  The invariant of the shards holds in every run as
long as the records of the entries read back their keys and values.
-/

import BackendProgramming.LruCacheShard

set_option autoImplicit false

namespace ComponentsW

open CText ByteMem Function List Option Prod

/-! ### The whole cache -/

structure CacheSystem.Sound (capacity : UInt64) (junk : Mem) (last : Bytes → Option UInt64) (s : CacheSystem) :
    Prop where
  heap : HeapOk s.cache.store s.held
  shards : ∀ i, (s.cache.shard i).Ok (shardOf · = i) none s.cache.store s.held last
  capacity_eq : ∀ i, (s.cache.shard i).capacity = ShardedLRUCache.perShard capacity
  junk_eq : s.cache.store.junk = junk

section System

variable {capacity : UInt64} {junk : Mem} {last last' : Bytes → Option UInt64} {s s' : CacheSystem}
  {i : Fin kNumShards} {st st' : Store} {c c' : LRUCache} {held held' : List Addr}

theorem LRUCache.Ok.elsewhere {j : Fin kNumShards} {d : LRUCache} (h : d.Ok (shardOf · = j) none st held last) (hij : j ≠ i)
    (hwithin : Within (shardOf · = i) st c st' c')
    (hheld : ∀ a e, st.heap a = some e → shardOf e.hash ≠ i → (a ∈ held' ↔ a ∈ held))
    (hlast : ∀ k, shardOf (hashSlice k) ≠ i → last' k = last k) : d.Ok (shardOf · = j) none st' held' last' := by
  have hentry : ∀ a, d.Keeps none a → ∃ e, st.heap a = some e ∧ st'.heap a = some e ∧ shardOf e.hash = j := by
    intro a ha
    obtain ⟨e, he, -, hshard⟩ := (h.keeps_iff a).1 ha
    exact ⟨e, he, (hwithin.elsewhere a e (hshard ▸ hij)).2 he, hshard⟩
  have hheld' : ∀ a, d.Keeps none a → (a ∈ held' ↔ a ∈ held) := by
    intro a ha
    obtain ⟨e, he, -, hshard⟩ := hentry a ha
    exact hheld a e he (hshard ▸ hij)
  refine ⟨h.table.of_heap fun a ha => ?_, h.notMem_of_out, h.lru_nodup, h.inUse_nodup, fun a => ?_, fun a => ?_,
    fun a => ?_, ?_⟩
  · obtain ⟨e, he, he', -⟩ := hentry a (Or.inl ha)
    rw [he, he']
    rfl
  · rw [h.mem_lru a]
    exact and_congr_right fun ha => not_congr (hheld' a ha).symm
  · rw [h.mem_inUse a]
    exact and_congr_right fun ha => (hheld' a ha).symm
  · rw [h.keeps_iff a]
    refine exists_congr fun e => ?_
    constructor
    · rintro ⟨he, hin, hshard⟩
      exact ⟨(hwithin.elsewhere a e (hshard ▸ hij)).2 he, hin, hshard⟩
    · rintro ⟨he, hin, hshard⟩
      exact ⟨(hwithin.elsewhere a e (hshard ▸ hij)).1 he, hin, hshard⟩
  · intro a ha e' k v he' his
    obtain ⟨e, he, he'', hshard⟩ := hentry a (Or.inl ha)
    obtain rfl := some.inj (he''.symm.trans he')
    rw [hlast k (by rw [← his.hash, hshard]; exact hij)]
    exact h.latest a ha e k v he his

theorem CacheSystem.Sound.put (h : s.Sound capacity junk last) (hheap : HeapOk st' held')
    (hok : c'.Ok (shardOf · = i) none st' held' last') (hwithin : Within (shardOf · = i) s.cache.store (s.cache.shard i) st' c')
    (hheld : ∀ a e, s.cache.store.heap a = some e → shardOf e.hash ≠ i → (a ∈ held' ↔ a ∈ s.held))
    (hlast : ∀ k, shardOf (hashSlice k) ≠ i → last' k = last k) :
    CacheSystem.Sound capacity junk last' ⟨s.cache.put i (st', c'), held'⟩ where
  heap := hheap
  shards j := by
    by_cases hij : j = i
    · subst hij
      simpa [ShardedLRUCache.put] using hok
    · simpa [ShardedLRUCache.put, hij] using (h.shards j).elsewhere hij hwithin hheld hlast
  capacity_eq j := by
    by_cases hij : j = i
    · subst hij
      simpa [ShardedLRUCache.put] using hwithin.capacity.trans (h.capacity_eq j)
    · simpa [ShardedLRUCache.put, hij] using h.capacity_eq j
  junk_eq := hwithin.junk.trans h.junk_eq

/-! ### Runs -/

def note (last : Bytes → Option UInt64) : CacheEvent → Bytes → Option UInt64
  | .insert key value _ => update last key (some value)
  | _ => last

def latest (es : List CacheEvent) : Bytes → Option UInt64 := es.foldl note fun _ => none

def Legal (P : Bytes → UInt64 → Prop) (s : CacheSystem) : CacheEvent → Prop
  | .insert key value _ =>
    P key value ∧ (s.cache.shard (shardOf (hashSlice key))).table.elems.toNat < 2 ^ 31
  | .lookup _ => ∀ a ∈ s.held, s.held.count a + 2 < 2 ^ 32
  | .release handle => handle ∈ s.held
  | _ => True

def Present (s : CacheSystem) (k : Bytes) : Prop :=
  ∃ a ∈ (s.cache.shard (shardOf (hashSlice k))).table.addrs, HasKey hashSlice s.cache.store.heap a k

theorem sound_new : (CacheSystem.new capacity junk).Sound capacity junk fun _ => none where
  heap := heapOk_new junk
  shards _ := LRUCache.ok_new _ junk
  capacity_eq _ := rfl
  junk_eq := rfl

theorem CacheSystem.Sound.insert (h : s.Sound capacity junk last) {k : Bytes} {v : UInt64} (charge : UInt64)
    (hcapacity : 0 < ShardedLRUCache.perShard capacity) (hintact : Intact hashSlice junk k v)
    (helems : (s.cache.shard (shardOf (hashSlice k))).table.elems.toNat < 2 ^ 31) :
    ∃ s', s.step (.insert k v charge) = some s' ∧
      s'.Sound capacity junk (update last k (some v)) ∧ Present s' k := by
  obtain ⟨st', c', hinsert, hheap, hok, hwithin, hmem, hhas⟩ := insert_spec h.heap charge
    (by rwa [h.junk_eq]) (by rwa [h.capacity_eq]) (h.shards (shardOf (hashSlice k))) rfl helems
  refine ⟨⟨s.cache.put (shardOf (hashSlice k)) (st', c'), s.cache.store.made :: s.held⟩, ?_,
    h.put hheap hok hwithin (fun a e he _ => ?_) (fun k' hk' => ?_), s.cache.store.made, ?_, hhas⟩
  · rw [CacheSystem.step, ShardedLRUCache.insert, hinsert]
    rfl
  · have hne : a ≠ s.cache.store.made := (h.heap.lt_made he).ne
    rw [mem_cons, or_iff_right hne]
  · exact update_of_ne (fun heq => hk' (by rw [heq])) _ _
  · simpa [ShardedLRUCache.put] using hmem

theorem CacheSystem.Sound.lookup (h : s.Sound capacity junk last) (k : Bytes)
    (hheld : ∀ a ∈ s.held, s.held.count a + 2 < 2 ^ 32) :
    ∃ s', s.step (.lookup k) = some s' ∧ s'.Sound capacity junk last := by
  have hshard := h.shards (shardOf (hashSlice k))
  obtain ⟨r, hlookup, hr, -⟩ := lookup_spec h.heap hshard k
  rw [CacheSystem.step, ShardedLRUCache.lookup, LRUCache.lookup, hlookup, bind_eq_bind, bind_some]
  cases hra : r with
  | none =>
    exact ⟨_, rfl, h.put h.heap hshard .refl (fun _ _ _ _ => Iff.rfl) fun _ _ => rfl⟩
  | some a =>
    have hmem := ((hr a).1 hra).1
    have hcount : s.held.count a + 2 < 2 ^ 32 := by
      by_cases ha : a ∈ s.held
      · exact hheld a ha
      · rw [count_eq_zero_of_not_mem ha]
        norm_num
    obtain ⟨st', c', href, hheap, hok, hwithin⟩ := ref_spec h.heap hshard hmem hcount
    dsimp only
    rw [href]
    refine ⟨_, rfl, h.put hheap hok hwithin (fun b e he hne => ?_) fun _ _ => rfl⟩
    have hba : b ≠ a := by
      rintro rfl
      obtain ⟨e', he', -, hshard'⟩ := (hshard.keeps_iff b).1 (Or.inl hmem)
      exact hne (some.inj (he.symm.trans he') ▸ hshard')
    exact mem_cons.trans (or_iff_right hba)

theorem CacheSystem.Sound.release (h : s.Sound capacity junk last) {a : Addr} (ha : a ∈ s.held) :
    ∃ s', s.step (.release a) = some s' ∧ s'.Sound capacity junk last := by
  obtain ⟨e, he⟩ := h.heap.live a ha
  obtain ⟨st', c', hunref, hheap, hok, hwithin⟩ := unref_spec h.heap (h.shards (shardOf e.hash)) ha he rfl
  refine ⟨⟨s.cache.put (shardOf e.hash) (st', c'), s.held.erase a⟩, ?_,
    h.put hheap hok hwithin (fun b e' he' hne => ?_) fun _ _ => rfl⟩
  · rw [CacheSystem.step, ShardedLRUCache.release, he, bind_eq_bind, bind_some, LRUCache.release,
      hunref]
    rfl
  · have hba : b ≠ a := by
      rintro rfl
      exact hne (by rw [some.inj (he'.symm.trans he)])
    exact mem_erase_of_ne hba

theorem CacheSystem.Sound.erase (h : s.Sound capacity junk last) (k : Bytes) :
    ∃ s', s.step (.erase k) = some s' ∧ s'.Sound capacity junk last := by
  obtain ⟨old, table, hremove, hok₁, -, -⟩ := remove_ok (h.shards (shardOf (hashSlice k))) (Slice.of_denotes k)
  obtain ⟨st', c', hfinish, hheap, hok, hwithin, -⟩ := finishErase_spec h.heap hok₁
  refine ⟨⟨s.cache.put (shardOf (hashSlice k)) (st', c'), s.held⟩, ?_,
    h.put hheap hok ⟨hwithin.elsewhere, hwithin.junk, hwithin.capacity⟩ (fun _ _ _ _ => Iff.rfl) fun _ _ => rfl⟩
  rw [CacheSystem.step, ShardedLRUCache.erase, LRUCache.erase, hremove, bind_eq_bind, bind_some]
  exact congrArg (Option.map _ <| Option.map _ ·) hfinish

theorem CacheSystem.Sound.pruneLoop (is : List (Fin kNumShards)) (h : s.Sound capacity junk last) :
    ∃ c, s.cache.pruneLoop is = some c ∧ CacheSystem.Sound capacity junk last ⟨c, s.held⟩ := by
  induction is generalizing s with
  | nil => exact ⟨s.cache, rfl, h⟩
  | cons i is ih =>
    obtain ⟨st', c', hloop, hheap, hok, hwithin, -⟩ :=
      evictLoop_spec (fun _ => true) (Nat.lt_succ_self _) h.heap (h.shards i)
    obtain ⟨c, hrest, hsound⟩ := ih (h.put hheap hok hwithin (fun _ _ _ _ => Iff.rfl) fun _ _ => rfl)
    refine ⟨c, ?_, hsound⟩
    rw [ShardedLRUCache.pruneLoop, LRUCache.prune, hloop]
    exact hrest

theorem CacheSystem.Sound.step {P : Bytes → UInt64 → Prop}
    (hP : ∀ k v, P k v → 0 < ShardedLRUCache.perShard capacity ∧ Intact hashSlice junk k v)
    (h : s.Sound capacity junk last) {e : CacheEvent} (hlegal : Legal P s e) :
    ∃ s', s.step e = some s' ∧ s'.Sound capacity junk (note last e) := by
  cases e with
  | insert k v charge =>
    obtain ⟨hcapacity, hintact⟩ := hP k v hlegal.1
    obtain ⟨s', hstep, hsound, -⟩ := h.insert charge hcapacity hintact hlegal.2
    exact ⟨s', hstep, hsound⟩
  | lookup k => exact h.lookup k hlegal
  | release a => exact h.release hlegal
  | erase k => exact h.erase k
  | prune =>
    obtain ⟨c, hprune, hsound⟩ := h.pruneLoop (List.finRange kNumShards)
    exact ⟨⟨c, s.held⟩, by rw [CacheSystem.step, ShardedLRUCache.prune, hprune]; rfl, hsound⟩

theorem CacheSystem.Sound.run {P : Bytes → UInt64 → Prop}
    (hP : ∀ k v, P k v → 0 < ShardedLRUCache.perShard capacity ∧ Intact hashSlice junk k v)
    (h : s.Sound capacity junk last) {es : List CacheEvent}
    (hlegal : Lts.Along CacheSystem.step (Legal P) s es) :
    ∃ s', Lts.run CacheSystem.step s es = some s' ∧ s'.Sound capacity junk (es.foldl note last) := by
  induction es generalizing s last with
  | nil => exact ⟨s, rfl, h⟩
  | cons e es ih =>
    obtain ⟨t, hstep, ht⟩ := h.step hP hlegal.1
    obtain ⟨s', hrun, hs'⟩ := ih ht (hlegal.2 t hstep)
    refine ⟨s', ?_, hs'⟩
    rw [Lts.run, hstep]
    exact hrun

/-! ### What lookups find -/

def LookupsRight (es : List CacheEvent) (s : CacheSystem) : Prop :=
  ∀ k, ∃ r c, s.cache.lookup k = some (r, c) ∧
    (∀ a, r = some a → ∃ v, latest es k = some v ∧ c.value a = some v) ∧
    ∀ es' v charge, es = es' ++ [.insert k v charge] → ∃ a, r = some a ∧ c.value a = some v

theorem lookup_eq {k : Bytes} {r : Option Addr}
    (h : (s.cache.shard (shardOf (hashSlice k))).table.lookup s.cache.store.heap (Slice.of k) (hashSlice k) = some r)
    (hlive : ∀ a, r = some a → ∃ e, s.cache.store.heap a = some e) :
    ∃ c, s.cache.lookup k = some (r, c) ∧
      ∀ a e, r = some a → s.cache.store.heap a = some e → c.value a = some e.value := by
  rw [ShardedLRUCache.lookup, LRUCache.lookup, h, bind_eq_bind, bind_some]
  cases r with
  | none => exact ⟨_, rfl, fun a e ha => (by cases ha)⟩
  | some a =>
    obtain ⟨e, he⟩ := hlive a rfl
    dsimp only
    rw [LRUCache.ref, he, bind_eq_bind, bind_some]
    refine ⟨_, rfl, fun b e' hb he' => ?_⟩
    cases hb
    obtain rfl := some.inj (he.symm.trans he')
    simp [ShardedLRUCache.value, ShardedLRUCache.put, Store.set, LRUHandle.value]

theorem CacheSystem.Sound.lookupsRight {P : Bytes → UInt64 → Prop}
    (hP : ∀ k v, P k v → 0 < ShardedLRUCache.perShard capacity ∧ Intact hashSlice junk k v) {es : List CacheEvent}
    (hlegal : Lts.Along CacheSystem.step (Legal P) (CacheSystem.new capacity junk) es)
    (hrun : Lts.run CacheSystem.step (CacheSystem.new capacity junk) es = some s) : LookupsRight es s := by
  intro k
  obtain ⟨s', hrun', hs⟩ := sound_new.run hP hlegal
  obtain rfl := some.inj (hrun.symm.trans hrun')
  obtain ⟨r, hlookup, hr, hvalue⟩ := lookup_spec hs.heap (hs.shards (shardOf (hashSlice k))) k
  obtain ⟨c, hc, hcvalue⟩ := lookup_eq hlookup fun a ha => (hvalue a ha).imp fun _ he => he.1
  refine ⟨r, c, hc, fun a ha => ?_, fun es' v charge hes => ?_⟩
  · obtain ⟨e, he, hlast⟩ := hvalue a ha
    exact ⟨e.value, hlast, hcvalue a e ha he⟩
  · subst hes
    -- the state in front of the last insert
    obtain ⟨hlegal', hlast⟩ := hlegal.concat
    obtain ⟨t, hrun₁, ht⟩ := sound_new.run hP hlegal'
    obtain ⟨hPkv, helems⟩ := hlast t hrun₁
    obtain ⟨hcapacity, hintact⟩ := hP k v hPkv
    obtain ⟨s'', hstep, -, a, hmem, hhas⟩ := ht.insert charge hcapacity hintact helems
    rw [Lts.run_concat, hrun₁, bind_some, hstep] at hrun
    cases hrun
    have hra : r = some a := (hr a).2 ⟨hmem, hhas⟩
    obtain ⟨e, he, hlatest⟩ := hvalue a hra
    refine ⟨a, hra, ?_⟩
    rw [hcvalue a e hra he]
    have : latest (es' ++ [.insert k v charge]) k = some v := by simp [latest, note]
    exact (hlatest.symm.trans this)

theorem insert_new_shard {k : Bytes} {hash : UInt32} {v charge cap : UInt64} {a : Addr}
    (h : LRUCache.insert { capacity := cap } { junk := junk } k hash v charge = some (a, st, c)) :
    ∃ e, newHandle junk k hash v charge = some e ∧
      if 0 < cap then st.heap = update (fun _ => none) 0 (some { e with refs := e.refs + 1, inCache := true })
      else c.table = {} := by
  obtain ⟨e, hnew, h⟩ := bind_eq_some_iff.1 h
  obtain ⟨⟨st₁, c₁⟩, henter, h⟩ := bind_eq_some_iff.1 h
  obtain ⟨x, hloop, h⟩ := bind_eq_some_iff.1 h
  obtain ⟨-, rfl⟩ := mk.inj (some.inj h)
  refine ⟨e, hnew, ?_⟩
  rw [LRUCache.enter] at henter
  split
  · next hcap =>
    rw [if_pos hcap, LRUCache.place] at henter
    obtain ⟨⟨old, table⟩, htable, hfinish⟩ := bind_eq_some_iff.1 henter
    have hentry : update (fun _ => none) 0 (some { e with refs := e.refs + 1, inCache := true }) 0 =
        some { e with refs := e.refs + 1, inCache := true } := update_self ..
    obtain ⟨t, ht⟩ := HandleTable.insert_new hentry
    obtain ⟨rfl, rfl⟩ := mk.inj (some.inj (htable.symm.trans ht))
    obtain ⟨rfl, rfl⟩ := mk.inj (some.inj hfinish)
    obtain ⟨rfl, rfl⟩ := mk.inj (some.inj hloop)
    rfl
  · next hcap =>
    rw [if_neg hcap] at henter
    obtain ⟨rfl, rfl⟩ := mk.inj (some.inj henter)
    obtain ⟨rfl, rfl⟩ := mk.inj (some.inj hloop)
    rfl

theorem intact_of_lookupsRight {k : Bytes} {v : UInt64}
    (hrun : Lts.run CacheSystem.step (CacheSystem.new capacity junk) [.insert k v 0] = some s)
    (hright : LookupsRight [.insert k v 0] s) :
    0 < ShardedLRUCache.perShard capacity ∧ Intact hashSlice junk k v := by
  obtain ⟨r, c, hlookup, -, hfound⟩ := hright k
  obtain ⟨a, rfl, hvalue⟩ := hfound [] v 0 rfl
  obtain ⟨s', hstep, hs'⟩ := Lts.run_cons hrun
  cases hs'
  obtain ⟨x, hinsert, rfl⟩ := map_eq_some_iff.1 hstep
  obtain ⟨⟨a', st', c'⟩, hshard, rfl⟩ := map_eq_some_iff.1 hinsert
  obtain ⟨e, hnew, hcases⟩ := insert_new_shard hshard
  -- what the lookup reads is the shard that the insert has left
  obtain ⟨⟨r, st'', c''⟩, hlookup', hput⟩ := map_eq_some_iff.1 hlookup
  obtain ⟨rfl, rfl⟩ := mk.inj hput
  have hsame : (ShardedLRUCache.put (CacheSystem.new capacity junk).cache (shardOf (hashSlice k)) (st', c')).shard
      (shardOf (hashSlice k)) = c' := update_self ..
  rw [hsame, LRUCache.lookup] at hlookup'
  obtain ⟨o, htable, hrest⟩ := bind_eq_some_iff.1 hlookup'
  cases o with
  | none => cases hrest
  | some b =>
    obtain ⟨y, href, heq⟩ := map_eq_some_iff.1 hrest
    obtain ⟨hb, rfl⟩ := mk.inj heq
    obtain rfl := some.inj hb
    split at hcases
    · next hcap =>
      obtain ⟨e', he', hof⟩ := HandleTable.lookup_found htable
      have hentry : ∃ refs, e' = { e with refs := refs, inCache := true } := by
        change st'.heap b = some e' at he'
        rw [hcases, update_apply] at he'
        split at he'
        · exact ⟨_, (some.inj he').symm⟩
        · cases he'
      have hread : e'.value = v := by
        rw [LRUCache.ref, he', bind_eq_bind, bind_some] at href
        obtain ⟨rfl, -⟩ := mk.inj (some.inj href)
        simpa [ShardedLRUCache.value, ShardedLRUCache.put, Store.set, LRUHandle.value] using hvalue
      obtain ⟨refs, rfl⟩ := hentry
      rw [LRUHandle.isOf] at hof
      split at hof
      · cases hof
      · next hhash =>
        exact ⟨hcap, e, hnew, Slice.denotes_of_eq hof, not_not.1 hhash, hread⟩
    · rw [hcases, HandleTable.lookup, HandleTable.findPointer_new] at htable
      cases htable

theorem lookups_right_iff (capacity : UInt64) (junk : Mem) (P : Bytes → UInt64 → Prop) :
    (∀ es, Lts.Along CacheSystem.step (Legal P) (CacheSystem.new capacity junk) es →
      ∃ s, Lts.run CacheSystem.step (CacheSystem.new capacity junk) es = some s ∧ LookupsRight es s) ↔
      ∀ k v, P k v → 0 < ShardedLRUCache.perShard capacity ∧ Intact hashSlice junk k v := by
  constructor
  · intro h k v hkv
    have hlegal : Lts.Along CacheSystem.step (Legal P) (CacheSystem.new capacity junk) [.insert k v 0] :=
      ⟨⟨hkv, show (0 : UInt32).toNat < 2 ^ 31 by decide⟩, fun _ _ => trivial⟩
    obtain ⟨s, hrun, hright⟩ := h _ hlegal
    exact intact_of_lookupsRight hrun hright
  · intro hP es hlegal
    obtain ⟨s, hrun, -⟩ := sound_new.run hP hlegal
    exact ⟨s, hrun, CacheSystem.Sound.lookupsRight hP hlegal hrun⟩

def insertThenLookup (capacity : UInt64) (key : Bytes) (value : UInt64) : Option (Option Addr) :=
  (Lts.run CacheSystem.step (CacheSystem.new capacity fun _ => 0) [.insert key value 1]).bind fun s =>
    (s.cache.lookup key).map fst

theorem not_found_after_insert :
    insertThenLookup 1000 (ascii "backend-9") 7 = some none ∧
      insertThenLookup 0xffffffffffffffff (ascii "key1") 7 = some none := by
  decide +kernel

example : insertThenLookup 1000 (ascii "key1") 7 = some (some 0) := by decide +kernel

end System

end ComponentsW
