/-
**How long the entries of the LRU cache live.**

One `LRUCache` is run with the callers that hold its handles, and with a record of the entries that have been
inserted, each at its address.
-/

import BackendProgramming.LruCacheShard

set_option autoImplicit false

namespace ComponentsW

open CText ByteMem Function List Option

/-! ### One cache and its callers -/

abbrev Inserts := List (Bytes × UInt64 × UInt64)

structure ShardSystem where
  store : Store
  cache : LRUCache
  held : List Addr := []
  inserted : Inserts := []
  clock : ℕ := 0
  releasedAt : Addr → ℕ := fun _ => 0

namespace ShardSystem

def new (capacity : UInt64) (junk : Mem) : ShardSystem where
  store := { junk := junk }
  cache := { capacity := capacity }

def step (s : ShardSystem) : CacheEvent → Option ShardSystem
  | .insert key value charge =>
    (s.cache.insert s.store key (hashSlice key) value charge).map fun x =>
      { s with
        store := x.2.1
        cache := x.2.2
        held := x.1 :: s.held
        inserted := s.inserted ++ [(key, value, charge)] }
  | .lookup key =>
    (s.cache.lookup s.store key (hashSlice key)).map fun x =>
      { s with store := x.2.1, cache := x.2.2, held := x.1.toList ++ s.held }
  | .release handle =>
    (s.cache.release s.store handle).map fun x =>
      { s with
        store := x.1
        cache := x.2
        held := s.held.erase handle
        clock := s.clock + 1
        releasedAt := Function.update s.releasedAt handle s.clock }
  | .erase key =>
    (s.cache.erase s.store key (hashSlice key)).map fun x => { s with store := x.1, cache := x.2 }
  | .prune => (s.cache.prune s.store).map fun x => { s with store := x.1, cache := x.2 }

end ShardSystem

def chargeAt (inserted : Inserts) (a : Addr) : ℕ := inserted[a]?.elim 0 fun x => x.2.2.toNat

def totalCharge (inserted : Inserts) : ℕ := (inserted.map fun x => x.2.2.toNat).sum

def ShardLegal (P : Bytes → Prop) (s : ShardSystem) : CacheEvent → Prop
  | .insert key _ charge =>
    key.length ≤ 8 ∧ P key ∧ totalCharge s.inserted + charge.toNat < 2 ^ 64 ∧ s.cache.table.elems.toNat < 2 ^ 31
  | .lookup _ => ∀ a ∈ s.held, s.held.count a + 2 < 2 ^ 32
  | .release handle => handle ∈ s.held
  | _ => True

def Deletes (inserted : Inserts) (call : Slice × UInt64) (a : Addr) : Prop :=
  ∃ k v charge, inserted[a]? = some (k, v, charge) ∧ call.1.Denotes k ∧ call.2 = v

structure ShardSystem.LifetimeRight (s : ShardSystem) : Prop where
  freed : ∀ a < s.inserted.length, s.store.heap a = none ↔ a ∉ s.cache.table.addrs ∧ a ∉ s.held
  deleted : ∃ gone : List Addr, gone.Nodup ∧
    (∀ a, a ∈ gone ↔ a < s.inserted.length ∧ a ∉ s.cache.table.addrs ∧ a ∉ s.held) ∧
    List.Forall₂ (Deletes s.inserted) s.store.deleted gone
  inCache : ∀ a, a ∈ s.cache.table.addrs ↔ ∃ e, s.store.heap a = some e ∧ e.inCache = true
  table : s.cache.table.addrs.Nodup
  lru : s.cache.lru.Nodup ∧ ∀ a, a ∈ s.cache.lru ↔ a ∈ s.cache.table.addrs ∧ a ∉ s.held
  inUse : s.cache.inUse.Nodup ∧ ∀ a, a ∈ s.cache.inUse ↔ a ∈ s.cache.table.addrs ∧ a ∈ s.held
  usage : s.cache.usage.toNat = ∑ a ∈ s.cache.table.addrs.toFinset, chargeAt s.inserted a

/-! ### Charges -/

section Charges

variable {inserted : Inserts} {a : Addr} {x : Bytes × UInt64 × UInt64}

theorem getElem?_concat_of_some (h : inserted[a]? = some x) (y : Bytes × UInt64 × UInt64) :
    (inserted ++ [y])[a]? = some x := by
  rw [getElem?_append_left (List.getElem?_eq_some_iff.1 h).1, h]

theorem chargeAt_of_some (h : inserted[a]? = some x) : chargeAt inserted a = x.2.2.toNat := by
  rw [chargeAt, h]
  rfl

theorem chargeAt_concat_of_lt (h : a < inserted.length) (y : Bytes × UInt64 × UInt64) :
    chargeAt (inserted ++ [y]) a = chargeAt inserted a := by
  rw [chargeAt, chargeAt, getElem?_append_left h]

theorem sum_chargeAt_range (inserted : Inserts) :
    ∑ a ∈ Finset.range inserted.length, chargeAt inserted a = totalCharge inserted := by
  induction inserted using reverseRecOn with
  | nil => rfl
  | append_singleton inserted y ih =>
    have hlast : chargeAt (inserted ++ [y]) inserted.length = y.2.2.toNat :=
      chargeAt_of_some (by simp)
    have hrest : ∑ a ∈ Finset.range inserted.length, chargeAt (inserted ++ [y]) a = totalCharge inserted := by
      rw [← ih]
      exact Finset.sum_congr rfl fun a ha => chargeAt_concat_of_lt (Finset.mem_range.1 ha) y
    rw [length_append, length_singleton, Finset.sum_range_succ, hrest, hlast]
    simp [totalCharge]

theorem sum_chargeAt_le (inserted : Inserts) (U : Finset Addr) :
    ∑ a ∈ U, chargeAt inserted a ≤ totalCharge inserted := by
  rw [← sum_chargeAt_range]
  refine Finset.sum_le_sum_of_ne_zero fun a _ hne => ?_
  by_contra hnot
  refine hne ?_
  rw [chargeAt, getElem?_eq_none (by simpa using hnot)]
  rfl

end Charges

namespace LRUCache

def kept (c : LRUCache) (out : Option Addr) : Finset Addr := c.table.addrs.toFinset ∪ out.toFinset

def Charged (c : LRUCache) (out : Option Addr) (inserted : Inserts) : Prop :=
  c.usage.toNat = ∑ a ∈ c.kept out, chargeAt inserted a

variable {c c' : LRUCache} {out out' : Option Addr} {inserted : Inserts} {a : Addr}

theorem mem_kept : a ∈ c.kept out ↔ c.Keeps out a := by
  simp [kept, Keeps]

theorem Charged.congr (h : c.Charged out inserted) (husage : c'.usage = c.usage)
    (hkeeps : ∀ b, c'.Keeps out' b ↔ c.Keeps out b) : c'.Charged out' inserted := by
  have hkept : c'.kept out' = c.kept out := Finset.ext fun b => by rw [mem_kept, mem_kept, hkeeps]
  rw [Charged, husage, hkept]
  exact h

theorem Charged.concat (h : c.Charged out inserted) (hlt : ∀ b, c.Keeps out b → b < inserted.length)
    (y : Bytes × UInt64 × UInt64) : c.Charged out (inserted ++ [y]) :=
  h.trans (Finset.sum_congr rfl fun b hb => (chargeAt_concat_of_lt (hlt b (mem_kept.1 hb)) y).symm)

theorem Charged.erase (h : c.Charged (some a) inserted) (hnot : a ∉ c.table.addrs) {charge : UInt64}
    (hcharge : charge.toNat = chargeAt inserted a) :
    Charged { c.lruRemove a with usage := c.usage - charge } none inserted := by
  have hkept : c.kept (some a) = Insert.insert a (c.kept none) := by
    ext b
    rw [Finset.mem_insert, mem_kept, mem_kept]
    simp [Keeps, or_comm, eq_comm]
  have hnew : a ∉ c.kept none := by
    rw [mem_kept]
    rintro (hmem | hmem)
    · exact hnot hmem
    · cases hmem
  rw [Charged, hkept, Finset.sum_insert hnew] at h
  have hle : charge ≤ c.usage := by
    rw [UInt64.le_iff_toNat_le]
    omega
  have hsub := UInt64.toNat_sub_of_le _ _ hle
  change (c.usage - charge).toNat = ∑ b ∈ c.kept none, chargeAt inserted b
  omega

theorem Charged.entered (h : c.Charged none inserted) (hlt : ∀ b ∈ c.table.addrs, b < inserted.length)
    {table : HandleTable} (hold : ∀ b, out = some b → b ∈ c.table.addrs)
    (hmem : ∀ b, b ∈ table.addrs ↔ b = inserted.length ∨ b ∈ c.table.addrs ∧ out ≠ some b) (k : Bytes) (v : UInt64)
    {charge : UInt64} (hsum : totalCharge inserted + charge.toNat < 2 ^ 64) :
    (c.entered inserted.length charge table).Charged out (inserted ++ [(k, v, charge)]) := by
  have hkept : (c.entered inserted.length charge table).kept out = Insert.insert inserted.length (c.kept none) := by
    ext b
    rw [Finset.mem_insert, mem_kept, mem_kept, Keeps, Keeps, LRUCache.entered]
    rw [hmem]
    constructor
    · rintro ((hb | hb) | hb)
      · exact Or.inl hb
      · exact Or.inr (Or.inl hb.1)
      · exact Or.inr (Or.inl (hold b hb))
    · rintro (hb | hb | hb)
      · exact Or.inl (Or.inl hb)
      · by_cases hout : out = some b
        · exact Or.inr hout
        · exact Or.inl (Or.inr ⟨hb, hout⟩)
      · cases hb
  have hlt' : ∀ b, c.Keeps none b → b < inserted.length := by
    rintro b (hb | hb)
    · exact hlt b hb
    · cases hb
  have hnew : inserted.length ∉ c.kept none := fun hin => lt_irrefl _ (hlt' _ (mem_kept.1 hin))
  have hcharge : chargeAt (inserted ++ [(k, v, charge)]) inserted.length = charge.toNat :=
    chargeAt_of_some (x := (k, v, charge)) (by simp)
  have hrest := h.concat hlt' (k, v, charge)
  have hbound : c.usage.toNat ≤ totalCharge inserted := h.trans_le (sum_chargeAt_le inserted _)
  rw [Charged, hkept, Finset.sum_insert hnew, hcharge, ← hrest]
  change (c.usage + charge).toNat = _
  rw [UInt64.toNat_add, Nat.mod_eq_of_lt (by omega), Nat.add_comm]

end LRUCache

/-! ### Entries -/

structure Accounted (st : Store) (held : List Addr) (inserted : Inserts) : Prop where
  made : st.made = inserted.length
  entry : ∀ a e, st.heap a = some e → ∃ k v, inserted[a]? = some (k, v, e.charge) ∧ e.Is hashSlice k v
  referenced : ∀ a e, st.heap a = some e → e.inCache = true ∨ a ∈ held
  deleted : ∃ gone : List Addr, gone.Nodup ∧ (∀ a, a ∈ gone ↔ a < inserted.length ∧ st.heap a = none) ∧
    List.Forall₂ (Deletes inserted) st.deleted gone

section Entries

variable {own : UInt32 → Prop} {out : Option Addr} {st st' : Store} {held held' : List Addr}
  {last : Bytes → Option UInt64} {c c' : LRUCache} {a : Addr} {e : LRUHandle} {inserted : Inserts}

theorem Store.set_heap (st : Store) (a : Addr) (e : LRUHandle) (b : Addr) :
    (st.set a e).heap b = if b = a then some e else st.heap b :=
  update_apply ..

theorem Store.free_heap (st : Store) (a : Addr) (e : LRUHandle) (b : Addr) :
    (st.free a e).heap b = if b = a then none else st.heap b :=
  update_apply ..

theorem Accounted.lt_length (h : Accounted st held inserted) (he : st.heap a = some e) : a < inserted.length := by
  obtain ⟨k, v, hget, -⟩ := h.entry a e he
  exact (List.getElem?_eq_some_iff.1 hget).1

theorem Accounted.set (h : Accounted st held inserted) (he : st.heap a = some e) {refs : UInt32} {inCache : Bool}
    (href : inCache = true ∨ a ∈ held') (hheld : ∀ b, b ≠ a → b ∈ held → b ∈ held') :
    Accounted (st.set a { e with refs := refs, inCache := inCache }) held' inserted where
  made := h.made
  entry b e' he' := by
    rw [Store.set_heap] at he'
    split at he'
    · next hb =>
      cases he'
      obtain ⟨k, v, hget, his⟩ := h.entry a e he
      exact ⟨k, v, hb ▸ hget, his.key, his.hash, his.value⟩
    · exact h.entry b e' he'
  referenced b e' he' := by
    rw [Store.set_heap] at he'
    split at he'
    · next hb =>
      cases he'
      exact hb ▸ href
    · next hb => exact (h.referenced b e' he').imp_right (hheld b hb)
  deleted := by
    obtain ⟨gone, hnodup, hmem, hcalls⟩ := h.deleted
    refine ⟨gone, hnodup, fun b => (hmem b).trans (and_congr_right fun _ => ?_), hcalls⟩
    rw [Store.set_heap]
    split
    · next hb => exact iff_of_false (by simp [hb, he]) (by simp)
    · exact Iff.rfl

theorem Accounted.free (h : Accounted st held inserted) (he : st.heap a = some e)
    (hheld : ∀ b, b ≠ a → b ∈ held → b ∈ held') : Accounted (st.free a e) held' inserted where
  made := h.made
  entry b e' he' := by
    rw [Store.free_heap] at he'
    split at he'
    · cases he'
    · exact h.entry b e' he'
  referenced b e' he' := by
    rw [Store.free_heap] at he'
    split at he'
    · cases he'
    · next hb => exact (h.referenced b e' he').imp_right (hheld b hb)
  deleted := by
    obtain ⟨gone, hnodup, hmem, hcalls⟩ := h.deleted
    obtain ⟨k, v, hget, his⟩ := h.entry a e he
    have hnot : a ∉ gone := by
      intro hin
      rw [((hmem a).1 hin).2] at he
      cases he
    refine ⟨gone ++ [a], nodup_append_singleton hnodup hnot, fun b => ?_, ?_⟩
    · rw [mem_append, mem_singleton, hmem, Store.free_heap]
      split
      · next hb => exact iff_of_true (Or.inr hb) ⟨hb ▸ h.lt_length he, rfl⟩
      · next hb => exact or_iff_left hb
    · exact rel_append hcalls (.cons ⟨k, v, e.charge, hget, his.key, his.value⟩ .nil)

theorem Accounted.add (h : Accounted st held inserted) {k : Bytes} {v : UInt64} (his : e.Is hashSlice k v)
    {refs : UInt32} {inCache : Bool} :
    Accounted (Store.set { st with made := st.made + 1 } st.made { e with refs := refs, inCache := inCache })
      (st.made :: held) (inserted ++ [(k, v, e.charge)]) where
  made := by simp [Store.set, h.made]
  entry b e' he' := by
    rw [Store.set_heap] at he'
    split at he'
    · next hb =>
      cases he'
      exact ⟨k, v, by simp [hb, h.made], his.key, his.hash, his.value⟩
    · obtain ⟨k', v', hget, his'⟩ := h.entry b e' he'
      exact ⟨k', v', getElem?_concat_of_some hget _, his'⟩
  referenced b e' he' := by
    rw [Store.set_heap] at he'
    split at he'
    · next hb => exact Or.inr (hb ▸ mem_cons_self)
    · exact (h.referenced b e' he').imp_right (mem_cons_of_mem _)
  deleted := by
    obtain ⟨gone, hnodup, hmem, hcalls⟩ := h.deleted
    refine ⟨gone, hnodup, fun b => ?_, hcalls.imp ?_⟩
    · rw [hmem, Store.set_heap, length_append, length_singleton, ← h.made]
      split
      · next hb => exact iff_of_false (fun hlt => absurd hb (ne_of_lt hlt.1)) (by simp)
      · next hb =>
        exact and_congr_left fun _ => ⟨Nat.lt_succ_of_lt, fun hlt => lt_of_le_of_ne (Nat.le_of_lt_succ hlt) hb⟩
    · rintro call b ⟨k', v', charge, hget, hcall⟩
      exact ⟨k', v', charge, getElem?_concat_of_some hget _, hcall⟩

/-! ### What the functions do -/

theorem sub_one_eq_zero_iff {n : UInt32} : n - 1 = 0 ↔ n = 1 := by
  rw [UInt32.sub_eq_iff_eq_add, UInt32.zero_add]

theorem unref_cases (h : c.unref st a = some (st', c')) :
    ∃ e, st.heap a = some e ∧ e.refs ≠ 0 ∧ c'.table = c.table ∧ c'.usage = c.usage ∧ c'.capacity = c.capacity ∧
      ((e.refs = 1 ∧ st' = st.free a e ∧ c' = c) ∨
        (e.refs ≠ 1 ∧ (∃ refs, st' = st.set a { e with refs := refs }) ∧
          (c' = c ∨ c'.lru = c.lru.erase a ++ [a]))) := by
  obtain ⟨e, he, h⟩ := bind_eq_some_iff.1 h
  refine ⟨e, he, ?_⟩
  split at h
  · cases h
  · next hne =>
    refine ⟨hne, ?_⟩
    dsimp only at h
    split at h
    · next hzero =>
      split at h
      · cases h
      · cases h
        exact ⟨rfl, rfl, rfl, Or.inl ⟨sub_one_eq_zero_iff.1 hzero, rfl, rfl⟩⟩
    · next hzero =>
      have hone : e.refs ≠ 1 := fun hone => hzero (sub_one_eq_zero_iff.2 hone)
      split at h
      · cases h
        exact ⟨rfl, rfl, rfl, Or.inr ⟨hone, ⟨_, rfl⟩, Or.inr rfl⟩⟩
      · cases h
        exact ⟨rfl, rfl, rfl, Or.inr ⟨hone, ⟨_, rfl⟩, Or.inl rfl⟩⟩

theorem ref_cases (h : c.ref st a = some (st', c')) :
    ∃ e, st.heap a = some e ∧ (∃ refs, st' = st.set a { e with refs := refs }) ∧ c'.table = c.table ∧
      c'.usage = c.usage ∧ c'.capacity = c.capacity ∧ (c'.lru = c.lru ∨ c'.lru = c.lru.erase a) := by
  obtain ⟨e, he, h⟩ := bind_eq_some_iff.1 h
  cases h
  refine ⟨e, he, ⟨_, rfl⟩, ?_⟩
  split
  · exact ⟨rfl, rfl, rfl, Or.inr rfl⟩
  · exact ⟨rfl, rfl, rfl, Or.inl rfl⟩

theorem LRUCache.Ok.lt_length (h : c.Ok own out st held last) (hacc : Accounted st held inserted) {b : Addr}
    (hb : c.Keeps out b) : b < inserted.length := by
  obtain ⟨e, he, -⟩ := (h.keeps_iff b).1 hb
  exact hacc.lt_length he

theorem finishErase_ledger (hheap : HeapOk st held) (h : c.Ok own out st held last)
    (hacc : Accounted st held inserted) (hcharged : c.Charged out inserted)
    (heq : c.finishErase st out = some (st', c')) :
    Accounted st' held inserted ∧ c'.Charged none inserted := by
  cases out with
  | none =>
    cases heq
    exact ⟨hacc, hcharged⟩
  | some a =>
    obtain ⟨e, he, heq⟩ := bind_eq_some_iff.1 heq
    obtain ⟨e', he', hin, -⟩ := (h.keeps_iff a).1 (Or.inr rfl)
    obtain rfl := some.inj (he.symm.trans he')
    rw [if_pos hin] at heq
    have hrefs : e.refs.toNat = held.count a + 1 := by
      rw [hheap.counted a e he, hin, Nat.add_comm]
      rfl
    have hget : (st.set a { e with inCache := false }).heap a = some { e with inCache := false } := by
      simp [Store.set]
    obtain ⟨e₁, he₁, -, htable, husage, -, hcases⟩ := unref_cases heq
    obtain rfl := some.inj (hget.symm.trans he₁)
    obtain ⟨k, v, hinsert, -⟩ := hacc.entry a e he
    have hcharge : e.charge.toNat = chargeAt inserted a := (chargeAt_of_some hinsert).symm
    refine ⟨?_, (hcharged.erase (h.notMem_of_out a rfl) hcharge).congr husage fun b => ?_⟩
    · rcases hcases with ⟨hone, rfl, -⟩ | ⟨hone, ⟨refs, rfl⟩, -⟩
      · -- whether the entry is marked before it is freed makes no difference
        have hfree : (st.set a { e with inCache := false }).free a { e with inCache := false } = st.free a e := by
          simp [Store.set, Store.free, LRUHandle.key, LRUHandle.value, LRUHandle.keyLength]
        rw [hfree]
        exact hacc.free he fun _ _ hb => hb
      · have hset : (st.set a { e with inCache := false }).set a { e with inCache := false, refs := refs } =
            st.set a { e with refs := refs, inCache := false } := by
          simp [Store.set]
        have hheld : a ∈ held := by
          by_contra hnot
          rw [count_eq_zero_of_not_mem hnot] at hrefs
          exact hone (UInt32.toNat_inj.1 hrefs)
        rw [hset]
        exact hacc.set he (Or.inr hheld) fun _ _ hb => hb
    · rw [LRUCache.Keeps, LRUCache.Keeps, htable]

theorem evict_ledger (hheap : HeapOk st held) (h : c.Ok own none st held last) (hacc : Accounted st held inserted)
    (hcharged : c.Charged none inserted) {old : Addr} (hmem : old ∈ c.lru) (heq : c.evict st old = some (st', c')) :
    Accounted st' held inserted ∧ c'.Charged none inserted := by
  obtain ⟨hkeeps, -⟩ := (h.mem_lru old).1 hmem
  obtain ⟨e, he, -⟩ := (h.keeps_iff old).1 hkeeps
  obtain ⟨k, v, his⟩ := hheap.is old e he
  obtain ⟨out, table, hremove, hok, hout, htable⟩ := remove_ok h his.key
  have hcharged' : LRUCache.Charged { c with table := table } out inserted := by
    refine hcharged.congr rfl fun b => ?_
    rw [hok.keeps_iff, h.keeps_iff]
  obtain ⟨e', he', heq⟩ := bind_eq_some_iff.1 heq
  obtain rfl := some.inj (he.symm.trans he')
  split at heq
  · obtain ⟨x, hremove', heq⟩ := bind_eq_some_iff.1 heq
    rw [his.hash] at hremove'
    obtain rfl := some.inj (hremove.symm.trans hremove')
    dsimp only at heq
    split at heq
    · exact finishErase_ledger hheap hok hacc hcharged' heq
    · cases heq
  · cases heq

theorem evictLoop_ledger {more : LRUCache → Bool} {fuel : ℕ} (hheap : HeapOk st held)
    (h : c.Ok own none st held last) (hacc : Accounted st held inserted) (hcharged : c.Charged none inserted)
    (heq : LRUCache.evictLoop more fuel c st = some (st', c')) :
    Accounted st' held inserted ∧ c'.Charged none inserted := by
  induction fuel generalizing c st with
  | zero => cases heq
  | succ fuel ih =>
    unfold LRUCache.evictLoop at heq
    split at heq
    · cases heq
      exact ⟨hacc, hcharged⟩
    · next old rest hlru =>
      split at heq
      · obtain ⟨st₁, c₁, hevict, hheap₁, hok₁, -⟩ := evict_spec hheap h hlru
        obtain ⟨hacc₁, hcharged₁⟩ := evict_ledger hheap h hacc hcharged (hlru ▸ mem_cons_self) hevict
        rw [hevict] at heq
        exact ih hheap₁ hok₁ hacc₁ hcharged₁ heq
      · cases heq
        exact ⟨hacc, hcharged⟩

theorem enter_ledger (hheap : HeapOk st held) (h : c.Ok own none st held last) (hacc : Accounted st held inserted)
    (hcharged : c.Charged none inserted) {k : Bytes} {v : UInt64} (his : e.Is hashSlice k v)
    (hin : e.inCache = false) (hrefs : e.refs = 1) (hown : own (hashSlice k))
    (helems : c.table.elems.toNat < 2 ^ 31) (hsum : totalCharge inserted + e.charge.toNat < 2 ^ 64) :
    ∃ st' c' last', c.enter { st with made := st.made + 1 } st.made e = some (st', c') ∧
      HeapOk st' (st.made :: held) ∧ c'.Ok own none st' (st.made :: held) last' ∧
      Accounted st' (st.made :: held) (inserted ++ [(k, v, e.charge)]) ∧
      c'.Charged none (inserted ++ [(k, v, e.charge)]) ∧ c'.capacity = c.capacity := by
  rw [LRUCache.enter]
  split
  · obtain ⟨old, table, hinsert, hheap₁, hok₁, hfirst, hold, hmem, -⟩ := entered_spec hheap his hrefs hown h helems
    obtain ⟨st', c', hfinish, hheap', hok', hwithin, -⟩ := finishErase_spec hheap₁ hok₁
    rw [hacc.made] at hmem
    have hcharged₁ := hcharged.entered (fun b hb => h.lt_length hacc (Or.inl hb)) (fun b hb => ((hold b).1 hb).1)
      hmem k v hsum
    obtain ⟨hacc', hcharged'⟩ := finishErase_ledger hheap₁ hok₁ (hacc.add his) hcharged₁ hfinish
    refine ⟨st', c', _, ?_, hheap', hok', hacc', hcharged', (hfirst.trans hwithin).capacity⟩
    rw [place_eq, hinsert]
    exact hfinish
  · have hfree : st.heap st.made = none := hheap.fresh _ le_rfl
    have hother : ∀ b, b ≠ st.made → (Store.set { st with made := st.made + 1 } st.made e).heap b = st.heap b :=
      fun b hb => by simp [Store.set, hb]
    have hget : (Store.set { st with made := st.made + 1 } st.made e).heap st.made = some e := by simp [Store.set]
    have hnew : ¬ c.Keeps none st.made := by
      intro hkeeps
      obtain ⟨e', he', -⟩ := (h.keeps_iff st.made).1 hkeeps
      rw [hfree] at he'
      cases he'
    have hnotheld : st.made ∉ held := by
      intro hheld
      obtain ⟨e', he'⟩ := hheap.live st.made hheld
      rw [hfree] at he'
      cases he'
    refine ⟨_, c, last, rfl, ?_, ?_, ?_, hcharged.concat (fun b hb => h.lt_length hacc hb) _, rfl⟩
    · refine hheap.of_update hother (fun b hb => count_cons_of_ne (Ne.symm hb)) (Nat.le_succ _)
        (Nat.lt_succ_self _) (fun e' he' => ?_) fun _ => ⟨e, hget⟩
      obtain rfl := some.inj (hget.symm.trans he')
      refine ⟨?_, k, v, his⟩
      rw [count_cons_self, count_eq_zero_of_not_mem hnotheld, hrefs, hin]
      rfl
    · refine h.of_update hother (fun b hb => ?_) rfl (fun _ _ => Iff.rfl) (fun hmem => absurd (Or.inl hmem) hnew)
        ⟨h.lru_nodup, fun _ _ => Iff.rfl⟩ ⟨h.inUse_nodup, fun _ _ => Iff.rfl⟩ ?_ ?_ ?_ fun hout => by cases hout
      · rw [mem_cons, or_iff_right hb]
      · exact iff_of_false (fun hmem => hnew ((h.mem_lru _).1 hmem).1) fun hand => hnew hand.1
      · exact iff_of_false (fun hmem => hnew ((h.mem_inUse _).1 hmem).1) fun hand => hnew hand.1
      · refine iff_of_false hnew ?_
        rintro ⟨e', he', hin', -⟩
        obtain rfl := some.inj (hget.symm.trans he')
        rw [hin] at hin'
        cases hin'
    · have hself : e = { e with refs := e.refs, inCache := e.inCache } := rfl
      rw [hself]
      exact hacc.add his

end Entries

/-! ### Runs -/

structure ShardSystem.Sound (capacity : UInt64) (s : ShardSystem) : Prop where
  heap : HeapOk s.store s.held
  cache : ∃ last, s.cache.Ok (fun _ => True) none s.store s.held last
  accounted : Accounted s.store s.held s.inserted
  charged : s.cache.Charged none s.inserted
  capacity_eq : s.cache.capacity = capacity

section Runs

variable {capacity : UInt64} {junk : Mem} {s : ShardSystem}

theorem ShardSystem.sound_new : (ShardSystem.new capacity junk).Sound capacity where
  heap := heapOk_new junk
  cache := ⟨_, LRUCache.ok_new capacity junk⟩
  accounted := ⟨rfl, fun a e he => (by cases he), fun a e he => (by cases he), [], nodup_nil,
    fun a => iff_of_false not_mem_nil fun h => absurd h.1 (Nat.not_lt_zero a), .nil⟩
  charged := rfl
  capacity_eq := rfl

theorem ShardSystem.Sound.insert_parts (h : s.Sound capacity) {k : Bytes} (v : UInt64) {charge : UInt64}
    (hne : k ≠ []) (hlen : k.length ≤ 8) (hsum : totalCharge s.inserted + charge.toNat < 2 ^ 64)
    (helems : s.cache.table.elems.toNat < 2 ^ 31) :
    ∃ e last st₁ c₁ st' c', e.Is hashSlice k v ∧ e.refs = 1 ∧ e.charge = charge ∧
      s.cache.enter { s.store with made := s.store.made + 1 } s.store.made e = some (st₁, c₁) ∧
      HeapOk st₁ (s.store.made :: s.held) ∧ c₁.Ok (fun _ => True) none st₁ (s.store.made :: s.held) last ∧
      Accounted st₁ (s.store.made :: s.held) (s.inserted ++ [(k, v, charge)]) ∧
      c₁.Charged none (s.inserted ++ [(k, v, charge)]) ∧ c₁.capacity = capacity ∧
      LRUCache.evictLoop (fun c => c.capacity < c.usage) (c₁.lru.length + 1) c₁ st₁ = some (st', c') ∧
      s.step (.insert k v charge) = some
        { s with
          store := st'
          cache := c'
          held := s.store.made :: s.held
          inserted := s.inserted ++ [(k, v, charge)] } := by
  obtain ⟨last, hok⟩ := h.cache
  obtain ⟨e, hnew, his, hin, hrefs, rfl⟩ :=
    (intact_of_length_le hashSlice s.store.junk v (length_pos_iff.2 hne) hlen).newHandle charge
  obtain ⟨st₁, c₁, last₁, henter, hheap₁, hok₁, hacc₁, hcharged₁, hcapacity⟩ :=
    enter_ledger h.heap hok h.accounted h.charged his hin hrefs trivial helems hsum
  obtain ⟨st', c', hloop, -⟩ :=
    evictLoop_spec (fun c => c.capacity < c.usage) (Nat.lt_succ_self _) hheap₁ hok₁
  refine ⟨e, last₁, st₁, c₁, st', c', his, hrefs, rfl, henter, hheap₁, hok₁, hacc₁, hcharged₁,
    hcapacity.trans h.capacity_eq, hloop, ?_⟩
  rw [ShardSystem.step, LRUCache.insert, hnew, bind_eq_bind, bind_some, henter, bind_eq_bind,
    bind_some]
  dsimp only
  rw [hloop]
  rfl

theorem ShardSystem.Sound.insert (h : s.Sound capacity) {k : Bytes} (v : UInt64) {charge : UInt64}
    (hne : k ≠ []) (hlen : k.length ≤ 8) (hsum : totalCharge s.inserted + charge.toNat < 2 ^ 64)
    (helems : s.cache.table.elems.toNat < 2 ^ 31) :
    ∃ s', s.step (.insert k v charge) = some s' ∧ s'.Sound capacity := by
  obtain ⟨e, last, st₁, c₁, st', c', -, -, -, -, hheap₁, hok₁, hacc₁, hcharged₁, hcapacity, hloop, hstep⟩ :=
    h.insert_parts v hne hlen hsum helems
  obtain ⟨st'', c'', hloop', hheap', hok', hwithin, -⟩ :=
    evictLoop_spec (fun c => c.capacity < c.usage) (Nat.lt_succ_self _) hheap₁ hok₁
  obtain ⟨rfl, rfl⟩ := Prod.mk.inj (some.inj (hloop.symm.trans hloop'))
  obtain ⟨hacc', hcharged'⟩ := evictLoop_ledger hheap₁ hok₁ hacc₁ hcharged₁ hloop
  exact ⟨_, hstep, hheap', ⟨last, hok'⟩, hacc', hcharged', hwithin.capacity.trans hcapacity⟩

theorem ShardSystem.Sound.lookup (h : s.Sound capacity) (k : Bytes)
    (hheld : ∀ a ∈ s.held, s.held.count a + 2 < 2 ^ 32) :
    ∃ s', s.step (.lookup k) = some s' ∧ s'.Sound capacity := by
  obtain ⟨last, hok⟩ := h.cache
  obtain ⟨r, hlookup, hr, -⟩ := lookup_spec h.heap hok k
  rw [ShardSystem.step, LRUCache.lookup, hlookup, bind_eq_bind, bind_some]
  cases hra : r with
  | none => exact ⟨_, rfl, h.heap, h.cache, h.accounted, h.charged, h.capacity_eq⟩
  | some a =>
    have hmem := ((hr a).1 hra).1
    have hcount : s.held.count a + 2 < 2 ^ 32 := by
      by_cases ha : a ∈ s.held
      · exact hheld a ha
      · rw [count_eq_zero_of_not_mem ha]
        norm_num
    obtain ⟨st', c', href, hheap', hok', -⟩ := ref_spec h.heap hok hmem hcount
    obtain ⟨e, he, ⟨refs, rfl⟩, htable, husage, hcapacity, -⟩ := ref_cases href
    dsimp only
    rw [href]
    refine ⟨_, rfl, hheap', ⟨last, hok'⟩, ?_, h.charged.congr husage fun b => ?_, hcapacity.trans h.capacity_eq⟩
    · exact h.accounted.set he (Or.inr mem_cons_self) fun b _ hb => mem_cons_of_mem a hb
    · rw [LRUCache.Keeps, LRUCache.Keeps, htable]

theorem ShardSystem.Sound.release (h : s.Sound capacity) {a : Addr} (ha : a ∈ s.held) :
    ∃ s', s.step (.release a) = some s' ∧ s'.Sound capacity := by
  obtain ⟨last, hok⟩ := h.cache
  obtain ⟨e, he⟩ := h.heap.live a ha
  obtain ⟨st', c', hunref, hheap', hok', -⟩ := unref_spec h.heap hok ha he trivial
  obtain ⟨e', he', hzero, htable, husage, hcapacity, hcases⟩ := unref_cases hunref
  obtain rfl := some.inj (he.symm.trans he')
  have hother : ∀ b, b ≠ a → b ∈ s.held → b ∈ s.held.erase a := fun b hb hmem =>
    (mem_erase_of_ne hb).2 hmem
  refine ⟨_, congrArg (Option.map _) hunref, hheap', ⟨last, hok'⟩, ?_, h.charged.congr husage fun b => ?_,
    hcapacity.trans h.capacity_eq⟩
  · rcases hcases with ⟨-, rfl, -⟩ | ⟨hone, ⟨refs, rfl⟩, -⟩
    · exact h.accounted.free he hother
    · refine h.accounted.set he ?_ hother
      -- an entry out of the cache has as many references as handles
      cases hin : e.inCache with
      | true => exact Or.inl rfl
      | false =>
        have hcount := h.heap.counted a e he
        rw [hin, Bool.toNat_false, Nat.zero_add] at hcount
        have h0 : e.refs.toNat ≠ 0 := fun h0 => hzero (UInt32.toNat_inj.1 h0)
        have h1 : e.refs.toNat ≠ 1 := fun h1 => hone (UInt32.toNat_inj.1 h1)
        refine Or.inr (count_pos_iff.1 ?_)
        rw [count_erase_self]
        omega
  · rw [LRUCache.Keeps, LRUCache.Keeps, htable]

theorem ShardSystem.Sound.erase (h : s.Sound capacity) (k : Bytes) :
    ∃ s', s.step (.erase k) = some s' ∧ s'.Sound capacity := by
  obtain ⟨last, hok⟩ := h.cache
  obtain ⟨old, table, hremove, hok₁, -, -⟩ := remove_ok hok (Slice.of_denotes k)
  obtain ⟨st', c', hfinish, hheap', hok', hwithin, -⟩ := finishErase_spec h.heap hok₁
  have hcharged₁ : LRUCache.Charged { s.cache with table := table } old s.inserted := by
    refine h.charged.congr rfl fun b => ?_
    rw [hok₁.keeps_iff, hok.keeps_iff]
  obtain ⟨hacc', hcharged'⟩ := finishErase_ledger h.heap hok₁ h.accounted hcharged₁ hfinish
  refine ⟨{ s with store := st', cache := c' }, ?_, hheap', ⟨last, hok'⟩, hacc', hcharged',
    hwithin.capacity.trans h.capacity_eq⟩
  rw [ShardSystem.step, LRUCache.erase, hremove, bind_eq_bind, bind_some]
  exact congrArg (Option.map _ ·) hfinish

theorem ShardSystem.Sound.prune (h : s.Sound capacity) : ∃ s', s.step .prune = some s' ∧ s'.Sound capacity := by
  obtain ⟨last, hok⟩ := h.cache
  obtain ⟨st', c', hloop, hheap', hok', hwithin, -⟩ :=
    evictLoop_spec (fun _ => true) (Nat.lt_succ_self _) h.heap hok
  obtain ⟨hacc', hcharged'⟩ := evictLoop_ledger h.heap hok h.accounted h.charged hloop
  exact ⟨{ s with store := st', cache := c' }, congrArg (Option.map _) hloop, hheap', ⟨last, hok'⟩, hacc', hcharged',
    hwithin.capacity.trans h.capacity_eq⟩

theorem ShardSystem.Sound.step {P : Bytes → Prop} (hP : ∀ k, P k → k ≠ []) (h : s.Sound capacity) {e : CacheEvent}
    (hlegal : ShardLegal P s e) : ∃ s', s.step e = some s' ∧ s'.Sound capacity := by
  cases e with
  | insert k v charge =>
    obtain ⟨hlen, hk, hsum, helems⟩ := hlegal
    exact h.insert v (hP k hk) hlen hsum helems
  | lookup k => exact h.lookup k hlegal
  | release a => exact h.release hlegal
  | erase k => exact h.erase k
  | prune => exact h.prune

theorem ShardSystem.Sound.run {P : Bytes → Prop} (hP : ∀ k, P k → k ≠ []) (h : s.Sound capacity)
    {es : List CacheEvent} (hlegal : Lts.Along ShardSystem.step (ShardLegal P) s es) :
    ∃ s', Lts.run ShardSystem.step s es = some s' ∧ s'.Sound capacity :=
  Lts.exists_run (fun _ _ h => h.step hP) h hlegal

theorem ShardSystem.Sound.lifetimeRight (h : s.Sound capacity) : s.LifetimeRight := by
  obtain ⟨last, hok⟩ := h.cache
  have hkeeps : ∀ a, s.cache.Keeps none a ↔ a ∈ s.cache.table.addrs := fun a => or_iff_left (by simp)
  have hcached : ∀ a, a ∈ s.cache.table.addrs ↔ ∃ e, s.store.heap a = some e ∧ e.inCache = true := fun a => by
    rw [← hkeeps, hok.keeps_iff]
    simp
  have hfreed : ∀ a, s.store.heap a = none ↔ a ∉ s.cache.table.addrs ∧ a ∉ s.held := by
    intro a
    constructor
    · intro hnone
      refine ⟨fun hin => ?_, fun hin => ?_⟩
      · obtain ⟨e, he, -⟩ := (hcached a).1 hin
        rw [hnone] at he
        cases he
      · obtain ⟨e, he⟩ := h.heap.live a hin
        rw [hnone] at he
        cases he
    · rintro ⟨htable, hheld⟩
      -- an entry in the heap would be in the cache or held
      by_contra hsome
      obtain ⟨e, he⟩ := ne_none_iff_exists'.1 hsome
      rcases h.accounted.referenced a e he with hin | hin
      · exact htable ((hcached a).2 ⟨e, he, hin⟩)
      · exact hheld hin
  obtain ⟨gone, hnodup, hmem, hcalls⟩ := h.accounted.deleted
  refine ⟨fun a _ => hfreed a, ⟨gone, hnodup, fun a => (hmem a).trans (and_congr_right fun _ => hfreed a), hcalls⟩,
    hcached, hok.table.nodup, ⟨hok.lru_nodup, fun a => ?_⟩, ⟨hok.inUse_nodup, fun a => ?_⟩, ?_⟩
  · rw [hok.mem_lru, hkeeps]
  · rw [hok.mem_inUse, hkeeps]
  · have hkept : s.cache.kept none = s.cache.table.addrs.toFinset := by simp [LRUCache.kept]
    rw [← hkept]
    exact h.charged

theorem lifetimes_right_iff (capacity : UInt64) (junk : Mem) (P : Bytes → Prop) :
    (∀ es, Lts.Along ShardSystem.step (ShardLegal P) (.new capacity junk) es →
      ∃ s, Lts.run ShardSystem.step (.new capacity junk) es = some s ∧ s.LifetimeRight) ↔ ∀ k, P k → k ≠ [] := by
  constructor
  · rintro hall k hk rfl
    have hlegal : Lts.Along ShardSystem.step (ShardLegal P) (.new capacity junk) [.insert [] 0 0] :=
      ⟨⟨Nat.zero_le 8, hk, show 0 + (0 : UInt64).toNat < 2 ^ 64 by decide,
        show (0 : UInt32).toNat < 2 ^ 31 by decide⟩, fun _ _ => trivial⟩
    obtain ⟨s, hrun, -⟩ := hall _ hlegal
    cases hrun
  · intro hP es hlegal
    obtain ⟨s, hrun, hs⟩ := ShardSystem.sound_new.run hP hlegal
    exact ⟨s, hrun, hs.lifetimeRight⟩

theorem empty_key_not_inserted :
    ¬ ∃ s, Lts.run ShardSystem.step (.new 100 fun _ => 0) [.insert [] 7 1] = some s ∧ s.LifetimeRight := by
  rintro ⟨s, hrun, -⟩
  cases hrun

end Runs

end ComponentsW
