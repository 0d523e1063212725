/-
**What a shard of the LRU cache keeps.**

`HeapOk` says that the records read back a key and a value and that the references are counted right;
`LRUCache.Ok` says how the table, the lists and the latest values go together.
-/

import BackendProgramming.LruCache

set_option autoImplicit false

namespace ComponentsW

open CText ByteMem Function List Option

/-! ### The invariant -/

structure HeapOk (st : Store) (held : List Addr) : Prop where
  fresh : ∀ a, st.made ≤ a → st.heap a = none
  counted : ∀ a e, st.heap a = some e → e.refs.toNat = e.inCache.toNat + held.count a
  live : ∀ a ∈ held, ∃ e, st.heap a = some e
  is : ∀ a e, st.heap a = some e → ∃ k v, e.Is hashSlice k v

def LRUCache.Keeps (c : LRUCache) (out : Option Addr) (a : Addr) : Prop := a ∈ c.table.addrs ∨ out = some a

structure LRUCache.Ok (own : UInt32 → Prop) (out : Option Addr) (st : Store) (held : List Addr)
    (last : Bytes → Option UInt64) (c : LRUCache) : Prop where
  table : c.table.Ok hashSlice st.heap
  notMem_of_out : ∀ a, out = some a → a ∉ c.table.addrs
  lru_nodup : c.lru.Nodup
  inUse_nodup : c.inUse.Nodup
  mem_lru : ∀ a, a ∈ c.lru ↔ c.Keeps out a ∧ a ∉ held
  mem_inUse : ∀ a, a ∈ c.inUse ↔ c.Keeps out a ∧ a ∈ held
  keeps_iff : ∀ a, c.Keeps out a ↔ ∃ e, st.heap a = some e ∧ e.inCache = true ∧ own e.hash
  latest : ∀ a ∈ c.table.addrs, ∀ e k v, st.heap a = some e → e.Is hashSlice k v → last k = some v

structure Within (own : UInt32 → Prop) (st : Store) (c : LRUCache) (st' : Store) (c' : LRUCache) : Prop where
  elsewhere : ∀ a e, ¬ own e.hash → (st'.heap a = some e ↔ st.heap a = some e)
  junk : st'.junk = st.junk
  capacity : c'.capacity = c.capacity

def Kept (held : List Addr) (st st' : Store) : Prop := ∀ a ∈ held, SameRecord (st.heap a) (st'.heap a)

section Shard

variable {own : UInt32 → Prop} {out : Option Addr} {st st' st'' : Store} {held held' : List Addr}
  {last : Bytes → Option UInt64} {c c' c'' : LRUCache} {a : Addr} {e e' : LRUHandle}

theorem heapOk_new (junk : Mem) : HeapOk { junk := junk } [] :=
  ⟨fun _ _ => rfl, fun a e he => (by cases he), fun a ha => (by cases ha), fun a e he => (by cases he)⟩

theorem LRUCache.ok_new (capacity : UInt64) (junk : Mem) :
    LRUCache.Ok own none { junk := junk } [] (fun _ => none) { capacity := capacity } := by
  have htable : HandleTable.Ok hashSlice (fun _ => none) {} :=
    ⟨rfl, by decide, Chains.placed_replicate_nil _ 4, by decide, rfl, fun a ha => (by cases ha),
      fun a ha => (by cases ha)⟩
  have hkeeps : ∀ a, ¬ LRUCache.Keeps { capacity := capacity } none a := by
    rintro a (ha | ha)
    · cases ha
    · cases ha
  refine ⟨htable, fun a ha => (by cases ha), nodup_nil, nodup_nil, fun a => ?_, fun a => ?_, fun a => ?_,
    fun a ha => (by cases ha)⟩
  · exact iff_of_false (by rintro ⟨⟩) fun ha => hkeeps a ha.1
  · exact iff_of_false (by rintro ⟨⟩) fun ha => hkeeps a ha.1
  · exact iff_of_false (hkeeps a) (by rintro ⟨e, he, -⟩; cases he)

theorem Within.refl : Within own st c st c := ⟨fun _ _ _ => Iff.rfl, rfl, rfl⟩

theorem Within.trans (h : Within own st c st' c') (h' : Within own st' c' st'' c'') : Within own st c st'' c'' where
  elsewhere a e he := (h'.elsewhere a e he).trans (h.elsewhere a e he)
  junk := h'.junk.trans h.junk
  capacity := h'.capacity.trans h.capacity

theorem Within.of_update (hheap : ∀ b, b ≠ a → st'.heap b = st.heap b)
    (hold : ∀ e, st.heap a = some e → own e.hash) (hnew : ∀ e, st'.heap a = some e → own e.hash)
    (hjunk : st'.junk = st.junk) (hcapacity : c'.capacity = c.capacity) : Within own st c st' c' where
  elsewhere b e he := by
    by_cases hb : b = a
    · subst hb
      exact ⟨fun h => absurd (hnew e h) he, fun h => absurd (hold e h) he⟩
    · rw [hheap b hb]
  junk := hjunk
  capacity := hcapacity

theorem HeapOk.of_update (h : HeapOk st held) (hheap : ∀ b, b ≠ a → st'.heap b = st.heap b)
    (hheld : ∀ b, b ≠ a → held'.count b = held.count b) (hmade : st.made ≤ st'.made) (ha : a < st'.made)
    (hnew : ∀ e, st'.heap a = some e →
      e.refs.toNat = e.inCache.toNat + held'.count a ∧ ∃ k v, e.Is hashSlice k v)
    (hlive : a ∈ held' → ∃ e, st'.heap a = some e) : HeapOk st' held' where
  fresh b hb := by
    rw [hheap b (lt_of_lt_of_le ha hb).ne']
    exact h.fresh b (hmade.trans hb)
  counted b e he := by
    by_cases hb : b = a
    · subst hb
      exact (hnew e he).1
    · rw [hheap b hb] at he
      rw [hheld b hb]
      exact h.counted b e he
  live b hbmem := by
    by_cases hb : b = a
    · subst hb
      exact hlive hbmem
    · rw [hheap b hb]
      refine h.live b (count_pos_iff.1 ?_)
      rw [← hheld b hb]
      exact count_pos_iff.2 hbmem
  is b e he := by
    by_cases hb : b = a
    · subst hb
      exact (hnew e he).2
    · rw [hheap b hb] at he
      exact h.is b e he

theorem LRUCache.Ok.of_update {out' : Option Addr} (h : c.Ok own out st held last)
    (hheap : ∀ b, b ≠ a → st'.heap b = st.heap b) (hheld : ∀ b, b ≠ a → (b ∈ held' ↔ b ∈ held))
    (htable : c'.table = c.table) (hout : ∀ b, b ≠ a → (out' = some b ↔ out = some b))
    (hrec : a ∈ c.table.addrs → SameRecord (st.heap a) (st'.heap a))
    (hlru : c'.lru.Nodup ∧ ∀ b, b ≠ a → (b ∈ c'.lru ↔ b ∈ c.lru))
    (hinUse : c'.inUse.Nodup ∧ ∀ b, b ≠ a → (b ∈ c'.inUse ↔ b ∈ c.inUse))
    (halru : a ∈ c'.lru ↔ c'.Keeps out' a ∧ a ∉ held') (hainUse : a ∈ c'.inUse ↔ c'.Keeps out' a ∧ a ∈ held')
    (hakeeps : c'.Keeps out' a ↔ ∃ e, st'.heap a = some e ∧ e.inCache = true ∧ own e.hash)
    (haout : out' = some a → a ∉ c.table.addrs) : c'.Ok own out' st' held' last := by
  have hsame : ∀ b ∈ c.table.addrs, SameRecord (st.heap b) (st'.heap b) := by
    intro b hb
    by_cases hba : b = a
    · subst hba
      exact hrec hb
    · rw [hheap b hba]
      rfl
  have hkeeps : ∀ b, b ≠ a → (c'.Keeps out' b ↔ c.Keeps out b) := fun b hb => by
    rw [LRUCache.Keeps, LRUCache.Keeps, htable, hout b hb]
  refine ⟨htable ▸ h.table.of_heap hsame, ?_, hlru.1, hinUse.1, ?_, ?_, ?_, ?_⟩
  · intro b hb
    rw [htable]
    by_cases hba : b = a
    · exact hba ▸ haout (hba ▸ hb)
    · exact h.notMem_of_out b ((hout b hba).1 hb)
  · intro b
    by_cases hba : b = a
    · exact hba ▸ halru
    · rw [hlru.2 b hba, hkeeps b hba, hheld b hba]
      exact h.mem_lru b
  · intro b
    by_cases hba : b = a
    · exact hba ▸ hainUse
    · rw [hinUse.2 b hba, hkeeps b hba, hheld b hba]
      exact h.mem_inUse b
  · intro b
    by_cases hba : b = a
    · exact hba ▸ hakeeps
    · rw [hkeeps b hba, hheap b hba]
      exact h.keeps_iff b
  · intro b hb e' k v he' his
    rw [htable] at hb
    have hsame' := hsame b hb
    rw [he'] at hsame'
    obtain ⟨e, he, hkey, hhash, hvalue⟩ := SameRecord.exists hsame'.symm
    exact h.latest b hb e k v he ⟨hkey ▸ his.key, hhash.trans his.hash, hvalue.trans his.value⟩

/-! ### Erasing -/

theorem mem_lruRemove (h : c.Ok own out st held last) (b : Addr) :
    (b ∈ (c.lruRemove a).lru ↔ b ≠ a ∧ b ∈ c.lru) ∧ (b ∈ (c.lruRemove a).inUse ↔ b ≠ a ∧ b ∈ c.inUse) :=
  ⟨h.lru_nodup.mem_erase_iff, h.inUse_nodup.mem_erase_iff⟩

theorem nodup_append_singleton {l : List Addr} (h : l.Nodup) (ha : a ∉ l) : (l ++ [a]).Nodup := by
  rw [← concat_eq_append]
  exact h.concat ha

theorem toNat_sub_one {n : UInt32} (h : n ≠ 0) : (n - 1).toNat = n.toNat - 1 := by
  have hpos : n.toNat ≠ 0 := fun h0 => h (UInt32.toNat_inj.1 h0)
  have hle : (1 : UInt32) ≤ n := by
    rw [UInt32.le_iff_toNat_le]
    exact Nat.one_le_iff_ne_zero.2 hpos
  rw [UInt32.toNat_sub_of_le _ _ hle]
  rfl

theorem erased_ok (h : c.Ok own (some a) st held last) (hheap : ∀ b, b ≠ a → st'.heap b = st.heap b)
    (hnot : ∀ e, st'.heap a = some e → e.inCache = false) (usage : UInt64) :
    LRUCache.Ok own none st' held last { c.lruRemove a with usage := usage } := by
  have hmem := mem_lruRemove (a := a) h
  have hkeeps : ¬ LRUCache.Keeps { c.lruRemove a with usage := usage } none a := by
    rintro (ha | ha)
    · exact h.notMem_of_out a rfl ha
    · cases ha
  refine h.of_update hheap (fun b _ => Iff.rfl) rfl (fun b hb => by simp [Ne.symm hb])
    (fun ha => absurd ha (h.notMem_of_out a rfl))
    ⟨h.lru_nodup.erase a, fun b hb => by rw [(hmem b).1, and_iff_right hb]⟩
    ⟨h.inUse_nodup.erase a, fun b hb => by rw [(hmem b).2, and_iff_right hb]⟩ ?_ ?_ ?_ (fun hout => by cases hout)
  · exact iff_of_false (fun ha => ((hmem a).1.1 ha).1 rfl) fun ha => hkeeps ha.1
  · exact iff_of_false (fun ha => ((hmem a).2.1 ha).1 rfl) fun ha => hkeeps ha.1
  · refine iff_of_false hkeeps ?_
    rintro ⟨e, he, hin, -⟩
    rw [hnot e he] at hin
    cases hin

theorem HeapOk.lt_made (h : HeapOk st held) (he : st.heap a = some e) : a < st.made := by
  by_contra hge
  rw [h.fresh a (not_lt.1 hge)] at he
  cases he

structure Dropped (st : Store) (a : Addr) (e : LRUHandle) (n : ℕ) (st' : Store) : Prop where
  made : st'.made = st.made
  junk : st'.junk = st.junk
  other : ∀ b, b ≠ a → st'.heap b = st.heap b
  freed : n = 0 → st'.heap a = none
  kept : n ≠ 0 → ∃ refs, refs.toNat = n ∧ st'.heap a = some { e with refs := refs }

theorem unref_dropped (he : st.heap a = some e) (hin : e.inCache = false) {n : ℕ} (hrefs : e.refs.toNat = n + 1) :
    ∃ st', c.unref st a = some (st', c) ∧ Dropped st a e n st' := by
  have hne : e.refs ≠ 0 := fun h0 => by rw [h0] at hrefs; cases hrefs
  have hleft : (e.refs - 1).toNat = n := by
    rw [toNat_sub_one hne, hrefs]
    rfl
  rw [LRUCache.unref, he, bind_eq_bind, bind_some, if_neg hne]
  simp only [hin]
  split
  · next h0 =>
    have hn : n = 0 := by rw [← hleft, h0]; rfl
    exact ⟨_, rfl, rfl, rfl, fun b hb => by simp [Store.free, hb], fun _ => by simp [Store.free],
      fun h => absurd hn h⟩
  · next h0 =>
    have hn : n ≠ 0 := fun hn => h0 (UInt32.toNat_inj.1 (hleft.trans hn))
    exact ⟨_, if_neg (by simp), rfl, rfl, fun b hb => by simp [Store.set, hb], fun h => absurd h hn,
      fun _ => ⟨_, hleft, by simp [Store.set, hin]⟩⟩

theorem Dropped.exists_eq {n : ℕ} (h : Dropped st a e n st') (he' : st'.heap a = some e') :
    ∃ refs, refs.toNat = n ∧ e' = { e with refs := refs } := by
  by_cases hn : n = 0
  · rw [h.freed hn] at he'
    cases he'
  · obtain ⟨refs, hrefs, heq⟩ := h.kept hn
    exact ⟨refs, hrefs, some.inj (he'.symm.trans heq)⟩

theorem Dropped.heapOk (h : Dropped st'' a e (held'.count a) st') (hin : e.inCache = false)
    (hheap : HeapOk st held) (hother : ∀ b, b ≠ a → st''.heap b = st.heap b) (hmade : st''.made = st.made)
    (hheld : ∀ b, b ≠ a → held'.count b = held.count b) (hlt : a < st.made) {k : Bytes} {v : UInt64}
    (his : e.Is hashSlice k v) : HeapOk st' held' := by
  have hmade' : st'.made = st.made := h.made.trans hmade
  refine hheap.of_update (fun b hb => (h.other b hb).trans (hother b hb)) hheld hmade'.ge (hmade' ▸ hlt)
    (fun e' he' => ?_) fun ha => ?_
  · obtain ⟨refs, hrefs, rfl⟩ := h.exists_eq he'
    refine ⟨?_, k, v, his.key, his.hash, his.value⟩
    rw [hrefs, hin]
    simp
  · obtain ⟨refs, -, heq⟩ := h.kept (count_pos_iff.2 ha).ne'
    exact ⟨_, heq⟩

theorem finishErase_spec (hheap : HeapOk st held) (h : c.Ok own out st held last) :
    ∃ st' c', c.finishErase st out = some (st', c') ∧ HeapOk st' held ∧ c'.Ok own none st' held last ∧
      Within own st c st' c' ∧ Kept held st st' ∧ c'.table = c.table ∧
      ∀ a, out = some a → c'.lru = c.lru.erase a := by
  cases out with
  | none => exact ⟨st, c, rfl, hheap, h, .refl, fun _ _ => rfl, rfl, fun a ha => by cases ha⟩
  | some a =>
    obtain ⟨e, he, hin, hshard⟩ := (h.keeps_iff a).1 (Or.inr rfl)
    obtain ⟨k, v, his⟩ := hheap.is a e he
    have hrefs : e.refs.toNat = held.count a + 1 := by
      rw [hheap.counted a e he, hin, Nat.add_comm]
      rfl
    have hget : (st.set a { e with inCache := false }).heap a = some { e with inCache := false } := by
      simp [Store.set]
    obtain ⟨st', hunref, hdrop⟩ :=
      unref_dropped (c := { c.lruRemove a with usage := c.usage - e.charge }) hget rfl hrefs
    have hset : ∀ b, b ≠ a → (st.set a { e with inCache := false }).heap b = st.heap b := fun b hb => by
      simp [Store.set, hb]
    have hother : ∀ b, b ≠ a → st'.heap b = st.heap b := fun b hb => (hdrop.other b hb).trans (hset b hb)
    refine ⟨st', { c.lruRemove a with usage := c.usage - e.charge }, ?_, ?_, erased_ok h hother ?_ _,
      .of_update hother ?_ ?_ hdrop.junk rfl, ?_, rfl, ?_⟩
    · rw [LRUCache.finishErase, he, bind_eq_bind, bind_some, if_pos hin]
      exact hunref
    · exact hdrop.heapOk rfl hheap hset rfl (fun _ _ => rfl) (hheap.lt_made he) ⟨his.key, his.hash, his.value⟩
    · intro e' he'
      obtain ⟨refs, -, rfl⟩ := hdrop.exists_eq he'
      rfl
    · intro e' he'
      exact some.inj (he.symm.trans he') ▸ hshard
    · intro e' he'
      obtain ⟨refs, -, rfl⟩ := hdrop.exists_eq he'
      exact hshard
    · intro b hb
      by_cases hba : b = a
      · subst hba
        obtain ⟨refs, -, heq⟩ := hdrop.kept (count_pos_iff.2 hb).ne'
        rw [he, heq]
        rfl
      · rw [hother b hba]
        rfl
    · intro b hb
      cases hb
      rfl

theorem remove_ok (h : c.Ok own none st held last) {key : Slice} {k : Bytes} (hkey : key.Denotes k) :
    ∃ old table, c.table.remove st.heap key (hashSlice k) = some (old, table) ∧
      LRUCache.Ok own old st held last { c with table := table } ∧
      (∀ b, old = some b ↔ b ∈ c.table.addrs ∧ HasKey hashSlice st.heap b k) ∧
      ∀ b, b ∈ table.addrs ↔ b ∈ c.table.addrs ∧ old ≠ some b := by
  obtain ⟨old, table, hremove, htable, hold, hmem⟩ := h.table.remove hkey
  have hkeeps : ∀ b, LRUCache.Keeps { c with table := table } old b ↔ c.Keeps none b := by
    intro b
    unfold LRUCache.Keeps
    rw [hmem b]
    constructor
    · rintro (hb | hb)
      · exact Or.inl hb.1
      · exact Or.inl ((hold b).1 hb).1
    · rintro (hb | hb)
      · by_cases hout : old = some b
        · exact Or.inr hout
        · exact Or.inl ⟨hb, hout⟩
      · cases hb
  refine ⟨old, table, hremove, ⟨htable, fun b hb hin => ((hmem b).1 hin).2 hb, h.lru_nodup, h.inUse_nodup,
    fun b => ?_, fun b => ?_, fun b => ?_, fun b hb => h.latest b ((hmem b).1 hb).1⟩, hold, hmem⟩
  · rw [hkeeps b]
    exact h.mem_lru b
  · rw [hkeeps b]
    exact h.mem_inUse b
  · rw [hkeeps b]
    exact h.keeps_iff b

theorem evict_spec (hheap : HeapOk st held) (h : c.Ok own none st held last) {old : Addr} {rest : List Addr}
    (hlru : c.lru = old :: rest) :
    ∃ st' c', c.evict st old = some (st', c') ∧ HeapOk st' held ∧ c'.Ok own none st' held last ∧
      Within own st c st' c' ∧ Kept held st st' ∧ c'.lru = rest ∧
      ∀ b, b ∈ c'.table.addrs ↔ b ∈ c.table.addrs ∧ b ≠ old := by
  obtain ⟨hkeeps, hheld⟩ := (h.mem_lru old).1 (hlru ▸ mem_cons_self)
  obtain ⟨e, he, hin, hshard⟩ := (h.keeps_iff old).1 hkeeps
  obtain ⟨k, v, his⟩ := hheap.is old e he
  have hrefs : e.refs = 1 := by
    have := hheap.counted old e he
    rw [hin, count_eq_zero_of_not_mem hheld] at this
    exact UInt32.toNat_inj.1 this
  have hmem : old ∈ c.table.addrs := hkeeps.resolve_right (by simp)
  obtain ⟨out, table, hremove, hok, hout, htable⟩ := remove_ok h his.key
  have hsame : out = some old := (hout old).2 ⟨hmem, e, he, his.key, his.hash⟩
  subst hsame
  obtain ⟨st', c', hfinish, hheap', hok', hwithin, hkept, htable', hlru'⟩ := finishErase_spec hheap hok
  refine ⟨st', c', ?_, hheap', hok', ⟨hwithin.elsewhere, hwithin.junk, hwithin.capacity⟩, hkept, ?_, ?_⟩
  · rw [LRUCache.evict, he, bind_eq_bind, bind_some, if_pos hrefs, his.hash, hremove]
    exact hfinish
  · rw [hlru' old rfl]
    simp [hlru]
  · intro b
    rw [htable', htable]
    exact and_congr_right fun _ => not_congr (by simp [eq_comm])

theorem evictLoop_spec (more : LRUCache → Bool) {fuel : ℕ} (hfuel : c.lru.length < fuel) (hheap : HeapOk st held)
    (h : c.Ok own none st held last) :
    ∃ st' c', LRUCache.evictLoop more fuel c st = some (st', c') ∧ HeapOk st' held ∧
      c'.Ok own none st' held last ∧ Within own st c st' c' ∧ Kept held st st' ∧
      ∀ b ∈ held, b ∈ c.table.addrs → b ∈ c'.table.addrs := by
  induction fuel generalizing c st with
  | zero => exact absurd hfuel (Nat.not_lt_zero _)
  | succ fuel ih =>
    unfold LRUCache.evictLoop
    split
    · exact ⟨st, c, rfl, hheap, h, .refl, fun _ _ => rfl, fun _ _ hb => hb⟩
    · next old rest hlru =>
      split
      · obtain ⟨st₁, c₁, hevict, hheap₁, hok₁, hwithin₁, hkept₁, hlru₁, hmem₁⟩ := evict_spec hheap h hlru
        have hlen : c₁.lru.length < fuel := by
          rw [hlru, length_cons] at hfuel
          rw [hlru₁]
          omega
        obtain ⟨st', c', hloop, hheap', hok', hwithin', hkept', hmem'⟩ := ih hlen hheap₁ hok₁
        have hused : ∀ b ∈ held, b ≠ old := by
          rintro b hb rfl
          exact ((h.mem_lru b).1 (hlru ▸ mem_cons_self)).2 hb
        refine ⟨st', c', ?_, hheap', hok', hwithin₁.trans hwithin',
          fun b hb => (hkept₁ b hb).trans (hkept' b hb),
          fun b hb hin => hmem' b hb ((hmem₁ b).2 ⟨hin, hused b hb⟩)⟩
        rw [hevict]
        exact hloop
      · exact ⟨st, c, rfl, hheap, h, .refl, fun _ _ => rfl, fun _ _ hb => hb⟩

/-! ### Handles -/

structure Relisted (c : LRUCache) (a : Addr) (used : Prop) (c' : LRUCache) : Prop where
  table : c'.table = c.table
  capacity : c'.capacity = c.capacity
  lru_nodup : c'.lru.Nodup
  inUse_nodup : c'.inUse.Nodup
  lru : ∀ b, b ≠ a → (b ∈ c'.lru ↔ b ∈ c.lru)
  inUse : ∀ b, b ≠ a → (b ∈ c'.inUse ↔ b ∈ c.inUse)
  mem_lru : a ∈ c'.lru ↔ ¬ used
  mem_inUse : a ∈ c'.inUse ↔ used

theorem relisted_inUse (h : c.Ok own out st held last) {used : Prop} (hused : used) :
    Relisted c a used ((c.lruRemove a).appendInUse a) := by
  have hmem := mem_lruRemove (a := a) h
  have hnot : a ∉ (c.lruRemove a).inUse := fun hmem' => ((hmem a).2.1 hmem').1 rfl
  refine ⟨rfl, rfl, h.lru_nodup.erase a, nodup_append_singleton (h.inUse_nodup.erase a) hnot,
    fun b hb => (hmem b).1.trans (and_iff_right hb), fun b hb => ?_, ?_, ?_⟩
  · rw [LRUCache.appendInUse, mem_append, (hmem b).2, mem_singleton]
    simp [hb]
  · exact iff_of_false (fun hmem' => ((hmem a).1.1 hmem').1 rfl) (not_not.2 hused)
  · exact iff_of_true (mem_append_right _ (mem_singleton_self a)) hused

theorem relisted_lru (h : c.Ok own out st held last) {used : Prop} (hused : ¬ used) :
    Relisted c a used ((c.lruRemove a).appendLru a) := by
  have hmem := mem_lruRemove (a := a) h
  have hnot : a ∉ (c.lruRemove a).lru := fun hmem' => ((hmem a).1.1 hmem').1 rfl
  refine ⟨rfl, rfl, nodup_append_singleton (h.lru_nodup.erase a) hnot, h.inUse_nodup.erase a,
    fun b hb => ?_, fun b hb => (hmem b).2.trans (and_iff_right hb), ?_, ?_⟩
  · rw [LRUCache.appendLru, mem_append, (hmem b).1, mem_singleton]
    simp [hb]
  · exact iff_of_true (mem_append_right _ (mem_singleton_self a)) hused
  · exact iff_of_false (fun hmem' => ((hmem a).2.1 hmem').1 rfl) hused

theorem relisted_self (h : c.Ok own out st held last) (hkeeps : c.Keeps out a) {used : Prop}
    (hused : a ∈ held ↔ used) : Relisted c a used c :=
  ⟨rfl, rfl, h.lru_nodup, h.inUse_nodup, fun _ _ => Iff.rfl, fun _ _ => Iff.rfl,
    (h.mem_lru a).trans ((and_iff_right hkeeps).trans (not_congr hused)),
    (h.mem_inUse a).trans ((and_iff_right hkeeps).trans hused)⟩

theorem recount_spec (hheap : HeapOk st held) (h : c.Ok own none st held last) (he : st.heap a = some e)
    (hin : e.inCache = true) (hshard : own e.hash) {refs : UInt32}
    (hrefs : refs.toNat = 1 + held'.count a) (hheld : ∀ b, b ≠ a → held'.count b = held.count b)
    (hlists : Relisted c a (a ∈ held') c') :
    HeapOk (st.set a { e with refs := refs }) held' ∧
      c'.Ok own none (st.set a { e with refs := refs }) held' last ∧
      Within own st c (st.set a { e with refs := refs }) c' := by
  obtain ⟨k, v, his⟩ := hheap.is a e he
  have hother : ∀ b, b ≠ a → (st.set a { e with refs := refs }).heap b = st.heap b := fun b hb => by
    simp [Store.set, hb]
  have hget : (st.set a { e with refs := refs }).heap a = some { e with refs := refs } := by
    simp [Store.set]
  have hheld' : ∀ b, b ≠ a → (b ∈ held' ↔ b ∈ held) := fun b hb => by
    rw [← count_pos_iff, hheld b hb, count_pos_iff]
  have hkeeps : c'.Keeps none a :=
    ((h.keeps_iff a).2 ⟨e, he, hin, hshard⟩).imp_left fun hmem => hlists.table ▸ hmem
  refine ⟨?_, h.of_update hother hheld' hlists.table (fun _ _ => Iff.rfl) ?_ ⟨hlists.lru_nodup, hlists.lru⟩
    ⟨hlists.inUse_nodup, hlists.inUse⟩ ?_ ?_ ?_ ?_, .of_update hother ?_ ?_ rfl hlists.capacity⟩
  · refine hheap.of_update hother hheld le_rfl (hheap.lt_made he) (fun e' he' => ?_) fun _ => ⟨_, hget⟩
    obtain rfl := some.inj (hget.symm.trans he')
    refine ⟨?_, k, v, his.key, his.hash, his.value⟩
    rw [hrefs, hin]
    rfl
  · intro _
    rw [he, hget]
    rfl
  · rw [hlists.mem_lru, and_iff_right hkeeps]
  · rw [hlists.mem_inUse, and_iff_right hkeeps]
  · exact iff_of_true hkeeps ⟨_, hget, hin, hshard⟩
  · intro hout
    cases hout
  · intro e' he'
    exact some.inj (he.symm.trans he') ▸ hshard
  · intro e' he'
    exact some.inj (hget.symm.trans he') ▸ hshard

theorem ref_spec (hheap : HeapOk st held) (h : c.Ok own none st held last) (ha : a ∈ c.table.addrs)
    (hcount : held.count a + 2 < 2 ^ 32) :
    ∃ st' c', c.ref st a = some (st', c') ∧ HeapOk st' (a :: held) ∧ c'.Ok own none st' (a :: held) last ∧
      Within own st c st' c' := by
  obtain ⟨e, he, hin, hshard⟩ := (h.keeps_iff a).1 (Or.inl ha)
  have hrefs : e.refs.toNat = 1 + held.count a := by rw [hheap.counted a e he, hin]; rfl
  have hsucc : (e.refs + 1).toNat = 1 + (a :: held).count a := by
    have hadd : (e.refs + 1).toNat = e.refs.toNat + 1 := by
      rw [UInt32.toNat_add]
      exact Nat.mod_eq_of_lt (by change _ + 1 < _; omega)
    rw [hadd, hrefs, count_cons_self, Nat.add_assoc]
  have hlists : Relisted c a (a ∈ a :: held)
      (if e.refs = 1 ∧ e.inCache = true then (c.lruRemove a).appendInUse a else c) := by
    split
    · exact relisted_inUse h mem_cons_self
    · next hone =>
      -- there is a handle of the entry already
      have hheld : a ∈ held := by
        by_contra hnot
        rw [count_eq_zero_of_not_mem hnot] at hrefs
        exact hone ⟨UInt32.toNat_inj.1 hrefs, hin⟩
      exact relisted_self h (Or.inl ha) (iff_of_true hheld mem_cons_self)
  refine ⟨_, _, ?_, recount_spec hheap h he hin hshard hsucc (fun b hb => count_cons_of_ne (Ne.symm hb))
    hlists⟩
  rw [LRUCache.ref, he, bind_eq_bind, bind_some]

section Unref

variable (hheap : HeapOk st held) (h : c.Ok own none st held last) (ha : a ∈ held) (he : st.heap a = some e)
  (hshard : own e.hash)

include hheap h ha he hshard

theorem unref_out (hin : e.inCache = false) :
    ∃ st' c', c.unref st a = some (st', c') ∧ HeapOk st' (held.erase a) ∧
      c'.Ok own none st' (held.erase a) last ∧ Within own st c st' c' := by
  obtain ⟨k, v, his⟩ := hheap.is a e he
  have hleft : e.refs.toNat = (held.erase a).count a + 1 := by
    have hpos : 0 < held.count a := count_pos_iff.2 ha
    rw [hheap.counted a e he, hin, count_erase_self, Bool.toNat_false]
    omega
  obtain ⟨st', hunref, hdrop⟩ := unref_dropped (c := c) he hin hleft
  -- an entry that is not in the cache is in none of its lists
  have hkeeps : ¬ c.Keeps none a := by
    intro hkeeps
    obtain ⟨e', he', hin', -⟩ := (h.keeps_iff a).1 hkeeps
    obtain rfl := some.inj (he.symm.trans he')
    rw [hin] at hin'
    cases hin'
  refine ⟨st', c, hunref, hdrop.heapOk hin hheap (fun _ _ => rfl) rfl (fun b hb => count_erase_of_ne hb)
      (hheap.lt_made he) his,
    h.of_update hdrop.other (fun b hb => mem_erase_of_ne hb) rfl (fun _ _ => Iff.rfl) ?_
      ⟨h.lru_nodup, fun _ _ => Iff.rfl⟩ ⟨h.inUse_nodup, fun _ _ => Iff.rfl⟩ ?_ ?_ ?_ ?_,
    .of_update hdrop.other ?_ ?_ hdrop.junk rfl⟩
  · intro hmem
    exact absurd (Or.inl hmem) hkeeps
  · exact iff_of_false (fun hmem => hkeeps ((h.mem_lru a).1 hmem).1) fun hmem => hkeeps hmem.1
  · exact iff_of_false (fun hmem => hkeeps ((h.mem_inUse a).1 hmem).1) fun hmem => hkeeps hmem.1
  · refine iff_of_false hkeeps ?_
    rintro ⟨e', he', hin', -⟩
    obtain ⟨refs, -, rfl⟩ := hdrop.exists_eq he'
    rw [hin] at hin'
    cases hin'
  · intro hout
    cases hout
  · intro e' he'
    exact some.inj (he.symm.trans he') ▸ hshard
  · intro e' he'
    obtain ⟨refs, -, rfl⟩ := hdrop.exists_eq he'
    exact hshard

theorem unref_in (hin : e.inCache = true) :
    ∃ st' c', c.unref st a = some (st', c') ∧ HeapOk st' (held.erase a) ∧
      c'.Ok own none st' (held.erase a) last ∧ Within own st c st' c' := by
  have hpos : 0 < held.count a := count_pos_iff.2 ha
  have hcount : (held.erase a).count a = held.count a - 1 := count_erase_self
  have hrefs : e.refs.toNat = held.count a + 1 := by rw [hheap.counted a e he, hin, Nat.add_comm]; rfl
  have hne : e.refs ≠ 0 := fun h0 => by rw [h0] at hrefs; cases hrefs
  have hleft : (e.refs - 1).toNat = held.count a := by
    rw [toNat_sub_one hne, hrefs]
    rfl
  have hne' : e.refs - 1 ≠ 0 := fun h0 => by
    rw [h0] at hleft
    exact absurd hleft.symm hpos.ne'
  have hlists : Relisted c a (a ∈ held.erase a)
      (if e.inCache = true ∧ e.refs - 1 = 1 then (c.lruRemove a).appendLru a else c) := by
    split
    · next hone =>
      refine relisted_lru h ?_
      rw [← count_eq_zero, hcount, ← hleft, hone.2]
      rfl
    · next hone =>
      -- there is another handle of the entry
      have hmore : a ∈ held.erase a := by
        rw [← count_pos_iff, hcount]
        have : held.count a ≠ 1 := fun h1 => hone ⟨hin, UInt32.toNat_inj.1 (hleft.trans h1)⟩
        omega
      exact relisted_self h ((h.keeps_iff a).2 ⟨e, he, hin, hshard⟩) (iff_of_true ha hmore)
  have hcounted : (e.refs - 1).toNat = 1 + (held.erase a).count a := by omega
  refine ⟨_, _, ?_, recount_spec hheap h he hin hshard hcounted
    (fun b hb => count_erase_of_ne hb) hlists⟩
  rw [LRUCache.unref, he, bind_eq_bind, bind_some, if_neg hne]
  rw [if_neg hne']
  split <;> rfl

theorem unref_spec :
    ∃ st' c', c.unref st a = some (st', c') ∧ HeapOk st' (held.erase a) ∧
      c'.Ok own none st' (held.erase a) last ∧ Within own st c st' c' := by
  cases hin : e.inCache with
  | false => exact unref_out hheap h ha he hshard hin
  | true => exact unref_in hheap h ha he hshard hin

end Unref

/-! ### Inserting -/

theorem entered_ok {k : Bytes} {v : UInt64} {old : Option Addr} {table : HandleTable} (his : e.Is hashSlice k v)
    (hin : e.inCache = true) (hown : own (hashSlice k)) (h : c.Ok own none st held last) (hget : st'.heap a = some e)
    (hother : ∀ b, b ≠ a → st'.heap b = st.heap b) (hnew : ¬ c.Keeps none a)
    (htable : table.Ok hashSlice st'.heap)
    (hold : ∀ b, old = some b ↔ b ∈ c.table.addrs ∧ HasKey hashSlice st'.heap b k)
    (hmem : ∀ b, b ∈ table.addrs ↔ b = a ∨ b ∈ c.table.addrs ∧ old ≠ some b) (usage : UInt64) :
    LRUCache.Ok own old st' (a :: held) (update last k (some v))
      { c.appendInUse a with usage := usage, table := table } := by
  have hnotmem : a ∉ c.table.addrs := fun hmem => hnew (Or.inl hmem)
  have hlru : a ∉ c.lru := fun hin => hnew ((h.mem_lru a).1 hin).1
  have hinUse : a ∉ c.inUse := fun hin => hnew ((h.mem_inUse a).1 hin).1
  have hkeeps : ∀ b, LRUCache.Keeps { c.appendInUse a with usage := usage, table := table } old b ↔
      b = a ∨ c.Keeps none b := by
    intro b
    unfold LRUCache.Keeps
    rw [hmem b]
    constructor
    · rintro ((rfl | hb) | hb)
      · exact Or.inl rfl
      · exact Or.inr (Or.inl hb.1)
      · exact Or.inr (Or.inl ((hold b).1 hb).1)
    · rintro (rfl | hb | hb)
      · exact Or.inl (Or.inl rfl)
      · by_cases hout : old = some b
        · exact Or.inr hout
        · exact Or.inl (Or.inr ⟨hb, hout⟩)
      · cases hb
  refine ⟨htable, ?_, h.lru_nodup, nodup_append_singleton h.inUse_nodup hinUse, ?_, ?_, ?_, ?_⟩
  · intro b hb hin
    rcases (hmem b).1 hin with rfl | hin
    · exact hnotmem ((hold _).1 hb).1
    · exact hin.2 hb
  · intro b
    rw [hkeeps b]
    change b ∈ c.lru ↔ _
    by_cases hb : b = a
    · exact iff_of_false (hb ▸ hlru) fun hin => hin.2 (hb ▸ mem_cons_self)
    · rw [h.mem_lru b, or_iff_right hb, mem_cons, or_iff_right hb]
  · intro b
    rw [hkeeps b]
    change b ∈ c.inUse ++ [a] ↔ _
    rw [mem_append, mem_singleton]
    by_cases hb : b = a
    · exact iff_of_true (Or.inr hb) ⟨Or.inl hb, hb ▸ mem_cons_self⟩
    · rw [h.mem_inUse b, or_iff_left hb, or_iff_right hb, mem_cons, or_iff_right hb]
  · intro b
    rw [hkeeps b]
    by_cases hb : b = a
    · exact iff_of_true (Or.inl hb) ⟨e, hb ▸ hget, hin, his.hash ▸ hown⟩
    · rw [or_iff_right hb, hother b hb]
      exact h.keeps_iff b
  · intro b hb e' k' v' he' his'
    rcases (hmem b).1 hb with rfl | ⟨hb, hout⟩
    · obtain rfl := some.inj (hget.symm.trans he')
      obtain rfl := his'.key.unique his.key
      rw [update_self, ← his'.value, ← his.value]
    · -- the other entry with the key has been taken out
      have hk : k' ≠ k := by
        rintro rfl
        exact hout ((hold b).2 ⟨hb, e', he', his'.key, his'.hash⟩)
      rw [update_of_ne hk]
      rw [hother b fun hba => hnotmem (hba ▸ hb)] at he'
      exact h.latest b hb e' k' v' he' his'

def Store.enter (st : Store) (e : LRUHandle) : Store :=
  Store.set { st with made := st.made + 1 } st.made { e with refs := e.refs + 1, inCache := true }

def LRUCache.entered (c : LRUCache) (a : Addr) (charge : UInt64) (table : HandleTable) : LRUCache :=
  { c.appendInUse a with usage := c.usage + charge, table := table }

theorem place_eq (c : LRUCache) (st : Store) (e : LRUHandle) :
    c.place { st with made := st.made + 1 } st.made e =
      (c.table.insert (st.enter e).heap st.made).bind fun x =>
        (c.entered st.made e.charge x.2).finishErase (st.enter e) x.1 :=
  rfl

theorem entered_spec (hheap : HeapOk st held) {k : Bytes} {v : UInt64} (his : e.Is hashSlice k v)
    (hrefs : e.refs = 1) (hown : own (hashSlice k)) (h : c.Ok own none st held last)
    (helems : c.table.elems.toNat < 2 ^ 31) :
    ∃ old table, c.table.insert (st.enter e).heap st.made = some (old, table) ∧
      HeapOk (st.enter e) (st.made :: held) ∧
      (c.entered st.made e.charge table).Ok own old (st.enter e) (st.made :: held)
        (update last k (some v)) ∧
      Within own st c (st.enter e) (c.entered st.made e.charge table) ∧
      (∀ b, old = some b ↔ b ∈ c.table.addrs ∧ HasKey hashSlice (st.enter e).heap b k) ∧
      (∀ b, b ∈ table.addrs ↔ b = st.made ∨ b ∈ c.table.addrs ∧ old ≠ some b) ∧
      HasKey hashSlice (st.enter e).heap st.made k := by
  set a := st.made with ha
  set e₁ : LRUHandle := { e with refs := e.refs + 1, inCache := true } with he₁
  have hfree : st.heap a = none := hheap.fresh a le_rfl
  have hget : (st.enter e).heap a = some e₁ := by simp [Store.enter, Store.set, he₁, ha]
  have hother : ∀ b, b ≠ a → (st.enter e).heap b = st.heap b := fun b hb => by
    simp [Store.enter, Store.set, ← ha, hb]
  have hnew : ¬ c.Keeps none a := by
    intro hkeeps
    obtain ⟨e', he', -⟩ := (h.keeps_iff a).1 hkeeps
    rw [hfree] at he'
    cases he'
  have hnotheld : a ∉ held := by
    intro hheld
    obtain ⟨e', he'⟩ := hheap.live a hheld
    rw [hfree] at he'
    cases he'
  have hnotmem : a ∉ c.table.addrs := fun hmem => hnew (Or.inl hmem)
  have his₁ : e₁.Is hashSlice k v := ⟨his.key, his.hash, his.value⟩
  have hhas : HasKey hashSlice (st.enter e).heap a k := ⟨e₁, hget, his₁.key, his₁.hash⟩
  -- the heap with the new entry, of which the caller has a handle
  have hheap₁ : HeapOk (st.enter e) (a :: held) := by
    refine hheap.of_update hother (fun b hb => count_cons_of_ne (Ne.symm hb)) (Nat.le_succ _) (Nat.lt_succ_self _)
      (fun e' he' => ?_) fun _ => ⟨e₁, hget⟩
    obtain rfl := some.inj (hget.symm.trans he')
    refine ⟨?_, k, v, his₁⟩
    rw [count_cons_self, count_eq_zero_of_not_mem hnotheld, he₁, hrefs]
    rfl
  have htable₁ : c.table.Ok hashSlice (st.enter e).heap := h.table.of_heap fun b hb => by
    rw [hother b fun hba => hnotmem (hba ▸ hb)]
    rfl
  obtain ⟨old, table, hinsert, htable, hold, hmem⟩ := htable₁.insert hhas hnotmem helems
  refine ⟨old, table, hinsert, hheap₁, entered_ok his₁ rfl hown h hget hother hnew htable hold hmem _,
    .of_update hother (fun e' he' => ?_) (fun e' he' => ?_) rfl rfl, hold, hmem, hhas⟩
  · rw [hfree] at he'
    cases he'
  · obtain rfl := some.inj (hget.symm.trans he')
    exact his₁.hash ▸ hown

theorem place_spec (hheap : HeapOk st held) {k : Bytes} {v : UInt64} (his : e.Is hashSlice k v)
    (hrefs : e.refs = 1) (hown : own (hashSlice k)) (h : c.Ok own none st held last)
    (helems : c.table.elems.toNat < 2 ^ 31) :
    ∃ st' c', c.place { st with made := st.made + 1 } st.made e = some (st', c') ∧
      HeapOk st' (st.made :: held) ∧
      c'.Ok own none st' (st.made :: held) (update last k (some v)) ∧
      Within own st c st' c' ∧ st.made ∈ c'.table.addrs ∧
      HasKey hashSlice st'.heap st.made k := by
  obtain ⟨old, table, hinsert, hheap₁, hok, hfirst, -, hmem, hhas⟩ := entered_spec hheap his hrefs hown h helems
  obtain ⟨st', c', hfinish, hheap', hok', hwithin, hkept, htable', -⟩ := finishErase_spec hheap₁ hok
  refine ⟨st', c', ?_, hheap', hok', hfirst.trans hwithin, ?_,
    hhas.of_sameRecord (hkept st.made mem_cons_self)⟩
  · rw [place_eq, hinsert]
    exact hfinish
  · rw [htable']
    exact (hmem st.made).2 (Or.inl rfl)

theorem insert_spec (hheap : HeapOk st held) {k : Bytes} {v : UInt64} (charge : UInt64)
    (hintact : Intact hashSlice st.junk k v) (hcapacity : 0 < c.capacity) (h : c.Ok own none st held last)
    (hown : own (hashSlice k)) (helems : c.table.elems.toNat < 2 ^ 31) :
    ∃ st' c', c.insert st k (hashSlice k) v charge = some (st.made, st', c') ∧
      HeapOk st' (st.made :: held) ∧
      c'.Ok own none st' (st.made :: held) (update last k (some v)) ∧
      Within own st c st' c' ∧ st.made ∈ c'.table.addrs ∧
      HasKey hashSlice st'.heap st.made k := by
  obtain ⟨e, hnew, his, -, hrefs, -⟩ := hintact.newHandle charge
  obtain ⟨st₁, c₁, hplace, hheap₁, hok₁, hwithin₁, hmem₁, hhas₁⟩ := place_spec hheap his hrefs hown h helems
  obtain ⟨st', c', hloop, hheap', hok', hwithin', hkept, hmem'⟩ :=
    evictLoop_spec (fun c => c.capacity < c.usage) (Nat.lt_succ_self _) hheap₁ hok₁
  refine ⟨st', c', ?_, hheap', hok', hwithin₁.trans hwithin', hmem' _ mem_cons_self hmem₁,
    hhas₁.of_sameRecord (hkept _ mem_cons_self)⟩
  rw [LRUCache.insert, hnew, bind_eq_bind, bind_some, LRUCache.enter, if_pos hcapacity, hplace,
    bind_eq_bind, bind_some]
  dsimp only
  rw [hloop]
  rfl

theorem lookup_spec (hheap : HeapOk st held) (h : c.Ok own none st held last) (k : Bytes) :
    ∃ r, c.table.lookup st.heap (Slice.of k) (hashSlice k) = some r ∧
      (∀ a, r = some a ↔ a ∈ c.table.addrs ∧ HasKey hashSlice st.heap a k) ∧
      ∀ a, r = some a → ∃ e, st.heap a = some e ∧ last k = some e.value := by
  obtain ⟨r, hlookup, hr⟩ := h.table.lookup (Slice.of_denotes k)
  refine ⟨r, hlookup, hr, fun a ha => ?_⟩
  obtain ⟨hmem, e, he, hkey, -⟩ := (hr a).1 ha
  obtain ⟨k', v, his⟩ := hheap.is a e he
  obtain rfl := his.key.unique hkey
  exact ⟨e, he, by rw [h.latest a hmem e k' v he his, his.value]⟩

end Shard

end ComponentsW
