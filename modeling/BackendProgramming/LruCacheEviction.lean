/-
**What the LRU cache evicts.**

The list `lru_` is in the order of the last releases, and `Insert` erases entries from its head as long as the
usage is above the capacity.
-/

import BackendProgramming.LruCacheLedger

set_option autoImplicit false

namespace ComponentsW

open CText ByteMem Function List Option

def keyAt (inserted : Inserts) (a : Addr) : Option Bytes := inserted[a]?.map Prod.fst

namespace ShardSystem

def chargedAfter (s : ShardSystem) (k : Bytes) (charge : UInt64) (p : List Addr) : ℕ :=
  charge.toNat +
    ∑ a ∈ s.cache.table.addrs.toFinset with keyAt s.inserted a ≠ some k ∧ a ∉ p, chargeAt s.inserted a

structure EvictsRight (s : ShardSystem) (k : Bytes) (charge : UInt64) (t : ShardSystem) : Prop where
  reached : t.cache.usage ≤ t.cache.capacity ∨ ∀ a ∈ t.cache.table.addrs, a ∈ t.held
  shortest : ∃ unpinned evicted : List Addr,
    (∀ a, a ∈ unpinned ↔ a ∈ s.cache.table.addrs ∧ a ∉ s.held ∧ keyAt s.inserted a ≠ some k) ∧
    unpinned.Pairwise (fun a b => s.releasedAt a < s.releasedAt b) ∧ evicted <+: unpinned ∧
    (∀ a, a ∈ t.cache.table.addrs ↔
      a = s.inserted.length ∨ a ∈ s.cache.table.addrs ∧ keyAt s.inserted a ≠ some k ∧ a ∉ evicted) ∧
    (s.chargedAfter k charge evicted ≤ s.cache.capacity.toNat ∨ evicted = unpinned) ∧
    ∀ p, p <+: unpinned → p.length < evicted.length → s.cache.capacity.toNat < s.chargedAfter k charge p

def InsertsRight (s : ShardSystem) (e : CacheEvent) : Prop :=
  ∀ k v charge, e = .insert k v charge → ∃ t, s.step e = some t ∧ s.EvictsRight k charge t

structure Ordered (s : ShardSystem) : Prop where
  sorted : s.cache.lru.Pairwise fun a b => s.releasedAt a < s.releasedAt b
  past : ∀ a ∈ s.cache.lru, s.releasedAt a < s.clock

end ShardSystem

/-! ### The lists -/

section Lists

variable {own : UInt32 → Prop} {out : Option Addr} {st st' : Store} {held : List Addr}
  {last : Bytes → Option UInt64} {c c' : LRUCache} {e : LRUHandle} {inserted : Inserts}

theorem finishErase_lru (hheap : HeapOk st held) (h : c.Ok own out st held last)
    (heq : c.finishErase st out = some (st', c')) : c'.lru.Sublist c.lru ∧ c'.table = c.table := by
  cases out with
  | none =>
    cases heq
    exact ⟨List.Sublist.refl _, rfl⟩
  | some a =>
    obtain ⟨st₁, c₁, heq₁, -, -, -, -, htable, hlru⟩ := finishErase_spec hheap h
    obtain ⟨rfl, rfl⟩ := Prod.mk.inj (some.inj (heq.symm.trans heq₁))
    exact ⟨hlru a rfl ▸ erase_sublist, htable⟩

theorem place_lists (hheap : HeapOk st held) (hacc : Accounted st held inserted) {k : Bytes} {v : UInt64}
    (his : e.Is hashSlice k v) (hrefs : e.refs = 1) (hown : own (hashSlice k)) (h : c.Ok own none st held last)
    (helems : c.table.elems.toNat < 2 ^ 31)
    (heq : c.place { st with made := st.made + 1 } st.made e = some (st', c')) :
    c'.lru.Sublist c.lru ∧
      ∀ b, b ∈ c'.table.addrs ↔ b = inserted.length ∨ b ∈ c.table.addrs ∧ keyAt inserted b ≠ some k := by
  obtain ⟨old, table, hinsert, hheap₁, hok₁, -, hold, hmem, -⟩ := entered_spec hheap his hrefs hown h helems
  rw [place_eq, hinsert] at heq
  obtain ⟨hlru, htable⟩ := finishErase_lru hheap₁ hok₁ heq
  refine ⟨hlru, fun b => ?_⟩
  rw [htable]
  refine (hmem b).trans ?_
  rw [hacc.made]
  refine or_congr_right (and_congr_right fun hb => not_congr ?_)
  -- the entry with the key is the one that the record has it of
  obtain ⟨e', he', -⟩ := (h.keeps_iff b).1 (Or.inl hb)
  obtain ⟨k', v', hget, his'⟩ := hacc.entry b e' he'
  have hne : b ≠ st.made := fun heq => by
    rw [heq, hheap.fresh _ le_rfl] at he'
    cases he'
  have hsame : (st.enter e).heap b = some e' := by simpa [Store.enter, Store.set, hne] using he'
  rw [hold, and_iff_right hb, keyAt, hget]
  constructor
  · rintro ⟨e'', he'', hkey, -⟩
    obtain rfl := some.inj (hsame.symm.trans he'')
    exact congrArg some (his'.key.unique hkey)
  · intro hk
    obtain rfl : k' = k := some.inj hk
    exact ⟨e', hsame, his'.key, his'.hash⟩

structure Evicted (more : LRUCache → Bool) (inserted : Inserts) (c c' : LRUCache) (evicted : List Addr) : Prop where
  lru : c.lru = evicted ++ c'.lru
  done : more c' = false ∨ c'.lru = []
  table : ∀ b, b ∈ c'.table.addrs ↔ b ∈ c.table.addrs ∧ b ∉ evicted
  capacity : c'.capacity = c.capacity
  needed : ∀ p, p <+: evicted → p ≠ evicted → ∃ d : LRUCache, more d = true ∧ d.capacity = c.capacity ∧
    d.usage.toNat = ∑ a ∈ c.kept none with a ∉ p, chargeAt inserted a

theorem Evicted.nil {more : LRUCache → Bool} (h : more c = false ∨ c.lru = []) : Evicted more inserted c c [] :=
  ⟨rfl, h, fun b => by simp, rfl, fun _ hp hne => absurd (prefix_nil.1 hp) hne⟩

theorem Evicted.cons {more : LRUCache → Bool} {c₁ : LRUCache} {old : Addr} {evicted : List Addr}
    (h : Evicted more inserted c₁ c' evicted) (hmore : more c = true) (hcharged : c.Charged none inserted)
    (hlru : c.lru = old :: c₁.lru) (htable : ∀ b, b ∈ c₁.table.addrs ↔ b ∈ c.table.addrs ∧ b ≠ old)
    (hcapacity : c₁.capacity = c.capacity) : Evicted more inserted c c' (old :: evicted) where
  lru := by rw [hlru, cons_append, ← h.lru]
  done := h.done
  table b := by rw [h.table, htable, mem_cons, not_or, and_assoc]
  capacity := h.capacity.trans hcapacity
  needed p hp hne := by
    rcases prefix_cons_iff.1 hp with rfl | ⟨p, rfl, hp'⟩
    · refine ⟨c, hmore, rfl, ?_⟩
      rw [Finset.filter_true_of_mem fun _ _ => not_mem_nil]
      exact hcharged
    · obtain ⟨d, hd, hdcapacity, hdusage⟩ := h.needed p hp' fun heq => hne (heq ▸ rfl)
      refine ⟨d, hd, hdcapacity.trans hcapacity, hdusage.trans (Finset.sum_congr ?_ fun _ _ => rfl)⟩
      ext b
      simp only [Finset.mem_filter, LRUCache.mem_kept, LRUCache.Keeps, htable, mem_cons, not_or]
      simp [and_assoc]

theorem evictLoop_front {more : LRUCache → Bool} {fuel : ℕ} (hheap : HeapOk st held)
    (h : c.Ok own none st held last) (hacc : Accounted st held inserted) (hcharged : c.Charged none inserted)
    (heq : LRUCache.evictLoop more fuel c st = some (st', c')) :
    ∃ evicted, Evicted more inserted c c' evicted := by
  induction fuel generalizing c st with
  | zero => cases heq
  | succ fuel ih =>
    unfold LRUCache.evictLoop at heq
    split at heq
    · next hlru =>
      obtain ⟨-, rfl⟩ := Prod.mk.inj (some.inj heq)
      exact ⟨[], .nil (Or.inr hlru)⟩
    · next old rest hlru =>
      split at heq
      · next hmore =>
        obtain ⟨st₁, c₁, hevict, hheap₁, hok₁, hwithin, -, rfl, htable⟩ := evict_spec hheap h hlru
        obtain ⟨hacc₁, hcharged₁⟩ := evict_ledger hheap h hacc hcharged (hlru ▸ mem_cons_self) hevict
        rw [hevict] at heq
        obtain ⟨evicted, hevicted⟩ := ih hheap₁ hok₁ hacc₁ hcharged₁ heq
        exact ⟨old :: evicted, hevicted.cons hmore hcharged hlru htable hwithin.capacity⟩
      · next hmore =>
        obtain ⟨-, rfl⟩ := Prod.mk.inj (some.inj heq)
        exact ⟨[], .nil (Or.inl (by simpa using hmore))⟩

end Lists

/-! ### The order of the releases -/

namespace ShardSystem

variable {capacity : UInt64} {junk : Mem} {s t : ShardSystem}

theorem ordered_new : (ShardSystem.new capacity junk).Ordered :=
  ⟨List.Pairwise.nil, fun _ ha => absurd ha not_mem_nil⟩

theorem Ordered.of_sublist (h : s.Ordered) (hlru : t.cache.lru.Sublist s.cache.lru) (hclock : t.clock = s.clock)
    (hreleased : t.releasedAt = s.releasedAt) : t.Ordered := by
  refine ⟨?_, fun a ha => ?_⟩
  · rw [hreleased]
    exact h.sorted.sublist hlru
  · rw [hreleased, hclock]
    exact h.past a (hlru.subset ha)

theorem Ordered.release (h : s.Ordered) (hsound : s.Sound capacity) {a : Addr} (ha : a ∈ s.held)
    (hstep : s.step (.release a) = some t) : t.Ordered := by
  obtain ⟨last, hok⟩ := hsound.cache
  obtain ⟨⟨st', c'⟩, hunref, rfl⟩ := map_eq_some_iff.1 hstep
  have hnot : a ∉ s.cache.lru := fun hmem => ((hok.mem_lru a).1 hmem).2 ha
  have hother : ∀ b ∈ s.cache.lru, update s.releasedAt a s.clock b = s.releasedAt b := by
    intro b hb
    have hne : b ≠ a := fun heq => hnot (heq ▸ hb)
    exact update_of_ne hne ..
  have hsorted : s.cache.lru.Pairwise fun b b' =>
      update s.releasedAt a s.clock b < update s.releasedAt a s.clock b' := by
    refine h.sorted.imp_of_mem fun {b b'} hb hb' hlt => ?_
    rwa [hother b hb, hother b' hb']
  have hpast : ∀ b ∈ s.cache.lru, update s.releasedAt a s.clock b < s.clock := fun b hb =>
    (hother b hb).trans_lt (h.past b hb)
  have hlru : c'.lru = s.cache.lru ∨ c'.lru = s.cache.lru ++ [a] := by
    obtain ⟨e, -, -, -, -, -, ⟨-, -, rfl⟩ | ⟨-, -, rfl | hlru⟩⟩ := unref_cases hunref
    · exact Or.inl rfl
    · exact Or.inl rfl
    · exact Or.inr (by rw [hlru, erase_of_not_mem hnot])
  rcases hlru with hlru | hlru
  · refine ⟨?_, fun b hb => ?_⟩
    · dsimp only
      rw [hlru]
      exact hsorted
    · dsimp only at hb ⊢
      rw [hlru] at hb
      exact (hpast b hb).trans (Nat.lt_succ_self _)
  · refine ⟨?_, fun b hb => ?_⟩
    · dsimp only
      rw [hlru]
      refine pairwise_append.2 ⟨hsorted, pairwise_singleton _ a, fun b hb b' hb' => ?_⟩
      rw [mem_singleton.1 hb', update_self]
      exact hpast b hb
    · dsimp only at hb ⊢
      rw [hlru, mem_append, mem_singleton] at hb
      rcases hb with hb | rfl
      · exact (hpast b hb).trans (Nat.lt_succ_self _)
      · rw [update_self]
        exact Nat.lt_succ_self _

theorem sum_kept_after {c₁ : LRUCache} {k : Bytes} {v charge : UInt64} {p : List Addr}
    (hlt : ∀ a ∈ s.cache.table.addrs, a < s.inserted.length)
    (htable : ∀ b, b ∈ c₁.table.addrs ↔
      b = s.inserted.length ∨ b ∈ s.cache.table.addrs ∧ keyAt s.inserted b ≠ some k)
    (hp : s.inserted.length ∉ p) :
    ∑ a ∈ c₁.kept none with a ∉ p, chargeAt (s.inserted ++ [(k, v, charge)]) a = s.chargedAfter k charge p := by
  have hset : (c₁.kept none).filter (· ∉ p) = Insert.insert s.inserted.length
      (s.cache.table.addrs.toFinset.filter fun a => keyAt s.inserted a ≠ some k ∧ a ∉ p) := by
    ext a
    rw [Finset.mem_filter, LRUCache.mem_kept, LRUCache.Keeps, or_iff_left (by simp), htable, Finset.mem_insert,
      Finset.mem_filter, List.mem_toFinset]
    constructor
    · rintro ⟨rfl | ⟨ha, hkey⟩, hout⟩
      · exact Or.inl rfl
      · exact Or.inr ⟨ha, hkey, hout⟩
    · rintro (rfl | ⟨ha, hkey, hout⟩)
      · exact ⟨Or.inl rfl, hp⟩
      · exact ⟨Or.inr ⟨ha, hkey⟩, hout⟩
  have hnew : s.inserted.length ∉
      s.cache.table.addrs.toFinset.filter fun a => keyAt s.inserted a ≠ some k ∧ a ∉ p := fun hin =>
    lt_irrefl _ (hlt _ (mem_toFinset.1 (Finset.mem_filter.1 hin).1))
  have hcharge : chargeAt (s.inserted ++ [(k, v, charge)]) s.inserted.length = charge.toNat :=
    chargeAt_of_some (x := (k, v, charge)) (by simp)
  rw [hset, Finset.sum_insert hnew, hcharge, chargedAfter]
  refine congrArg _ (Finset.sum_congr rfl fun a ha => chargeAt_concat_of_lt (hlt a ?_) _)
  exact mem_toFinset.1 (Finset.mem_filter.1 ha).1

theorem Sound.insert_evicts (h : s.Sound capacity) (ho : s.Ordered) (hpos : 0 < capacity) {k : Bytes} (v : UInt64)
    {charge : UInt64} (hne : k ≠ []) (hlen : k.length ≤ 8)
    (hsum : totalCharge s.inserted + charge.toNat < 2 ^ 64) (helems : s.cache.table.elems.toNat < 2 ^ 31) :
    ∃ t, s.step (.insert k v charge) = some t ∧ s.EvictsRight k charge t ∧ t.Ordered := by
  obtain ⟨last, hok⟩ := h.cache
  obtain ⟨e, last₁, st₁, c₁, st', c', his, hrefs, rfl, henter, hheap₁, hok₁, hacc₁, hcharged₁, hcapacity, hloop,
    hstep⟩ := h.insert_parts v hne hlen hsum helems
  rw [LRUCache.enter, if_pos (h.capacity_eq ▸ hpos)] at henter
  obtain ⟨hsub, htable₁⟩ := place_lists h.heap h.accounted his hrefs trivial hok helems henter
  obtain ⟨evicted, hevicted⟩ := evictLoop_front hheap₁ hok₁ hacc₁ hcharged₁ hloop
  obtain ⟨-, hcharged'⟩ := evictLoop_ledger hheap₁ hok₁ hacc₁ hcharged₁ hloop
  have hfront : evicted <+: c₁.lru := ⟨c'.lru, hevicted.lru.symm⟩
  have hlt : ∀ a ∈ s.cache.table.addrs, a < s.inserted.length := fun a ha => hok.lt_length h.accounted (Or.inl ha)
  have hunpinned : ∀ a, a ∈ c₁.lru ↔ a ∈ s.cache.table.addrs ∧ a ∉ s.held ∧ keyAt s.inserted a ≠ some k := by
    intro a
    rw [hok₁.mem_lru, LRUCache.Keeps, or_iff_left (by simp), htable₁, mem_cons, h.accounted.made]
    constructor
    · rintro ⟨hnew | ⟨ha, hkey⟩, hnot⟩
      · exact absurd (Or.inl hnew) hnot
      · exact ⟨ha, fun hheld => hnot (Or.inr hheld), hkey⟩
    · rintro ⟨ha, hheld, hkey⟩
      exact ⟨Or.inr ⟨ha, hkey⟩, fun hor => hor.elim (hlt a ha).ne hheld⟩
  have hnew : s.inserted.length ∉ c₁.lru := fun hin => lt_irrefl _ (hlt _ ((hunpinned _).1 hin).1)
  have hafter : ∀ p, p <+: c₁.lru → ∑ a ∈ c₁.kept none with a ∉ p, chargeAt (s.inserted ++ [(k, v, e.charge)]) a =
      s.chargedAfter k e.charge p := fun p hp => sum_kept_after hlt htable₁ fun hin => hnew (hp.subset hin)
  have husage : c'.usage.toNat = s.chargedAfter k e.charge evicted := by
    rw [← hafter evicted hfront]
    refine hcharged'.trans (Finset.sum_congr ?_ fun _ _ => rfl)
    ext a
    simp only [Finset.mem_filter, LRUCache.mem_kept, LRUCache.Keeps, hevicted.table]
    simp
  have hlru' : c'.lru.Sublist s.cache.lru := by
    refine List.Sublist.trans ?_ hsub
    rw [hevicted.lru]
    exact sublist_append_right _ _
  have hdone : c'.usage ≤ c'.capacity ∨ c'.lru = [] := hevicted.done.imp_left fun hless => by simpa using hless
  refine ⟨_, hstep, ⟨hdone.imp_right fun hnil a ha => ?_, c₁.lru, evicted, hunpinned, ho.sorted.sublist hsub, hfront,
    fun a => ?_, ?_, fun p hp hshort => ?_⟩, ho.of_sublist hlru' rfl rfl⟩
  · obtain ⟨st₂, c₂, hloop₂, -, hok₂, -⟩ :=
      evictLoop_spec (fun c => c.capacity < c.usage) (Nat.lt_succ_self _) hheap₁ hok₁
    obtain ⟨rfl, rfl⟩ := Prod.mk.inj (some.inj (hloop.symm.trans hloop₂))
    by_contra hnot
    have hin := (hok₂.mem_lru a).2 ⟨Or.inl ha, hnot⟩
    rw [hnil] at hin
    cases hin
  · have hnot : s.inserted.length ∉ evicted := fun hin => hnew (hfront.subset hin)
    rw [hevicted.table, htable₁]
    constructor
    · rintro ⟨rfl | ⟨ha, hkey⟩, hout⟩
      · exact Or.inl rfl
      · exact Or.inr ⟨ha, hkey, hout⟩
    · rintro (rfl | ⟨ha, hkey, hout⟩)
      · exact ⟨Or.inl rfl, hnot⟩
      · exact ⟨Or.inr ⟨ha, hkey⟩, hout⟩
  · rcases hdone with hle | hnil
    · left
      rw [← husage, h.capacity_eq, ← hcapacity, ← hevicted.capacity]
      exact UInt64.le_iff_toNat_le.1 hle
    · right
      rw [hevicted.lru, hnil, append_nil]
  · have hp' : p <+: evicted := prefix_of_prefix_length_le hp hfront hshort.le
    obtain ⟨d, hmore, hdcapacity, hdusage⟩ := hevicted.needed p hp' fun heq => hshort.ne (congrArg length heq)
    have hless : d.capacity < d.usage := by simpa using hmore
    rw [← hafter p hp, ← hdusage, h.capacity_eq, ← hcapacity, ← hdcapacity]
    exact UInt64.lt_iff_toNat_lt.1 hless

theorem Ordered.step {P : Bytes → Prop} (hP : ∀ k, P k → k ≠ []) (hpos : 0 < capacity) (ho : s.Ordered)
    (h : s.Sound capacity) {e : CacheEvent} (hlegal : ShardLegal P s e) (hstep : s.step e = some t) : t.Ordered := by
  obtain ⟨last, hok⟩ := h.cache
  cases e with
  | insert k v charge =>
    obtain ⟨hlen, hk, hsum, helems⟩ := hlegal
    obtain ⟨t', hstep', -, hordered⟩ := h.insert_evicts ho hpos v (hP k hk) hlen hsum helems
    exact some.inj (hstep'.symm.trans hstep) ▸ hordered
  | lookup k =>
    obtain ⟨x, hlookup, rfl⟩ := map_eq_some_iff.1 hstep
    obtain ⟨r, -, hrest⟩ := Option.bind_eq_some_iff.1 hlookup
    cases r with
    | none =>
      cases hrest
      exact ho.of_sublist (List.Sublist.refl _) rfl rfl
    | some a =>
      obtain ⟨⟨st', c'⟩, href, rfl⟩ := map_eq_some_iff.1 hrest
      refine ho.of_sublist ?_ rfl rfl
      obtain ⟨-, -, -, -, -, -, hlru | hlru⟩ := ref_cases href
      · exact hlru ▸ List.Sublist.refl _
      · exact hlru ▸ erase_sublist
  | release a => exact ho.release h hlegal hstep
  | erase k =>
    obtain ⟨⟨st', c'⟩, herase, rfl⟩ := map_eq_some_iff.1 hstep
    obtain ⟨old, table, hremove, hok₁, -, -⟩ := remove_ok hok (Slice.of_denotes k)
    rw [LRUCache.erase, hremove, bind_eq_bind, bind_some] at herase
    exact ho.of_sublist (finishErase_lru h.heap hok₁ herase).1 rfl rfl
  | prune =>
    obtain ⟨⟨st', c'⟩, hprune, rfl⟩ := map_eq_some_iff.1 hstep
    obtain ⟨evicted, hevicted⟩ := evictLoop_front h.heap hok h.accounted h.charged hprune
    refine ho.of_sublist ?_ rfl rfl
    rw [hevicted.lru]
    exact sublist_append_right _ _

end ShardSystem

theorem evictions_right_iff {capacity : UInt64} (hpos : 0 < capacity) (junk : Mem) (P : Bytes → Prop) :
    (∀ es, Lts.Along ShardSystem.step (ShardLegal P) (.new capacity junk) es →
      Lts.Along ShardSystem.step ShardSystem.InsertsRight (.new capacity junk) es) ↔ ∀ k, P k → k ≠ [] := by
  constructor
  · rintro hall k hk rfl
    have hlegal : Lts.Along ShardSystem.step (ShardLegal P) (.new capacity junk) [.insert [] 0 0] :=
      ⟨⟨Nat.zero_le 8, hk, show 0 + (0 : UInt64).toNat < 2 ^ 64 by decide,
        show (0 : UInt32).toNat < 2 ^ 31 by decide⟩, fun _ _ => trivial⟩
    obtain ⟨t, hstep, -⟩ := (hall _ hlegal).1 [] 0 0 rfl
    cases hstep
  · intro hP es hlegal
    refine Lts.Along.of_invariant (I := fun s => s.Sound capacity ∧ s.Ordered) ?_
      ⟨ShardSystem.sound_new, ShardSystem.ordered_new⟩ hlegal
    rintro s e ⟨hs, ho⟩ he
    refine ⟨?_, fun t ht => ?_⟩
    · rintro k v charge rfl
      obtain ⟨hlen, hk, hsum, helems⟩ := he
      obtain ⟨t, hstep, hright, -⟩ := hs.insert_evicts ho hpos v (hP k hk) hlen hsum helems
      exact ⟨t, hstep, hright⟩
    · obtain ⟨t', ht', hsound⟩ := hs.step hP he
      exact ⟨some.inj (ht'.symm.trans ht) ▸ hsound, ho.step hP hpos hs he ht⟩

theorem evictions_right_of_capacity_two :
    (∀ es, Lts.Along ShardSystem.step (ShardLegal fun k => k.length = 3) (.new 2 fun _ => 0) es →
      Lts.Along ShardSystem.step ShardSystem.InsertsRight (.new 2 fun _ => 0) es) ↔
      ∀ k : Bytes, k.length = 3 → k ≠ [] :=
  evictions_right_iff (by decide) _ _

theorem empty_key_not_evicting :
    ¬ Lts.Along ShardSystem.step ShardSystem.InsertsRight (.new 100 fun _ => 0) [.insert [] 7 1] := by
  rintro ⟨hright, -⟩
  obtain ⟨t, hstep, -⟩ := hright [] 7 1 rfl
  cases hstep

end ComponentsW
