/-
**What the pages of the pager hold.**

A slot that is used again is not cleared.  When the page it is used for ends behind the end of the file, the
rest of the slot still holds bytes of the page before.  So all pages are right exactly if these bytes are
always zero.
-/

import BackendProgramming.Pager

set_option autoImplicit false

namespace SqliteDemo

open CText Function List Option

/-! ### The invariant -/

def Pager.referenced (s : Pager) : List ℕ := (range s.made).filter fun p => 0 < (s.pages p).nref

structure Pager.Ok (s : Pager) : Prop where
  length : s.aphash.length = nhash
  placed : Chains.Placed (fun p => (s.pages p).key % nhash) s.aphash
  nodup : s.aphash.flatten.Nodup
  npage : s.npage = s.aphash.flatten.length
  mem_hash : ∀ p, p ∈ s.aphash.flatten ↔ 0 < (s.pages p).nref
  lru_nodup : s.lru.Nodup
  mem_lru : ∀ p, p ∈ s.lru ↔ p < s.made ∧ (s.pages p).nref = 0
  fresh : ∀ p, s.made ≤ p → (s.pages p).nref = 0
  key_eq : ∀ p, 0 < (s.pages p).nref → (s.pages p).key = (s.pages p).pgno ∧ 1 ≤ (s.pages p).pgno
  unique : ∀ p q, 0 < (s.pages p).nref → 0 < (s.pages q).nref → (s.pages p).pgno = (s.pages q).pgno → p = q
  pdirty_nodup : s.pdirty.Nodup
  mem_pdirty : ∀ p, p ∈ s.pdirty ↔ (s.pages p).dirty = true
  dirty : ∀ p, (s.pages p).dirty = true → 0 < (s.pages p).nref

structure PagerSystem.Sound (s : PagerSystem) : Prop where
  ok : s.pager.Ok
  content : ∀ p, 0 < (s.pager.pages p).nref → (s.pager.pages p).content = s.image (s.pager.pages p).pgno
  file : ∀ n, 1 ≤ n → (∀ p, (s.pager.pages p).dirty = true → (s.pager.pages p).pgno ≠ n) →
    filePage s.pager.file n = s.image n

theorem sound_pagerOpen (file : Bytes) : (PagerSystem.pagerOpen file).Sound := by
  have hempty : (replicate nhash ([] : List ℕ)).flatten = [] := by simp
  have hflat : (PagerSystem.pagerOpen file).pager.aphash.flatten = [] := hempty
  refine ⟨⟨length_replicate, Chains.placed_replicate_nil _ _, ?_, ?_, fun p => ?_, nodup_nil, fun p => ?_,
    fun _ _ => rfl, fun p hp => ?_, fun p q hp => ?_, nodup_nil, fun p => ?_, fun p hp => ?_⟩, fun p hp => ?_,
    fun _ _ _ => rfl⟩
  · rw [hflat]
    exact nodup_nil
  · rw [hflat]
    rfl
  · rw [hflat]
    exact iff_of_false not_mem_nil (Nat.lt_irrefl 0)
  · exact iff_of_false not_mem_nil fun h => Nat.not_lt_zero p h.1
  · exact absurd hp (Nat.lt_irrefl 0)
  · exact absurd hp (Nat.lt_irrefl 0)
  · exact iff_of_false not_mem_nil Bool.false_ne_true
  · exact absurd hp Bool.false_ne_true
  · exact absurd hp (Nat.lt_irrefl 0)

theorem Pager.pages_modify (s : Pager) (p : ℕ) (f : DbPage → DbPage) (q : ℕ) :
    (s.modify p f).pages q = if q = p then f (s.pages q) else s.pages q := by
  by_cases hq : q = p
  · subst hq
    simp [Pager.modify]
  · simp [Pager.modify, hq]

section Ok

variable {s s' : Pager} {p q n : ℕ}

theorem Pager.Ok.congr (h : s.Ok) (haphash : s'.aphash = s.aphash) (hnpage : s'.npage = s.npage)
    (hlru : s'.lru = s.lru) (hmade : s'.made = s.made) (hpdirty : s'.pdirty = s.pdirty)
    (hpages : ∀ p, (0 < (s'.pages p).nref ↔ 0 < (s.pages p).nref) ∧ (s'.pages p).key = (s.pages p).key ∧
      (s'.pages p).pgno = (s.pages p).pgno ∧ (s'.pages p).dirty = (s.pages p).dirty) : s'.Ok where
  length := haphash ▸ h.length
  placed := by
    intro i chain hi p hp
    dsimp only
    rw [(hpages p).2.1]
    exact h.placed i chain (haphash ▸ hi) p hp
  nodup := haphash ▸ h.nodup
  npage := by rw [hnpage, haphash, h.npage]
  mem_hash p := by rw [haphash, (hpages p).1, h.mem_hash p]
  lru_nodup := hlru ▸ h.lru_nodup
  mem_lru p := by
    have hzero : (s'.pages p).nref = 0 ↔ (s.pages p).nref = 0 := by
      have := (hpages p).1
      omega
    rw [hlru, hmade, hzero, h.mem_lru p]
  fresh p hp := by
    have := (hpages p).1
    have := h.fresh p (hmade ▸ hp)
    omega
  key_eq p hp := by
    rw [(hpages p).2.1, (hpages p).2.2.1]
    exact h.key_eq p ((hpages p).1.1 hp)
  unique p q hp hq := by
    rw [(hpages p).2.2.1, (hpages q).2.2.1]
    exact h.unique p q ((hpages p).1.1 hp) ((hpages q).1.1 hq)
  pdirty_nodup := hpdirty ▸ h.pdirty_nodup
  mem_pdirty p := by rw [hpdirty, (hpages p).2.2.2, h.mem_pdirty p]
  dirty p hp := (hpages p).1.2 (h.dirty p ((hpages p).2.2.2 ▸ hp))

theorem Pager.Ok.exists_chain (h : s.Ok) (key : ℕ) : ∃ chain, s.aphash[key % nhash]? = some chain := by
  have hlt : key % nhash < s.aphash.length := by
    rw [h.length]
    exact Nat.mod_lt _ (by decide)
  exact ⟨_, getElem?_eq_getElem hlt⟩

theorem Pager.Ok.pcache1Get_iff (h : s.Ok) :
    s.pcache1Get n = some p ↔ 0 < (s.pages p).nref ∧ (s.pages p).pgno = n := by
  obtain ⟨chain, hchain⟩ := h.exists_chain n
  have hin : ∀ q ∈ chain, 0 < (s.pages q).nref := fun q hq =>
    (h.mem_hash q).1 (mem_flatten.2 ⟨chain, mem_of_getElem? hchain, hq⟩)
  rw [Pager.pcache1Get, hchain, getD_some]
  constructor
  · intro hfind
    have hq := hin p (mem_of_find?_eq_some hfind)
    have hkey := find?_some hfind
    rw [beq_iff_eq] at hkey
    exact ⟨hq, (h.key_eq p hq).1 ▸ hkey⟩
  · rintro ⟨hp, rfl⟩
    -- the slot stands in the chain, and no other one in front of it has the key
    obtain ⟨chain', hchain', hmem⟩ := h.placed.mem_chain ((h.mem_hash p).2 hp)
    rw [(h.key_eq p hp).1] at hchain'
    obtain rfl := some.inj (hchain.symm.trans hchain')
    have hsome : (chain.find? fun q => (s.pages q).key == (s.pages p).pgno).isSome := by
      rw [find?_isSome]
      exact ⟨p, hmem, by rw [beq_iff_eq]; exact (h.key_eq p hp).1⟩
    obtain ⟨q, hq⟩ := Option.isSome_iff_exists.1 hsome
    have hkey := find?_some hq
    rw [beq_iff_eq] at hkey
    have hqref := hin q (mem_of_find?_eq_some hq)
    rw [hq, h.unique q p hqref hp ((h.key_eq q hqref).1 ▸ hkey)]

/-! ### Getting a page -/

def Pager.loaded (s : Pager) (p n : ℕ) (old : PageData) : Pager :=
  { s with
    pages := Function.update s.pages p
      { content := osRead s.file old (pageOffset n), key := n, pgno := n, dirty := false, nref := 1 }
    aphash := Chains.push s.aphash (n % nhash) p
    npage := s.npage + 1 }

theorem pagerGet_hit (hfound : s.pcache1Get n = some p) (hnref : (s.pages p).nref + 1 < 2 ^ 31) :
    s.pagerGet n = some (.ok, some p, s.modify p fun d => { d with nref := d.nref + 1 }) := by
  rw [Pager.pagerGet, Pager.pcacheGet, hfound]
  simp only [Pager.addRef, if_pos hnref]
  rfl

theorem pagerGet_lru (hfound : s.pcache1Get n = none) {lru : List ℕ} (hlru : s.lru = p :: lru)
    (hnref : (s.pages p).nref = 0) :
    s.pagerGet n = some (.error, some p, { s with lru := lru }.loaded p n (s.pages p).content) := by
  have hone : 0 + 1 < 2 ^ 31 := by norm_num
  rw [Pager.pagerGet, Pager.pcacheGet, hfound]
  simp only [bind_eq_bind, bind_some, Pager.pcacheFetch, Pager.pcache1Fetch, hfound, hlru,
    Pager.addRef, Pager.pin, Pager.modify, update_self, update_idem, hnref, if_pos hone,
    map_some, Pager.readPage, Pager.loaded]

theorem pagerGet_new (hfound : s.pcache1Get n = none) (hlru : s.lru = []) (hnpage : s.npage < maxPagesInCache) :
    s.pagerGet n = some (.error, some s.made, { s with made := s.made + 1 }.loaded s.made n .zero) := by
  have hone : 0 + 1 < 2 ^ 31 := by norm_num
  rw [Pager.pagerGet, Pager.pcacheGet, hfound]
  simp only [bind_eq_bind, bind_some, Pager.pcacheFetch, Pager.pcache1Fetch, hfound, hlru,
    if_neg (not_le.2 hnpage), Pager.addRef, Pager.pin, Pager.modify, update_self, update_idem,
    if_pos hone, map_some, Pager.readPage, Pager.loaded]

theorem Pager.Ok.loaded (h : s.Ok) (hp : (s.pages p).nref = 0) (hn : 1 ≤ n)
    (hnew : ∀ q, 0 < (s.pages q).nref → (s.pages q).pgno ≠ n) {lru : List ℕ} {made : ℕ} (hlru : lru.Nodup)
    (hmem : ∀ q, q ∈ lru ↔ q < made ∧ q ≠ p ∧ (s.pages q).nref = 0) (hmade : s.made ≤ made) (hlt : p < made)
    (old : PageData) : (Pager.loaded { s with lru := lru, made := made } p n old).Ok := by
  set s' := Pager.loaded { s with lru := lru, made := made } p n old with hs'
  have hself : s'.pages p =
      { content := osRead s.file old (pageOffset n), key := n, pgno := n, dirty := false, nref := 1 } :=
    update_self ..
  have hother : ∀ q, q ≠ p → s'.pages q = s.pages q := fun q hq => update_of_ne hq ..
  have hne : ∀ q, 0 < (s.pages q).nref → q ≠ p := fun q hq heq => by
    rw [heq, hp] at hq
    exact Nat.lt_irrefl 0 hq
  have hnotin : p ∉ s.aphash.flatten := fun hin => hne p ((h.mem_hash p).1 hin) rfl
  have hbucket : n % nhash < s.aphash.length := by
    rw [h.length]
    exact Nat.mod_lt _ (by decide)
  have hperm : s'.aphash.flatten.Perm (p :: s.aphash.flatten) := Chains.flatten_push hbucket
  have hclean : (s.pages p).dirty = false := by
    by_contra hdirty
    have := h.dirty p (by simpa using hdirty)
    omega
  refine ⟨?_, ?_, ?_, ?_, fun q => ?_, hlru, fun q => ?_, fun q hq => ?_, fun q hq => ?_, fun q r hq hr => ?_,
    h.pdirty_nodup, fun q => ?_, fun q hq => ?_⟩
  · exact Chains.length_push.trans h.length
  · refine Chains.Placed.push ?_ hbucket (by rw [hself])
    intro i chain hi q hq
    dsimp only
    rw [hother q (hne q ((h.mem_hash q).1 (mem_flatten.2 ⟨chain, mem_of_getElem? hi, hq⟩)))]
    exact h.placed i chain hi q hq
  · exact hperm.nodup_iff.2 (nodup_cons.2 ⟨hnotin, h.nodup⟩)
  · rw [hperm.length_eq, length_cons, ← h.npage]
    rfl
  · rw [hperm.mem_iff, mem_cons]
    by_cases hq : q = p
    · rw [hq, hself]
      simp
    · rw [hother q hq, or_iff_right hq]
      exact h.mem_hash q
  · refine (hmem q).trans ?_
    by_cases hq : q = p
    · rw [hq, hself]
      simp
    · rw [hother q hq]
      simp [hq, hs', Pager.loaded]
  · have hqp : q ≠ p := (lt_of_lt_of_le hlt hq).ne'
    rw [hother q hqp]
    exact h.fresh q (hmade.trans hq)
  · by_cases hqp : q = p
    · rw [hqp, hself]
      exact ⟨rfl, hn⟩
    · rw [hother q hqp] at hq ⊢
      exact h.key_eq q hq
  · by_cases hqp : q = p <;> by_cases hrp : r = p
    · exact fun _ => hqp.trans hrp.symm
    · rw [hother r hrp] at hr ⊢
      rw [hqp, hself]
      exact fun heq => absurd heq.symm (hnew r hr)
    · rw [hother q hqp] at hq ⊢
      rw [hrp, hself]
      exact fun heq => absurd heq (hnew q hq)
    · rw [hother q hqp] at hq ⊢
      rw [hother r hrp] at hr ⊢
      exact h.unique q r hq hr
  · refine (h.mem_pdirty q).trans ?_
    by_cases hqp : q = p
    · rw [hqp, hself, hclean]
    · rw [hother q hqp]
  · by_cases hqp : q = p
    · rw [hqp, hself]
      exact Nat.one_pos
    · rw [hother q hqp] at hq ⊢
      exact h.dirty q hq

/-! ### Releasing a page -/

def Pager.unpinned (s : Pager) (p : ℕ) (aphash : List (List ℕ)) : Pager :=
  { s.modify p fun d => { d with nref := 0 } with
    aphash := aphash
    npage := s.npage - 1
    lru := p :: s.lru }

theorem Pager.Ok.unref_last (h : s.Ok) (hp : (s.pages p).nref = 1) (hclean : (s.pages p).dirty = false) :
    ∃ aphash, s.pagerUnref p = some (s.unpinned p aphash) ∧ aphash.length = nhash ∧
      Chains.Placed (fun q => (s.pages q).key % nhash) aphash ∧
      s.aphash.flatten.Perm (p :: aphash.flatten) := by
  have hmem : p ∈ s.aphash.flatten := (h.mem_hash p).2 (by omega)
  obtain ⟨chain, hchain, hin⟩ := h.placed.mem_chain hmem
  obtain ⟨front, back, hflat, hset⟩ := Chains.exists_frame hchain
  refine ⟨s.aphash.set ((s.pages p).key % nhash) (chain.erase p), ?_, by rw [length_set, h.length], ?_, ?_⟩
  · simp only [Pager.pagerUnref, Pager.pcacheRelease, Pager.modify, update_self, hp, hclean,
      Pager.pcache1Unpin, Pager.pcache1RemoveFromHash, hchain, getD_some, Pager.unpinned]
    rw [if_neg (by simp), if_pos trivial, if_neg (by simp), if_pos (by simpa using hin)]
    rfl
  · exact h.placed.set fun q hq => h.placed _ chain hchain q (mem_of_mem_erase hq)
  · rw [hset, hflat]
    have hperm : (front ++ chain ++ back).Perm (front ++ (p :: chain.erase p) ++ back) :=
      ((perm_cons_erase hin).append_left front).append_right back
    refine hperm.trans ?_
    rw [append_assoc, append_assoc]
    exact perm_middle

theorem Pager.Ok.unpinned (h : s.Ok) (hp : (s.pages p).nref = 1) (hclean : (s.pages p).dirty = false)
    {aphash : List (List ℕ)} (hlength : aphash.length = nhash)
    (hplaced : Chains.Placed (fun q => (s.pages q).key % nhash) aphash)
    (hperm : s.aphash.flatten.Perm (p :: aphash.flatten)) : (s.unpinned p aphash).Ok := by
  have hself : (s.unpinned p aphash).pages p = { s.pages p with nref := 0 } := update_self ..
  have hother : ∀ q, q ≠ p → (s.unpinned p aphash).pages q = s.pages q := fun q hq => update_of_ne hq ..
  have hkey : ∀ q, ((s.unpinned p aphash).pages q).key = (s.pages q).key ∧
      ((s.unpinned p aphash).pages q).pgno = (s.pages q).pgno ∧
      ((s.unpinned p aphash).pages q).dirty = (s.pages q).dirty := by
    intro q
    by_cases hq : q = p
    · rw [hq, hself]
      exact ⟨rfl, rfl, rfl⟩
    · rw [hother q hq]
      exact ⟨rfl, rfl, rfl⟩
  have hpos : ∀ q, 0 < ((s.unpinned p aphash).pages q).nref ↔ q ≠ p ∧ 0 < (s.pages q).nref := by
    intro q
    by_cases hq : q = p
    · rw [hq, hself]
      simp
    · rw [hother q hq]
      simp [hq]
  have hnodup := nodup_cons.1 (hperm.nodup_iff.1 h.nodup)
  have hnotlru : p ∉ s.lru := fun hin => by
    have := ((h.mem_lru p).1 hin).2
    omega
  have hmade : p < s.made := by
    by_contra hge
    have := h.fresh p (not_lt.1 hge)
    omega
  refine ⟨hlength, ?_, hnodup.2, ?_, fun q => ?_, nodup_cons.2 ⟨hnotlru, h.lru_nodup⟩, fun q => ?_,
    fun q hq => ?_, fun q hq => ?_, fun q r hq hr => ?_, h.pdirty_nodup, fun q => ?_, fun q hq => ?_⟩
  · intro i chain hi q hq
    dsimp only
    rw [(hkey q).1]
    exact hplaced i chain hi q hq
  · change s.npage - 1 = aphash.flatten.length
    rw [h.npage, hperm.length_eq]
    rfl
  · rw [hpos q, ← h.mem_hash q, hperm.mem_iff, mem_cons]
    constructor
    · intro hq
      exact ⟨fun heq => hnodup.1 (heq ▸ hq), Or.inr hq⟩
    · rintro ⟨hqp, hq⟩
      exact hq.resolve_left hqp
  · have hzero : ((s.unpinned p aphash).pages q).nref = 0 ↔ q = p ∨ (s.pages q).nref = 0 := by
      have := hpos q
      by_cases hq : q = p
      · simp [hq, hself]
      · simp only [hq, ne_eq, not_false_eq_true, true_and, false_or] at this ⊢
        omega
    rw [hzero]
    change q ∈ p :: s.lru ↔ q < s.made ∧ _
    rw [mem_cons, h.mem_lru q]
    constructor
    · rintro (rfl | hq)
      · exact ⟨hmade, Or.inl rfl⟩
      · exact ⟨hq.1, Or.inr hq.2⟩
    · rintro ⟨hq, rfl | hq'⟩
      · exact Or.inl rfl
      · exact Or.inr ⟨hq, hq'⟩
  · rw [hother q (lt_of_lt_of_le hmade hq).ne']
    exact h.fresh q hq
  · rw [(hkey q).1, (hkey q).2.1]
    exact h.key_eq q ((hpos q).1 hq).2
  · rw [(hkey q).2.1, (hkey r).2.1]
    exact h.unique q r ((hpos q).1 hq).2 ((hpos r).1 hr).2
  · rw [(hkey q).2.2]
    exact h.mem_pdirty q
  · rw [(hkey q).2.2] at hq
    refine (hpos q).2 ⟨?_, h.dirty q hq⟩
    rintro rfl
    rw [hclean] at hq
    cases hq

/-! ### Writing and committing -/

theorem Pager.Ok.setDirty (h : s.Ok) (hp : 0 < (s.pages p).nref) (dirty : Bool) {pdirty : List ℕ}
    (hnodup : pdirty.Nodup) (hself : p ∈ pdirty ↔ dirty = true) (hother : ∀ q, q ≠ p → (q ∈ pdirty ↔ q ∈ s.pdirty))
    (file : Bytes) :
    Pager.Ok { s.modify p fun d => { d with dirty := dirty } with file := file, pdirty := pdirty } := by
  have hpages : ∀ q, ((s.modify p fun d => { d with dirty := dirty }).pages q) =
      { s.pages q with dirty := if q = p then dirty else (s.pages q).dirty } := by
    intro q
    rw [Pager.pages_modify]
    split <;> rfl
  refine ⟨h.length, ?_, h.nodup, h.npage, fun q => ?_, h.lru_nodup, fun q => ?_, fun q hq => ?_, fun q hq => ?_,
    fun q r hq hr => ?_, hnodup, fun q => ?_, fun q hq => ?_⟩
  · intro i chain hi q hq
    dsimp only
    rw [hpages q]
    exact h.placed i chain hi q hq
  · dsimp only
    rw [hpages q]
    exact h.mem_hash q
  · dsimp only
    rw [hpages q]
    exact h.mem_lru q
  · dsimp only
    rw [hpages q]
    exact h.fresh q hq
  · dsimp only at hq ⊢
    rw [hpages q] at hq ⊢
    exact h.key_eq q hq
  · dsimp only at hq hr ⊢
    rw [hpages q] at hq ⊢
    rw [hpages r] at hr ⊢
    exact h.unique q r hq hr
  · dsimp only
    rw [hpages q]
    by_cases hq : q = p
    · rw [hq]
      simpa using hself
    · simpa [hq] using (hother q hq).trans (h.mem_pdirty q)
  · dsimp only at hq ⊢
    rw [hpages q] at hq ⊢
    by_cases hqp : q = p
    · exact hqp ▸ hp
    · exact h.dirty q (by simpa [hqp] using hq)

end Ok

/-! ### What one call keeps -/

def Legal (s : PagerSystem) : PagerEvent → Prop
  | .get pgno => 1 ≤ pgno ∧ pageOffset pgno < 2 ^ 31 ∧
      match s.pager.pcache1Get pgno with
      | some p => (s.pager.pages p).nref + 1 < 2 ^ 31
      | none => s.pager.referenced.length < maxPagesInCache
  | .write page => 0 < (s.pager.pages page).nref
  | .modify page _ => 0 < (s.pager.pages page).nref ∧ (s.pager.pages page).dirty = true
  | .commit => True
  | .unref page => 0 < (s.pager.pages page).nref ∧
      ((s.pager.pages page).nref = 1 → (s.pager.pages page).dirty = false)

def Right (s : PagerSystem) : PagerEvent → Prop
  | .get pgno => ∃ code p pager, s.pager.pagerGet pgno = some (code, some p, pager) ∧
      (pager.pages p).content = s.image pgno
  | _ => True

def NoStale (s : PagerSystem) : PagerEvent → Prop
  | .get pgno =>
    match s.pager.pcache1Get pgno, s.pager.lru with
    | none, p :: _ =>
      ((s.pager.pages p).content.bytes.drop (s.pager.file.length - pageOffset pgno)).all (· == 0) = true
    | _, _ => True
  | _ => True

instance decidableLegal (s : PagerSystem) (e : PagerEvent) : Decidable (Legal s e) := by
  unfold Legal
  split
  · have : Decidable (match s.pager.pcache1Get ‹ℕ› with
        | some p => (s.pager.pages p).nref + 1 < 2 ^ 31
        | none => s.pager.referenced.length < maxPagesInCache) := by
      split <;> infer_instance
    infer_instance
  all_goals infer_instance

instance decidableNoStale (s : PagerSystem) (e : PagerEvent) : Decidable (NoStale s e) := by
  unfold NoStale
  split
  · split <;> infer_instance
  · infer_instance

section Calls

variable {s s' : PagerSystem} {p n : ℕ}

theorem osRead_eq_filePage_iff (file : Bytes) (data : PageData) (n : ℕ) :
    osRead file data (pageOffset n) = filePage file n ↔
      (data.bytes.drop (file.length - pageOffset n)).all (· == 0) = true := by
  rw [osRead, filePage, PageData.mk.injEq, ← data.length_eq, PosixFile.read_eq_window_iff, List.all_eq_true]
  simp only [beq_iff_eq]

theorem zero_all (n : ℕ) : (PageData.zero.bytes.drop n).all (· == 0) = true := by
  rw [List.all_eq_true]
  intro b hb
  rw [beq_iff_eq]
  exact (mem_replicate.1 (mem_of_mem_drop hb)).2

theorem Pager.Ok.npage_eq {s : Pager} (h : s.Ok) : s.npage = s.referenced.length := by
  rw [h.npage]
  refine Perm.length_eq ((perm_ext_iff_of_nodup h.nodup (nodup_range.filter _)).2 fun p => ?_)
  rw [h.mem_hash p, mem_filter, mem_range, decide_eq_true_iff]
  refine ⟨fun hp => ⟨?_, hp⟩, fun hp => hp.2⟩
  by_contra hge
  have := h.fresh p (not_lt.1 hge)
  omega

theorem PagerSystem.Sound.loaded (h : s.Sound) (hp : (s.pager.pages p).nref = 0) (hn : 1 ≤ n)
    (hnew : ∀ q, 0 < (s.pager.pages q).nref → (s.pager.pages q).pgno ≠ n) {lru : List ℕ} {made : ℕ}
    (hlru : lru.Nodup) (hmem : ∀ q, q ∈ lru ↔ q < made ∧ q ≠ p ∧ (s.pager.pages q).nref = 0)
    (hmade : s.pager.made ≤ made) (hlt : p < made) {old : PageData}
    (hread : osRead s.pager.file old (pageOffset n) = s.image n) :
    PagerSystem.Sound
      { s with pager := Pager.loaded { s.pager with lru := lru, made := made } p n old } := by
  have hself : (Pager.loaded { s.pager with lru := lru, made := made } p n old).pages p =
      { content := osRead s.pager.file old (pageOffset n), key := n, pgno := n, dirty := false, nref := 1 } :=
    update_self ..
  have hother : ∀ q, q ≠ p → (Pager.loaded { s.pager with lru := lru, made := made } p n old).pages q =
      s.pager.pages q := fun q hq => update_of_ne hq ..
  refine ⟨h.ok.loaded hp hn hnew hlru hmem hmade hlt old, fun q hq => ?_, fun m hm hclean => ?_⟩
  · dsimp only at hq ⊢
    by_cases hqp : q = p
    · rw [hqp, hself]
      exact hread
    · rw [hother q hqp] at hq ⊢
      exact h.content q hq
  · refine h.file m hm fun q hq => ?_
    have hqp : q ≠ p := by
      rintro rfl
      have := h.ok.dirty q hq
      omega
    have := hclean q
    rw [hother q hqp] at this
    exact this hq

theorem right_iff {code : SqlCode} {pager : Pager} (hget : s.pager.pagerGet n = some (code, some p, pager)) :
    Right s (.get n) ↔ (pager.pages p).content = s.image n := by
  constructor
  · rintro ⟨code', p', pager', hget', hright⟩
    obtain ⟨-, heq⟩ := Prod.mk.inj (some.inj (hget.symm.trans hget'))
    obtain ⟨hp, rfl⟩ := Prod.mk.inj heq
    cases hp
    exact hright
  · intro hright
    exact ⟨code, p, pager, hget, hright⟩

theorem PagerSystem.Sound.congr (h : s.Sound) {pager : Pager} (hok : pager.Ok) (hfile : pager.file = s.pager.file)
    (hpages : ∀ q, (pager.pages q).content = (s.pager.pages q).content ∧
      (pager.pages q).pgno = (s.pager.pages q).pgno ∧
      (0 < (pager.pages q).nref → 0 < (s.pager.pages q).nref) ∧
      ((s.pager.pages q).dirty = true → (pager.pages q).dirty = true)) :
    PagerSystem.Sound { s with pager := pager } := by
  refine ⟨hok, fun q hq => ?_, fun n hn hother => ?_⟩
  · obtain ⟨hcontent, hpgno, hnref, -⟩ := hpages q
    rw [hcontent, hpgno]
    exact h.content q (hnref hq)
  · dsimp only
    rw [hfile]
    refine h.file n hn fun q hq => ?_
    obtain ⟨-, hpgno, -, hdirty⟩ := hpages q
    exact hpgno ▸ hother q (hdirty hq)

theorem PagerSystem.Sound.get_hit (h : s.Sound) (hfound : s.pager.pcache1Get n = some p)
    (hnref : (s.pager.pages p).nref + 1 < 2 ^ 31) :
    Right s (.get n) ∧ ∀ s', s.step (.get n) = some s' → s'.Sound := by
  obtain ⟨hp, hpgno⟩ := h.ok.pcache1Get_iff.1 hfound
  have hget := pagerGet_hit hfound hnref
  have hpos : ∀ q, 0 < ((s.pager.modify p fun d => { d with nref := d.nref + 1 }).pages q).nref ↔
      0 < (s.pager.pages q).nref := by
    intro q
    rw [Pager.pages_modify]
    split
    · next hq => simp [hq, hp]
    · rfl
  have hsame : ∀ q, ((s.pager.modify p fun d => { d with nref := d.nref + 1 }).pages q) =
      { s.pager.pages q with
        nref := ((s.pager.modify p fun d => { d with nref := d.nref + 1 }).pages q).nref } := by
    intro q
    rw [Pager.pages_modify]
    split <;> rfl
  refine ⟨(right_iff hget).2 ?_, fun s' hs' => ?_⟩
  · rw [hsame p]
    exact hpgno ▸ h.content p hp
  · rw [PagerSystem.step, hget] at hs'
    cases hs'
    refine h.congr (h.ok.congr rfl rfl rfl rfl rfl fun q => ⟨hpos q, ?_⟩) rfl fun q => ?_
    · rw [hsame q]
      exact ⟨rfl, rfl, rfl⟩
    · refine ⟨?_, ?_, (hpos q).1, ?_⟩ <;> rw [hsame q]
      exact id

theorem Pager.Ok.mem_tail {s : Pager} (h : s.Ok) {p : ℕ} {lru : List ℕ} (hlru : s.lru = p :: lru) :
    lru.Nodup ∧ ∀ q, q ∈ lru ↔ q < s.made ∧ q ≠ p ∧ (s.pages q).nref = 0 := by
  have hnodup := nodup_cons.1 (hlru ▸ h.lru_nodup)
  refine ⟨hnodup.2, fun q => ?_⟩
  have hmem := h.mem_lru q
  rw [hlru, mem_cons] at hmem
  constructor
  · intro hq
    obtain ⟨hlt, hzero⟩ := hmem.1 (Or.inr hq)
    exact ⟨hlt, fun heq => hnodup.1 (heq ▸ hq), hzero⟩
  · rintro ⟨hlt, hqp, hzero⟩
    exact (hmem.2 ⟨hlt, hzero⟩).resolve_left hqp

theorem PagerSystem.Sound.get (h : s.Sound) (hlegal : Legal s (.get n)) :
    (Right s (.get n) ↔ NoStale s (.get n)) ∧
      (NoStale s (.get n) → ∀ s', s.step (.get n) = some s' → s'.Sound) := by
  obtain ⟨hn, -, hcase⟩ := hlegal
  cases hfound : s.pager.pcache1Get n with
  | some p =>
    rw [hfound] at hcase
    obtain ⟨hright, hkeep⟩ := h.get_hit hfound hcase
    have hstale : NoStale s (.get n) := by simp only [NoStale, hfound]
    exact ⟨iff_of_true hright hstale, fun _ => hkeep⟩
  | none =>
    rw [hfound] at hcase
    have hnew : ∀ q, 0 < (s.pager.pages q).nref → (s.pager.pages q).pgno ≠ n := by
      intro q hq heq
      rw [h.ok.pcache1Get_iff.2 ⟨hq, heq⟩] at hfound
      cases hfound
    -- no page in the cache is that page, so the file has it
    have hfile : filePage s.pager.file n = s.image n := h.file n hn fun q hq => hnew q (h.ok.dirty q hq)
    cases hlru : s.pager.lru with
    | cons p lru =>
      obtain ⟨hlt, hzero⟩ := (h.ok.mem_lru p).1 (hlru ▸ mem_cons_self)
      obtain ⟨hnodup, hmem⟩ := h.ok.mem_tail hlru
      have hget := pagerGet_lru hfound hlru hzero
      have hstale : NoStale s (.get n) ↔
          osRead s.pager.file (s.pager.pages p).content (pageOffset n) = s.image n := by
        rw [← hfile, osRead_eq_filePage_iff]
        simp only [NoStale, hfound, hlru]
      refine ⟨(right_iff hget).trans (Iff.trans ?_ hstale.symm), fun hok s' hs' => ?_⟩
      · simp [Pager.loaded]
      · rw [PagerSystem.step, hget] at hs'
        cases hs'
        exact h.loaded hzero hn hnew hnodup hmem le_rfl hlt (hstale.1 hok)
    | nil =>
      have hget := pagerGet_new hfound hlru (h.ok.npage_eq ▸ hcase)
      have hread : osRead s.pager.file .zero (pageOffset n) = s.image n := by
        rw [← hfile, osRead_eq_filePage_iff]
        exact zero_all _
      have hstale : NoStale s (.get n) := by simp only [NoStale, hfound, hlru]
      refine ⟨iff_of_true ((right_iff hget).2 ?_) hstale, fun _ s' hs' => ?_⟩
      · simpa [Pager.loaded] using hread
      · rw [PagerSystem.step, hget] at hs'
        cases hs'
        refine h.loaded (h.ok.fresh _ le_rfl) hn hnew (hlru ▸ nodup_nil) (fun q => ?_) (Nat.le_succ _)
          (Nat.lt_succ_self _) hread
        -- every slot that was made is referenced
        have hmem := h.ok.mem_lru q
        rw [hlru] at hmem ⊢
        refine iff_of_false not_mem_nil ?_
        rintro ⟨hlt, hne, hzero⟩
        exact not_mem_nil (hmem.2 ⟨by omega, hzero⟩)

theorem PagerSystem.Sound.write (h : s.Sound) (hp : 0 < (s.pager.pages p).nref) :
    ∃ s', s.step (.write p) = some s' ∧ s'.Sound := by
  rw [PagerSystem.step, Pager.pagerWrite, Pager.pcacheMakeDirty, if_neg hp.ne']
  split
  · exact ⟨s, rfl, h⟩
  · next hclean =>
    have hnot : p ∉ s.pager.pdirty := fun hin => hclean ((h.ok.mem_pdirty p).1 hin)
    have hok := h.ok.setDirty hp true (nodup_cons.2 ⟨hnot, h.ok.pdirty_nodup⟩)
      (iff_of_true mem_cons_self rfl) (fun q hq => mem_cons.trans (or_iff_right hq)) s.pager.file
    refine ⟨_, rfl, h.congr hok rfl fun q => ?_⟩
    rw [Pager.pages_modify]
    split
    · exact ⟨rfl, rfl, id, fun _ => rfl⟩
    · exact ⟨rfl, rfl, id, id⟩

theorem PagerSystem.Sound.modify (h : s.Sound) (hp : 0 < (s.pager.pages p).nref)
    (hdirty : (s.pager.pages p).dirty = true) (data : PageData) :
    ∃ s', s.step (.modify p data) = some s' ∧ s'.Sound := by
  have hpages : ∀ q, (s.pager.modify p fun d => { d with content := data }).pages q =
      { s.pager.pages q with content := if q = p then data else (s.pager.pages q).content } := by
    intro q
    rw [Pager.pages_modify]
    split <;> rfl
  refine ⟨_, rfl, h.ok.congr rfl rfl rfl rfl rfl fun q => ?_, fun q hq => ?_, fun n hn hother => ?_⟩
  · dsimp only
    rw [hpages q]
    exact ⟨Iff.rfl, rfl, rfl, rfl⟩
  · dsimp only at hq ⊢
    rw [hpages q] at hq ⊢
    by_cases hqp : q = p
    · rw [if_pos hqp, hqp, update_self]
    · have hne : (s.pager.pages q).pgno ≠ (s.pager.pages p).pgno := fun heq =>
        hqp (h.ok.unique q p hq hp heq)
      rw [if_neg hqp, update_of_ne hne]
      exact h.content q hq
  · have hother' : ∀ q, (s.pager.pages q).dirty = true → (s.pager.pages q).pgno ≠ n := by
      intro q hq
      have := hother q
      rw [hpages q] at this
      exact this hq
    dsimp only
    rw [update_of_ne (hother' p hdirty).symm]
    exact h.file n hn hother'

theorem filePage_write {file : Bytes} {m : ℕ} (hm : 1 ≤ m) (hn : 1 ≤ n) (data : PageData) :
    filePage (PosixFile.write file (pageOffset m) data.bytes) n = if n = m then data else filePage file n := by
  unfold filePage
  split
  · next heq =>
    subst heq
    rw [PageData.mk.injEq, ← data.length_eq]
    exact PosixFile.window_write_self
  · next hne =>
    rw [PageData.mk.injEq]
    apply PosixFile.window_write_of_apart
    rw [data.length_eq]
    simp only [pageOffset, sqlDefaultPageSize, sqlDatabaseHeaderSize]
    omega

theorem PagerSystem.Sound.commit_one (h : s.Sound) (hp : (s.pager.pages p).dirty = true) :
    PagerSystem.Sound { s with pager := (s.pager.pagerWritePage p).pcacheMakeClean p } ∧
      ((s.pager.pagerWritePage p).pcacheMakeClean p).pdirty = s.pager.pdirty.erase p := by
  have hnref := h.ok.dirty p hp
  have hmem : ∀ q, q ∈ s.pager.pdirty.erase p ↔ q ≠ p ∧ q ∈ s.pager.pdirty := fun q =>
    h.ok.pdirty_nodup.mem_erase_iff
  set file := PosixFile.write s.pager.file (pageOffset (s.pager.pages p).pgno)
    (s.pager.pages p).content.bytes with hfile
  have heq : (s.pager.pagerWritePage p).pcacheMakeClean p =
      { s.pager.modify p fun d => { d with dirty := false } with
        file := file, pdirty := s.pager.pdirty.erase p } := if_pos hp
  have hok := h.ok.setDirty hnref false (h.ok.pdirty_nodup.erase p)
    (iff_of_false (fun hin => ((hmem p).1 hin).1 rfl) Bool.false_ne_true)
    (fun q hq => (hmem q).trans (and_iff_right hq)) file
  have hpages : ∀ q, (s.pager.modify p fun d => { d with dirty := false }).pages q =
      { s.pager.pages q with dirty := if q = p then false else (s.pager.pages q).dirty } := by
    intro q
    rw [Pager.pages_modify]
    split <;> rfl
  rw [heq]
  refine ⟨⟨hok, fun q hq => ?_, fun n hn hother => ?_⟩, rfl⟩
  · dsimp only at hq ⊢
    rw [hpages q] at hq ⊢
    exact h.content q hq
  · dsimp only
    rw [hfile, filePage_write (h.ok.key_eq p hnref).2 hn]
    split
    · next hpgno => rw [hpgno, h.content p hnref]
    · next hpgno =>
      refine h.file n hn fun q hq => ?_
      by_cases hqp : q = p
      · exact hqp ▸ Ne.symm hpgno
      · have := hother q
        rw [hpages q] at this
        exact this (by simpa [hqp] using hq)

theorem PagerSystem.Sound.commit (h : s.Sound) : ∃ s', s.step .commit = some s' ∧ s'.Sound := by
  refine ⟨_, rfl, ?_⟩
  have hloop : ∀ (l : List ℕ) (pager : Pager), PagerSystem.Sound { s with pager := pager } → pager.pdirty = l →
      PagerSystem.Sound
        { s with pager := l.foldl (fun pager p => (pager.pagerWritePage p).pcacheMakeClean p) pager } := by
    intro l
    induction l with
    | nil => exact fun pager hpager _ => hpager
    | cons p l ih =>
      intro pager hpager hl
      have hp : (pager.pages p).dirty = true := (hpager.ok.mem_pdirty p).1 (hl ▸ mem_cons_self)
      obtain ⟨hnext, hrest⟩ := hpager.commit_one hp
      exact ih _ hnext (by rw [hrest, hl, erase_cons_head])
  exact hloop s.pager.pdirty s.pager h rfl

theorem PagerSystem.Sound.unref (h : s.Sound) (hp : 0 < (s.pager.pages p).nref)
    (hclean : (s.pager.pages p).nref = 1 → (s.pager.pages p).dirty = false) :
    ∃ s', s.step (.unref p) = some s' ∧ s'.Sound := by
  by_cases hone : (s.pager.pages p).nref = 1
  · obtain ⟨aphash, hunref, hlength, hplaced, hperm⟩ := h.ok.unref_last hone (hclean hone)
    refine ⟨_, by rw [PagerSystem.step, hunref]; rfl,
      h.congr (h.ok.unpinned hone (hclean hone) hlength hplaced hperm) rfl fun q => ?_⟩
    change ((s.pager.modify p fun d => { d with nref := 0 }).pages q).content = _ ∧ _
    rw [Pager.unpinned, Pager.pages_modify]
    split
    · exact ⟨rfl, rfl, fun hq => absurd hq (Nat.lt_irrefl 0), id⟩
    · exact ⟨rfl, rfl, id, id⟩
  · -- other references are left
    have hrest : s.pager.pagerUnref p = some (s.pager.modify p fun d => { d with nref := d.nref - 1 }) := by
      simp only [Pager.pagerUnref, Pager.pcacheRelease, if_neg hp.ne', Pager.pages_modify, if_pos]
      rw [if_neg (by omega)]
    refine ⟨{ s with pager := s.pager.modify p fun d => { d with nref := d.nref - 1 } },
      by rw [PagerSystem.step, hrest]; rfl, h.congr (h.ok.congr rfl rfl rfl rfl rfl fun q => ?_) rfl fun q => ?_⟩
    · rw [Pager.pages_modify]
      split
      · next hq =>
        subst hq
        exact ⟨by dsimp only; omega, rfl, rfl, rfl⟩
      · exact ⟨Iff.rfl, rfl, rfl, rfl⟩
    · rw [Pager.pages_modify]
      split
      · next hq =>
        subst hq
        exact ⟨rfl, rfl, fun _ => hp, id⟩
      · exact ⟨rfl, rfl, id, id⟩

theorem PagerSystem.Sound.step (h : s.Sound) {e : PagerEvent} (hlegal : Legal s e) (hstale : NoStale s e) :
    ∃ s', s.step e = some s' ∧ s'.Sound := by
  cases e with
  | get n =>
    obtain ⟨hiff, hkeep⟩ := h.get hlegal
    obtain ⟨code, p, pager, hget, -⟩ := hiff.2 hstale
    have hstep : s.step (.get n) = some { s with pager := pager } := by
      rw [PagerSystem.step, hget]
      rfl
    exact ⟨_, hstep, hkeep hstale _ hstep⟩
  | write p => exact h.write hlegal
  | modify p data => exact h.modify hlegal.1 hlegal.2 data
  | commit => exact h.commit
  | unref p => exact h.unref hlegal.1 hlegal.2

end Calls

/-! ### When all pages are right -/

theorem pages_right_iff (file : Bytes) (es : List PagerEvent)
    (hlegal : Lts.Along PagerSystem.step Legal (PagerSystem.pagerOpen file) es) :
    Lts.Along PagerSystem.step Right (PagerSystem.pagerOpen file) es ↔
      Lts.Along PagerSystem.step NoStale (PagerSystem.pagerOpen file) es := by
  refine Lts.Along.iff_of_invariant (fun s e hs hG => ⟨?_, fun hstale s' hs' => ?_⟩) (sound_pagerOpen file) hlegal
  · cases e with
    | get n => exact (hs.get hG).1
    | write p => exact Iff.rfl
    | modify p data => exact Iff.rfl
    | commit => exact Iff.rfl
    | unref p => exact Iff.rfl
  · obtain ⟨t, ht, hsound⟩ := hs.step hG hstale
    exact some.inj (ht.symm.trans hs') ▸ hsound

def onePage : Bytes := replicate sqlDefaultPageSize 65

def writtenAgain : List PagerEvent :=
  [.get 1, .write 0, .modify 0 ⟨replicate sqlDefaultPageSize 66, length_replicate⟩, .commit, .unref 0,
    .get 1]

theorem pages_right_writtenAgain :
    Lts.Along PagerSystem.step Right (PagerSystem.pagerOpen onePage) writtenAgain :=
  (pages_right_iff onePage writtenAgain (by decide +kernel)).2 (by decide +kernel)

def gotBehindEnd : List PagerEvent := [.get 1, .unref 0, .get 2]

theorem stale_bytes_behindEnd :
    Lts.Along PagerSystem.step Legal (PagerSystem.pagerOpen onePage) gotBehindEnd ∧
      (Lts.run PagerSystem.step (PagerSystem.pagerOpen onePage) gotBehindEnd).map (fun s =>
        ((s.pager.pages 0).pgno, (s.pager.pages 0).content.bytes.head?, (s.image 2).bytes.head?)) =
        some (2, some 65, some 0) := by
  decide +kernel

end SqliteDemo
