/-
**The list of unpinned pages (`pcache1.c`).**

The list is meant to be doubly linked and ordered by the time since the last use.  `_pcache1AddRemoveLRU` however
puts a page in front of the list, and does not link the page that was first back to it.
-/

import BackendProgramming.DoublyLinked
import BackendProgramming.Pager

set_option autoImplicit false

namespace SqliteDemo

open DoublyLinked Function List Option

/-! ### The cache -/

structure PgHdr1 where
  key : ℕ := 0
  plruNext : Option ℕ := none
  plruPrev : Option ℕ := none
  deriving DecidableEq

structure PCache1 where
  mxPages : ℕ
  pages : ℕ → PgHdr1 := fun _ => {}
  made : ℕ := 0
  aphash : List (List ℕ) := replicate nhash []
  npage : ℕ := 0
  plruHead : Option ℕ := none
  plruTail : Option ℕ := none

namespace PCache1

def modify (c : PCache1) (p : ℕ) (f : PgHdr1 → PgHdr1) : PCache1 :=
  { c with pages := update c.pages p (f (c.pages p)) }

def modifyAt (c : PCache1) (p : Option ℕ) (f : PgHdr1 → PgHdr1) : PCache1 :=
  match p with
  | some p => c.modify p f
  | none => c

def lruAdd (c : PCache1) (page : ℕ) : PCache1 :=
  let c := c.modify page fun p => { p with plruNext := c.plruHead, plruPrev := none }
  let c := { c with plruHead := some page }
  if c.plruTail = none then { c with plruTail := some page } else c

def lruRemove (c : PCache1) (page : ℕ) : PCache1 :=
  let c := c.modifyAt (c.pages page).plruPrev fun p => { p with plruNext := (c.pages page).plruNext }
  let c := c.modifyAt (c.pages page).plruNext fun p => { p with plruPrev := (c.pages page).plruPrev }
  let c := if c.plruHead = some page then { c with plruHead := (c.pages page).plruNext } else c
  if c.plruTail = some page then { c with plruTail := (c.pages page).plruPrev } else c

def get (c : PCache1) (key : ℕ) : Option ℕ :=
  (c.aphash[key % nhash]?.getD []).find? fun p => (c.pages p).key == key

def pin (c : PCache1) (p key : ℕ) : PCache1 :=
  { c.modify p fun d => { d with key := key } with
    aphash := Chains.push c.aphash (key % nhash) p
    npage := c.npage + 1 }

def fetch (c : PCache1) (key : ℕ) : Option ℕ × PCache1 :=
  match c.get key with
  | some p => (some p, c)
  | none =>
    match c.plruHead with
    | some p => (some p, (c.lruRemove p).pin p key)
    | none =>
      if c.mxPages ≤ c.npage then (none, c)
      else (some c.made, ({ c with made := c.made + 1 }.modify c.made fun _ => {}).pin c.made key)

def removeFromHash (c : PCache1) (p : ℕ) : Option PCache1 :=
  let h := (c.pages p).key % nhash
  let chain := c.aphash[h]?.getD []
  if chain.contains p then some { c with aphash := c.aphash.set h (chain.erase p), npage := c.npage - 1 } else none

def unpin (c : PCache1) (p : ℕ) : Option PCache1 := (c.removeFromHash p).map fun c => c.lruAdd p

def Unpinned (c : PCache1) (p : ℕ) : Prop := p < c.made ∧ p ∉ c.aphash.flatten

def next (c : PCache1) (p : ℕ) : Option ℕ := (c.pages p).plruNext

def prev (c : PCache1) (p : ℕ) : Option ℕ := (c.pages p).plruPrev

def LinksRight (c : PCache1) : Prop :=
  ∃ l, Segment c.next c.prev none l none ∧ l.Nodup ∧ c.plruHead = l.head? ∧ c.plruTail = l.getLast? ∧
    ∀ p, p ∈ l ↔ c.Unpinned p

end PCache1

/-! ### The system -/

structure LruSystem where
  cache : PCache1
  clock : ℕ := 0
  lastUnpin : ℕ → ℕ := fun _ => 0

inductive LruEvent where
  | fetch (key : ℕ)
  | unpin (page : ℕ)
  deriving DecidableEq

def LruSystem.step (s : LruSystem) : LruEvent → Option LruSystem
  | .fetch key => some { s with cache := (s.cache.fetch key).2 }
  | .unpin page => (s.cache.unpin page).map fun c =>
    ⟨c, s.clock + 1, update s.lastUnpin page s.clock⟩

def LruSystem.create (mxPages : ℕ) : LruSystem := { cache := { mxPages := mxPages } }

/-! ### What the links are -/

def Chained (next : ℕ → Option ℕ) : List ℕ → Prop
  | [] => True
  | p :: l => next p = l.head? ∧ Chained next l

theorem Chained.congr {next next' : ℕ → Option ℕ} {l : List ℕ} (h : Chained next l)
    (hnext : ∀ p ∈ l, next' p = next p) : Chained next' l := by
  induction l with
  | nil => trivial
  | cons p l ih =>
    rw [forall_mem_cons] at hnext
    exact ⟨hnext.1.trans h.1, ih h.2 hnext.2⟩

namespace PCache1

structure Lru (c : PCache1) (l : List ℕ) : Prop where
  head : c.plruHead = l.head?
  tail : c.plruTail = l.getLast?
  next : Chained c.next l
  prev : ∀ p ∈ l, c.prev p = none
  nodup : l.Nodup
  mem : ∀ p, p ∈ l ↔ c.Unpinned p
  length : c.aphash.length = nhash
  table : c.aphash.flatten.Nodup
  lt_made : ∀ p ∈ c.aphash.flatten, p < c.made

section Lru

variable {c c' : PCache1} {l : List ℕ} {p key : ℕ}

theorem lru_create (mxPages : ℕ) : Lru { mxPages := mxPages } [] := by
  have hempty : (replicate nhash ([] : List ℕ)).flatten = [] := by simp
  refine ⟨rfl, rfl, trivial, by simp, nodup_nil, fun p => ?_, length_replicate, ?_, ?_⟩
  · exact iff_of_false not_mem_nil fun h => Nat.not_lt_zero p h.1
  · rw [hempty]
    exact nodup_nil
  · rw [hempty]
    simp

theorem modify_eq (c : PCache1) (p : ℕ) (f : PgHdr1 → PgHdr1) :
    c.modify p f = { c with pages := fun q => if q = p then f (c.pages q) else c.pages q } := by
  unfold PCache1.modify
  congr 1
  funext q
  by_cases hq : q = p
  · subst hq
    simp
  · simp [hq]

theorem modifyAt_eq (c : PCache1) (x : Option ℕ) (f : PgHdr1 → PgHdr1) :
    c.modifyAt x f = { c with pages := fun q => if x = some q then f (c.pages q) else c.pages q } := by
  cases x with
  | none => simp [PCache1.modifyAt]
  | some p =>
    rw [PCache1.modifyAt, modify_eq]
    simp only [some.injEq, eq_comm]

theorem lruRemove_head (h : c.Lru (p :: l)) :
    c.lruRemove p = { c.modifyAt l.head? fun q => { q with plruPrev := none } with
      plruHead := l.head?, plruTail := l.getLast? } := by
  have hnot : p ∉ l := (nodup_cons.1 h.nodup).1
  have hprev : (c.pages p).plruPrev = none := h.prev p mem_cons_self
  have hnext : (c.pages p).plruNext = l.head? := h.next.1
  have hne : l.head? ≠ some p := fun heq => hnot (mem_of_mem_head? heq)
  have hhead : c.plruHead = some p := h.head
  -- the tail is the page itself only if it is the last one
  have htail : c.plruTail = some p ∧ l.getLast? = none ∨ c.plruTail ≠ some p ∧ c.plruTail = l.getLast? := by
    rw [h.tail, getLast?_cons]
    cases hl : l.getLast? with
    | none => exact .inl ⟨rfl, rfl⟩
    | some q =>
      refine .inr ⟨fun heq => hnot ?_, rfl⟩
      exact some.inj heq ▸ mem_of_mem_getLast? hl
  unfold PCache1.lruRemove
  simp only [hprev, hnext, modifyAt_eq, reduceCtorEq, if_false, hne, hhead, if_true]
  rcases htail with ⟨hlast, hnone⟩ | ⟨hother, hlast⟩
  · rw [if_pos hlast, hnone]
  · rw [if_neg hother, hlast]

theorem lruAdd_eq (hhead : c.plruHead = l.head?) (htail : c.plruTail = l.getLast?) (p : ℕ) :
    c.lruAdd p = { c.modify p fun q => { q with plruNext := l.head?, plruPrev := none } with
      plruHead := some p, plruTail := (p :: l).getLast? } := by
  unfold PCache1.lruAdd
  simp only [modify_eq, hhead, htail, getLast?_cons]
  cases hl : l.getLast? with
  | none => simp
  | some q => simp

theorem Lru.fetch (h : c.Lru l) (key : ℕ) :
    (∃ p, c.get key = some p ∧ c.fetch key = (some p, c)) ∨
    (∃ p l', l = p :: l' ∧ (c.fetch key).1 = some p ∧ (c.fetch key).2.Lru l') ∨
    l = [] ∧ (c.fetch key).2.Lru [] ∧ ∀ p, (c.fetch key).1 = some p → ¬ c.Unpinned p := by
  have hbucket : key % nhash < c.aphash.length := by
    rw [h.length]
    exact Nat.mod_lt _ (by decide)
  rw [PCache1.fetch]
  cases hget : c.get key with
  | some p => exact .inl ⟨p, rfl, rfl⟩
  | none =>
    refine .inr ?_
    cases l with
    | cons p l =>
      refine .inl ⟨p, l, rfl, ?_⟩
      have hhead : c.plruHead = some p := h.head
      have hnot : p ∉ l := (nodup_cons.1 h.nodup).1
      have hunpinned := (h.mem p).1 mem_cons_self
      have hperm := Chains.flatten_push (a := p) hbucket
      rw [hhead]
      refine ⟨rfl, ?_⟩
      dsimp only
      rw [lruRemove_head h, PCache1.pin, modify_eq, modifyAt_eq]
      refine ⟨rfl, rfl, h.next.2.congr fun q hq => ?_, fun q hq => ?_, (nodup_cons.1 h.nodup).2, fun q => ?_,
        Chains.length_push.trans h.length, hperm.nodup_iff.2 (nodup_cons.2 ⟨hunpinned.2, h.table⟩),
        fun q hq => ?_⟩
      · simp only [PCache1.next]
        split <;> split <;> rfl
      · have hqp : q ≠ p := ne_of_mem_of_not_mem hq hnot
        simp only [PCache1.prev, hqp, if_false]
        split
        · rfl
        · exact h.prev q (mem_cons_of_mem p hq)
      · have hmem := h.mem q
        rw [mem_cons, PCache1.Unpinned] at hmem
        rw [PCache1.Unpinned, hperm.mem_iff, mem_cons, not_or]
        constructor
        · intro hq
          have := hmem.1 (.inr hq)
          exact ⟨this.1, ne_of_mem_of_not_mem hq hnot, this.2⟩
        · rintro ⟨hlt, hqp, hq⟩
          exact (hmem.2 ⟨hlt, hq⟩).resolve_left hqp
      · rcases mem_cons.1 (hperm.mem_iff.1 hq) with rfl | hq
        · exact hunpinned.1
        · exact h.lt_made q hq
    | nil =>
      refine .inr ⟨rfl, ?_⟩
      have hhead : c.plruHead = none := h.head
      rw [hhead]
      dsimp only
      split
      · exact ⟨h, by simp⟩
      · have hperm := Chains.flatten_push (a := c.made) hbucket
        have hfresh : c.made ∉ c.aphash.flatten := fun hmem => lt_irrefl _ (h.lt_made _ hmem)
        refine ⟨⟨rfl, h.tail, trivial, by simp, nodup_nil, fun q => ?_,
          Chains.length_push.trans h.length, hperm.nodup_iff.2 (nodup_cons.2 ⟨hfresh, h.table⟩),
          fun q hq => ?_⟩, fun p hp hunpinned => ?_⟩
        · refine iff_of_false not_mem_nil fun hq => ?_
          obtain ⟨hlt, hq⟩ := hq
          have hlt' : q < c.made + 1 := hlt
          have hq' := mt hperm.mem_iff.2 hq
          rw [mem_cons, not_or] at hq'
          exact not_mem_nil ((h.mem q).2 ⟨by omega, hq'.2⟩)
        · rcases mem_cons.1 (hperm.mem_iff.1 hq) with rfl | hq
          · exact Nat.lt_succ_self _
          · exact Nat.lt_succ_of_lt (h.lt_made q hq)
        · cases hp
          exact lt_irrefl _ hunpinned.1

theorem removeFromHash_eq (hlength : c.aphash.length = nhash) (hremove : c.removeFromHash p = some c') :
    ∃ aphash, c' = { c with aphash := aphash, npage := c.npage - 1 } ∧ aphash.length = nhash ∧
      c.aphash.flatten.Perm (p :: aphash.flatten) ∧ ∀ f, Chains.Placed f c.aphash → Chains.Placed f aphash := by
  rw [PCache1.removeFromHash] at hremove
  split at hremove
  · next hin =>
    cases hremove
    have hlt : (c.pages p).key % nhash < c.aphash.length := by
      rw [hlength]
      exact Nat.mod_lt _ (by decide)
    have hchain := getElem?_eq_getElem hlt
    rw [hchain, getD_some] at hin ⊢
    obtain ⟨front, back, hflat, hset⟩ := Chains.exists_frame hchain
    have hcons := ((perm_cons_erase (contains_iff_mem.1 hin)).append_left front).append_right back
    refine ⟨_, rfl, by rw [length_set, hlength], ?_, fun f hf => hf.set fun a ha => ?_⟩
    · rw [hset, hflat]
      refine hcons.trans ?_
      rw [append_assoc, append_assoc]
      exact perm_middle
    · exact hf _ _ hchain a (mem_of_mem_erase ha)
  · cases hremove

theorem Lru.unpin (h : c.Lru l) (hunpin : c.unpin p = some c') : c'.Lru (p :: l) := by
  obtain ⟨c₁, hremove, rfl⟩ := map_eq_some_iff.1 hunpin
  obtain ⟨aphash, rfl, hlength, hperm, -⟩ := removeFromHash_eq h.length hremove
  obtain ⟨hnot, htable⟩ := nodup_cons.1 (hperm.nodup_iff.1 h.table)
  have hpin : p ∈ c.aphash.flatten := hperm.mem_iff.2 mem_cons_self
  have hout : p ∉ l := fun hp => ((h.mem p).1 hp).2 hpin
  rw [lruAdd_eq (c := { c with aphash := aphash, npage := c.npage - 1 }) h.head h.tail, modify_eq]
  refine ⟨rfl, rfl, ⟨by simp [PCache1.next], h.next.congr fun q hq => ?_⟩, fun q hq => ?_,
    nodup_cons.2 ⟨hout, h.nodup⟩, fun q => ?_, hlength, htable, fun q hq => ?_⟩
  · have hqp : q ≠ p := ne_of_mem_of_not_mem hq hout
    simp only [PCache1.next, hqp, if_false]
  · simp only [PCache1.prev]
    split
    · rfl
    · next hqp => exact h.prev q ((mem_cons.1 hq).resolve_left hqp)
  · rw [mem_cons, h.mem q, PCache1.Unpinned, PCache1.Unpinned, hperm.mem_iff, mem_cons, not_or]
    constructor
    · rintro (rfl | ⟨hlt, -, hq⟩)
      · exact ⟨h.lt_made q hpin, hnot⟩
      · exact ⟨hlt, hq⟩
    · rintro ⟨hlt, hq⟩
      by_cases hqp : q = p
      · exact .inl hqp
      · exact .inr ⟨hlt, hqp, hq⟩
  · exact h.lt_made q (hperm.mem_iff.2 (mem_cons_of_mem p hq))

theorem lruAdd_table (c : PCache1) (p : ℕ) :
    (c.lruAdd p).mxPages = c.mxPages ∧ (c.lruAdd p).made = c.made ∧ (c.lruAdd p).aphash = c.aphash ∧
      (c.lruAdd p).npage = c.npage ∧ ∀ q, ((c.lruAdd p).pages q).key = (c.pages q).key := by
  have hkey : ∀ q, ((c.modify p fun d => { d with plruNext := c.plruHead, plruPrev := none }).pages q).key =
      (c.pages q).key := by
    intro q
    rw [modify_eq]
    dsimp only
    split <;> rfl
  unfold PCache1.lruAdd
  dsimp only
  split <;> exact ⟨rfl, rfl, rfl, rfl, hkey⟩

end Lru

end PCache1

/-! ### Runs -/

structure LruSystem.Recent (s : LruSystem) (l : List ℕ) : Prop where
  lru : s.cache.Lru l
  sorted : l.Pairwise fun p q => s.lastUnpin q < s.lastUnpin p
  past : ∀ p ∈ l, s.lastUnpin p < s.clock

def Ordered (s : LruSystem) (e : LruEvent) : Prop :=
  (∀ key p, e = .fetch key → (s.cache.fetch key).1 = some p → s.cache.Unpinned p →
      ∀ q, s.cache.Unpinned q → s.lastUnpin p ≤ s.lastUnpin q) ∧
    ∀ s', s.step e = some s' → s'.cache.LinksRight

def Lone (s : LruSystem) (e : LruEvent) : Prop :=
  ∀ page s', e = .unpin page → s.step e = some s' → s.cache.plruHead = none

section Recent

variable {s s' : LruSystem} {l : List ℕ} {e : LruEvent}

theorem recent_create (mxPages : ℕ) : (LruSystem.create mxPages).Recent [] :=
  ⟨PCache1.lru_create mxPages, List.Pairwise.nil, by simp⟩

theorem PCache1.mem_of_get {c : PCache1} {key p : ℕ} (h : c.get key = some p) : p ∈ c.aphash.flatten := by
  have hmem := mem_of_find?_eq_some h
  cases hchain : c.aphash[key % nhash]? with
  | none =>
    rw [hchain] at hmem
    cases hmem
  | some chain =>
    rw [hchain, getD_some] at hmem
    exact mem_flatten.2 ⟨chain, mem_of_getElem? hchain, hmem⟩

theorem LruSystem.Recent.step (h : s.Recent l) (hstep : s.step e = some s') :
    ∃ l', s'.Recent l' ∧ (l' = l ∨ (∃ p, l = p :: l') ∨ ∃ p, l' = p :: l ∧ e = .unpin p) := by
  cases e with
  | fetch key =>
    cases hstep
    rcases h.lru.fetch key with ⟨p, -, hfetch⟩ | ⟨p, l', rfl, -, hlru⟩ | ⟨rfl, hlru, -⟩
    · refine ⟨l, ⟨?_, h.sorted, h.past⟩, .inl rfl⟩
      rw [hfetch]
      exact h.lru
    · exact ⟨l', ⟨hlru, (pairwise_cons.1 h.sorted).2,
        fun q hq => h.past q (mem_cons_of_mem p hq)⟩, .inr (.inl ⟨p, rfl⟩)⟩
    · exact ⟨[], ⟨hlru, List.Pairwise.nil, by simp⟩, .inl rfl⟩
  | unpin p =>
    obtain ⟨c, hunpin, rfl⟩ := map_eq_some_iff.1 hstep
    have hlru := h.lru.unpin hunpin
    have hnot : p ∉ l := (nodup_cons.1 hlru.nodup).1
    have hother : ∀ q ∈ l, update s.lastUnpin p s.clock q = s.lastUnpin q := fun q hq =>
      update_of_ne (ne_of_mem_of_not_mem hq hnot) _ _
    refine ⟨p :: l, ⟨hlru, pairwise_cons.2 ⟨fun q hq => ?_, ?_⟩, fun q hq => ?_⟩, .inr (.inr ⟨p, rfl, rfl⟩)⟩
    · dsimp only
      rw [hother q hq, update_self]
      exact h.past q hq
    · refine h.sorted.imp_of_mem fun {a b} ha hb hab => ?_
      dsimp only
      rwa [hother a ha, hother b hb]
    · rcases mem_cons.1 hq with rfl | hq
      · dsimp only
        rw [update_self]
        exact Nat.lt_succ_self _
      · dsimp only
        rw [hother q hq]
        exact Nat.lt_succ_of_lt (h.past q hq)

theorem LruSystem.Recent.recycled (h : s.Recent l) {key p : ℕ} (hfetch : (s.cache.fetch key).1 = some p)
    (hunpinned : s.cache.Unpinned p) : ∃ l', l = p :: l' := by
  rcases h.lru.fetch key with ⟨q, hget, heq⟩ | ⟨q, l', rfl, hq, -⟩ | ⟨-, -, hnone⟩
  · rw [heq] at hfetch
    cases hfetch
    exact absurd (PCache1.mem_of_get hget) hunpinned.2
  · obtain rfl := some.inj (hq.symm.trans hfetch)
    exact ⟨l', rfl⟩
  · exact absurd hunpinned (hnone p hfetch)

theorem PCache1.Lru.linksRight {c : PCache1} (h : c.Lru l) (hlen : l.length ≤ 1) : c.LinksRight := by
  refine ⟨l, ?_, h.nodup, h.head, h.tail, h.mem⟩
  match l, hlen with
  | [], _ => trivial
  | [p], _ => exact ⟨h.prev p (mem_singleton_self p), h.next.1, trivial⟩

theorem PCache1.Lru.not_linksRight {c : PCache1} {p q : ℕ} (h : c.Lru (p :: q :: l)) : ¬ c.LinksRight := by
  rintro ⟨l', hlinked, -, hhead, -, -⟩
  rw [h.head] at hhead
  cases l' with
  | nil => cases hhead
  | cons p' l' =>
    obtain rfl : p = p' := some.inj hhead
    obtain ⟨-, hnext, hrest⟩ := hlinked
    rw [h.next.1, or_none] at hnext
    cases l' with
    | nil => cases hnext
    | cons q' l' =>
      obtain rfl : q = q' := some.inj hnext
      have hprev := hrest.1
      rw [h.prev q (by simp)] at hprev
      cases hprev

end Recent

theorem newest_recycled (mxPages : ℕ) (es : List LruEvent) :
    Lts.Along LruSystem.step (fun s e => ∀ key p, e = .fetch key → (s.cache.fetch key).1 = some p →
      s.cache.Unpinned p → ∀ q, s.cache.Unpinned q → s.lastUnpin q ≤ s.lastUnpin p)
      (LruSystem.create mxPages) es := by
  refine Lts.Along.of_invariant (I := fun s => ∃ l, s.Recent l) (fun s e hs _ => ?_) ⟨[], recent_create mxPages⟩
    (Lts.Along.of_true _ es)
  obtain ⟨l, hrecent⟩ := hs
  constructor
  · intro key p _ hfetch hunpinned q hq
    obtain ⟨l', rfl⟩ := hrecent.recycled hfetch hunpinned
    rcases mem_cons.1 ((hrecent.lru.mem q).2 hq) with rfl | hq
    · exact le_rfl
    · exact ((pairwise_cons.1 hrecent.sorted).1 q hq).le
  · intro s' hstep
    obtain ⟨l', hl', -⟩ := hrecent.step hstep
    exact ⟨l', hl'⟩

theorem replacement_right_iff (mxPages : ℕ) (es : List LruEvent) :
    (LruSystem.create mxPages).cache.LinksRight ∧
      (Lts.Along LruSystem.step Ordered (LruSystem.create mxPages) es ↔
        Lts.Along LruSystem.step Lone (LruSystem.create mxPages) es) := by
  refine ⟨(PCache1.lru_create mxPages).linksRight (Nat.zero_le 1), ?_⟩
  refine Lts.Along.iff_of_invariant (G := fun _ _ => True) (I := fun s => ∃ l, s.Recent l ∧ l.length ≤ 1)
    (fun s e hs _ => ?_) ⟨[], recent_create mxPages, Nat.zero_le 1⟩ (Lts.Along.of_true _ es)
  obtain ⟨l, hrecent, hlen⟩ := hs
  -- a call that is right in this respect leaves at most one page on the list
  have hstep : Lone s e → ∀ s', s.step e = some s' → ∃ l', s'.Recent l' ∧ l'.length ≤ 1 := by
    intro hlone s' hstep
    obtain ⟨l', hl', hcases⟩ := hrecent.step hstep
    refine ⟨l', hl', ?_⟩
    rcases hcases with rfl | ⟨p, rfl⟩ | ⟨p, rfl, rfl⟩
    · exact hlen
    · exact (Nat.le_succ _).trans hlen
    · have hhead := hlone p s' rfl hstep
      rw [hrecent.lru.head, head?_eq_none_iff] at hhead
      rw [hhead]
      exact le_rfl
  refine ⟨⟨fun hordered page s' he hs' => ?_, fun hlone => ⟨?_, fun s' hs' => ?_⟩⟩, hstep⟩
  · cases l with
    | nil => exact hrecent.lru.head
    | cons q l =>
      subst he
      obtain ⟨c, hunpin, rfl⟩ := map_eq_some_iff.1 hs'
      exact absurd (hordered.2 _ hs') (hrecent.lru.unpin hunpin).not_linksRight
  · intro key p _ hfetch hunpinned q hq
    obtain ⟨l', rfl⟩ := hrecent.recycled hfetch hunpinned
    obtain rfl : l' = [] := length_eq_zero_iff.1 (by rw [length_cons] at hlen; omega)
    rw [mem_singleton.1 ((hrecent.lru.mem q).2 hq)]
  · obtain ⟨l', hl', hlen'⟩ := hstep hlone s' hs'
    exact hl'.lru.linksRight hlen'

theorem second_page_recycled :
    (Lts.run LruSystem.step (LruSystem.create 4) [.fetch 1, .fetch 2, .unpin 0, .unpin 1]).map
        (fun s => ((s.cache.fetch 3).1, s.lastUnpin 0, s.lastUnpin 1, s.cache.next 1, s.cache.prev 0)) =
      some (some 1, 0, 1, some 0, none) := by
  decide +kernel

/-! ### Accounts -/

namespace PCache1

def OnLru (c : PCache1) (p : ℕ) : Prop :=
  ∃ q, c.plruHead = some q ∧ Relation.ReflTransGen (fun a b => c.next a = some b) q p

structure Accounted (c : PCache1) : Prop where
  place : ∀ p < c.made,
    (∀ i : ℕ, (c.aphash[i]?.getD []).count p = if i = (c.pages p).key % nhash then 1 else 0) ∧ ¬ c.OnLru p ∨
    (∀ i : ℕ, (c.aphash[i]?.getD []).count p = 0) ∧ c.OnLru p
  keys : ∀ p ∈ c.aphash.flatten, ∀ q ∈ c.aphash.flatten, (c.pages p).key = (c.pages q).key → p = q
  npage : c.npage = c.aphash.flatten.toFinset.card
  bound : c.npage + {p | c.OnLru p}.ncard ≤ c.mxPages
  full : ∀ key, (c.fetch key).1 = none → c.aphash.flatten.toFinset.card = c.mxPages

structure Booked (c : PCache1) : Prop where
  placed : Chains.Placed (fun p => (c.pages p).key % nhash) c.aphash
  keys : ∀ p ∈ c.aphash.flatten, ∀ q ∈ c.aphash.flatten, (c.pages p).key = (c.pages q).key → p = q
  npage : c.npage = c.aphash.flatten.length
  made_le : c.made ≤ c.mxPages

variable {c c' : PCache1} {l : List ℕ} {p key : ℕ}

theorem Lru.onLru_iff (h : c.Lru l) : c.OnLru p ↔ p ∈ l := by
  rw [OnLru, h.head]
  have hnext := h.next
  clear h
  induction l with
  | nil => simp
  | cons q l ih =>
    simp only [head?_cons, some.injEq, exists_eq_left', mem_cons]
    rw [Relation.ReflTransGen.cases_head_iff, hnext.1, eq_comm]
    exact or_congr_right (ih hnext.2)

theorem Lru.made_eq (h : c.Lru l) : c.made = l.length + c.aphash.flatten.length := by
  have hperm : (range c.made).Perm (l ++ c.aphash.flatten) := by
    refine (perm_ext_iff_of_nodup nodup_range (h.nodup.append h.table fun p hp => ?_)).2
      fun p => ?_
    · exact ((h.mem p).1 hp).2
    · have hlt := h.lt_made p
      rw [mem_range, mem_append, h.mem, Unpinned]
      tauto
  simpa using hperm.length_eq

theorem Booked.not_key_of_get (h : c.Booked) (hget : c.get key = none) :
    ∀ q ∈ c.aphash.flatten, (c.pages q).key ≠ key := by
  rintro q hq rfl
  obtain ⟨chain, hchain, hmem⟩ := h.placed.mem_chain hq
  rw [PCache1.get, hchain, getD_some, find?_eq_none] at hget
  exact hget q hmem (beq_self_eq_true _)

theorem Booked.push (h : c.Booked) (hlength : c.aphash.length = nhash) (hget : c.get key = none)
    (hp : p ∉ c.aphash.flatten) (haphash : c'.aphash = Chains.push c.aphash (key % nhash) p)
    (hnpage : c'.npage = c.npage + 1) (hself : (c'.pages p).key = key)
    (hother : ∀ q ≠ p, (c'.pages q).key = (c.pages q).key) (hmade : c'.made ≤ c'.mxPages) : c'.Booked := by
  have hbucket : key % nhash < c.aphash.length := by
    rw [hlength]
    exact Nat.mod_lt _ (by decide)
  have hperm := Chains.flatten_push (a := p) hbucket
  have hkey : ∀ q ∈ c.aphash.flatten, (c'.pages q).key = (c.pages q).key := fun q hq =>
    hother q (ne_of_mem_of_not_mem hq hp)
  have hnew := h.not_key_of_get hget
  refine ⟨?_, ?_, by rw [hnpage, haphash, hperm.length_eq, length_cons, h.npage], hmade⟩
  · rw [haphash]
    refine Chains.Placed.push (fun i chain hi q hq => ?_) hbucket (by rw [hself])
    rw [hkey q (mem_flatten.2 ⟨chain, mem_of_getElem? hi, hq⟩)]
    exact h.placed i chain hi q hq
  · intro a ha b hb hab
    rw [haphash, hperm.mem_iff, mem_cons] at ha hb
    rcases ha with rfl | ha <;> rcases hb with rfl | hb
    · rfl
    · exact absurd (by rw [← hkey b hb, ← hab, hself]) (hnew b hb)
    · exact absurd (by rw [← hkey a ha, hab, hself]) (hnew a ha)
    · rw [hkey a ha, hkey b hb] at hab
      exact h.keys a ha b hb hab

theorem Booked.fetch (h : c.Booked) (hlru : c.Lru l) (key : ℕ) : (c.fetch key).2.Booked := by
  rw [PCache1.fetch]
  cases hget : c.get key with
  | some p => exact h
  | none =>
    cases l with
    | cons p l =>
      have hhead : c.plruHead = some p := hlru.head
      rw [hhead]
      dsimp only
      rw [lruRemove_head hlru, modifyAt_eq, PCache1.pin, modify_eq]
      refine h.push hlru.length hget ((hlru.mem p).1 mem_cons_self).2 rfl rfl ?_ (fun q hq => ?_)
        h.made_le
      · simp
      · simp only [hq, if_false]
        split <;> rfl
    | nil =>
      have hhead : c.plruHead = none := hlru.head
      have hmade := hlru.made_eq
      rw [hhead]
      dsimp only
      split
      · exact h
      · next hlt =>
        rw [PCache1.pin, modify_eq, modify_eq]
        refine h.push hlru.length hget (fun hmem => lt_irrefl _ (hlru.lt_made _ hmem)) rfl rfl ?_
          (fun q hq => ?_) ?_
        · simp
        · simp [hq]
        · rw [← h.npage, length_nil] at hmade
          dsimp only
          omega

theorem Booked.unpin (h : c.Booked) (hlru : c.Lru l) (hp : p ∈ c.aphash.flatten) :
    ∃ c', c.unpin p = some c' ∧ c'.Booked := by
  obtain ⟨chain, hchain, hmem⟩ := h.placed.mem_chain hp
  obtain ⟨c₁, hremove⟩ : ∃ c₁, c.removeFromHash p = some c₁ := by
    rw [PCache1.removeFromHash, hchain, getD_some, if_pos (contains_iff_mem.2 hmem)]
    exact ⟨_, rfl⟩
  refine ⟨c₁.lruAdd p, by rw [PCache1.unpin, hremove, map_some], ?_⟩
  obtain ⟨aphash, rfl, -, hperm, hplaced⟩ := removeFromHash_eq hlru.length hremove
  obtain ⟨hmx, hmade, haphash, hnpage, hkey⟩ :=
    lruAdd_table { c with aphash := aphash, npage := c.npage - 1 } p
  have hin : ∀ q ∈ aphash.flatten, q ∈ c.aphash.flatten := fun q hq =>
    hperm.mem_iff.2 (mem_cons_of_mem p hq)
  refine ⟨?_, ?_, ?_, by rw [hmade, hmx]; exact h.made_le⟩
  · simp only [hkey, haphash]
    exact hplaced _ h.placed
  · rw [haphash]
    intro a ha b hb hab
    rw [hkey, hkey] at hab
    exact h.keys a (hin a ha) b (hin b hb) hab
  · rw [hnpage, haphash]
    have := hperm.length_eq
    rw [← h.npage, length_cons] at this
    dsimp only
    omega

theorem Booked.count_chain (h : c.Booked) (hlru : c.Lru l) (p i : ℕ) :
    (c.aphash[i]?.getD []).count p = if p ∈ c.aphash.flatten ∧ i = (c.pages p).key % nhash then 1 else 0 := by
  cases hchain : c.aphash[i]? with
  | none =>
    rw [getElem?_eq_none_iff, hlru.length] at hchain
    have hlt : (c.pages p).key % nhash < nhash := Nat.mod_lt _ (by decide)
    rw [if_neg fun hi => by omega]
    rfl
  | some chain =>
    have hnodup := (nodup_flatten.1 hlru.table).1 chain (mem_of_getElem? hchain)
    rw [getD_some, hnodup.count]
    refine if_congr ⟨fun hp => ?_, fun ⟨hp, hi⟩ => ?_⟩ rfl rfl
    · exact ⟨mem_flatten.2 ⟨chain, mem_of_getElem? hchain, hp⟩, (h.placed i chain hchain p hp).symm⟩
    · obtain ⟨chain', hchain', hmem⟩ := h.placed.mem_chain hp
      rw [← hi, hchain] at hchain'
      exact some.inj hchain' ▸ hmem

theorem Booked.accounted (h : c.Booked) (hlru : c.Lru l) : c.Accounted := by
  have hcard : c.aphash.flatten.toFinset.card = c.npage := by
    rw [toFinset_card_of_nodup hlru.table, h.npage]
  have hmade := hlru.made_eq
  have hle := h.made_le
  rw [← h.npage] at hmade
  refine ⟨fun p hp => ?_, h.keys, hcard.symm, ?_, fun key hnone => ?_⟩
  · have hon := hlru.onLru_iff (p := p)
    rw [hlru.mem, Unpinned] at hon
    by_cases hin : p ∈ c.aphash.flatten
    · refine .inl ⟨fun i => ?_, fun h => (hon.1 h).2 hin⟩
      simp only [h.count_chain hlru, hin, true_and]
    · refine .inr ⟨fun i => ?_, hon.2 ⟨hp, hin⟩⟩
      rw [h.count_chain hlru, if_neg fun h => hin h.1]
  · have hset : {p | c.OnLru p} = (l.toFinset : Set ℕ) := by
      ext q
      simp [hlru.onLru_iff]
    rw [hset, Set.ncard_coe_finset, toFinset_card_of_nodup hlru.nodup]
    omega
  · -- only the branch with an empty list and a full table returns nothing
    rw [PCache1.fetch] at hnone
    split at hnone
    · cases hnone
    · split at hnone
      · cases hnone
      · split at hnone
        · rw [hcard]
          omega
        · cases hnone

end PCache1

def UnpinsPinned (s : LruSystem) : LruEvent → Prop
  | .fetch _ => True
  | .unpin page => page ∈ s.cache.aphash.flatten

instance (s : LruSystem) (e : LruEvent) : Decidable (UnpinsPinned s e) := by
  cases e <;> unfold UnpinsPinned <;> infer_instance

end SqliteDemo
