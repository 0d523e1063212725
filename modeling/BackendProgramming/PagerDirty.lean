/-
**The list of dirty pages (`pcache.c`, `pager.c`).**

A page that will be modified gets the flag `PGHDR_DIRTY` and comes in front of a doubly linked list, and
`pagerCommit` goes along the list, writes each page and takes it from the list.  Of a write the page and the
offset are kept.
-/

import BackendProgramming.PageLru

set_option autoImplicit false

namespace SqliteDemo

open DoublyLinked List

structure PgHdr where
  pgno : ℕ := 0
  dirty : Bool := false
  nref : ℕ := 0
  pdirtyNext : Option ℕ := none
  pdirtyPrev : Option ℕ := none

structure PCache where
  pages : ℕ → PgHdr := fun _ => {}
  pdirtyHead : Option ℕ := none
  pdirtyTail : Option ℕ := none
  pcache : PCache1 := { mxPages := maxPagesInCache }

namespace PCache

def modifyAt (c : PCache) (p : Option ℕ) (f : PgHdr → PgHdr) : PCache :=
  { c with pages := fun q => if p = some q then f (c.pages q) else c.pages q }

def next (c : PCache) (p : ℕ) : Option ℕ := (c.pages p).pdirtyNext

def prev (c : PCache) (p : ℕ) : Option ℕ := (c.pages p).pdirtyPrev

def pcacheGet (c : PCache) (pgno : ℕ) : Option (ℕ × PCache) :=
  (c.pcache.get pgno).map fun p => (p, c.modifyAt (some p) fun d => { d with nref := d.nref + 1 })

def pcacheFetch (c : PCache) (pgno : ℕ) : Option ℕ × PCache :=
  let (page, pcache) := c.pcache.fetch pgno
  (page, { c with pcache := pcache }.modifyAt page fun d =>
    { d with pgno := pgno, dirty := false, nref := d.nref + 1 })

def pcacheRelease (c : PCache) (p : ℕ) : Option PCache :=
  if (c.pages p).nref = 0 then none
  else
    let c := c.modifyAt (some p) fun d => { d with nref := d.nref - 1 }
    if (c.pages p).nref = 0 then
      if (c.pages p).dirty then none else (c.pcache.unpin p).map fun pcache => { c with pcache := pcache }
    else some c

def pcacheMakeDirty (c : PCache) (p : ℕ) : Option PCache :=
  if (c.pages p).nref = 0 then none
  else if (c.pages p).dirty then some c
  else
    let c := c.modifyAt (some p) fun d => { d with dirty := true }
    let c := c.modifyAt c.pdirtyHead fun d => { d with pdirtyPrev := some p }
    let c := c.modifyAt (some p) fun d => { d with pdirtyNext := c.pdirtyHead, pdirtyPrev := none }
    some { c with pdirtyHead := some p }

def pcacheMakeClean (c : PCache) (p : ℕ) : PCache :=
  if (c.pages p).dirty then
    let c := c.modifyAt (c.prev p) fun d => { d with pdirtyNext := c.next p }
    let c := c.modifyAt (c.next p) fun d => { d with pdirtyPrev := c.prev p }
    let c := { c with
      pdirtyHead := if c.pdirtyHead = some p then c.next p else c.pdirtyHead
      pdirtyTail := if c.pdirtyTail = some p then c.prev p else c.pdirtyTail }
    c.modifyAt (some p) fun d => { d with pdirtyNext := none, pdirtyPrev := none, dirty := !d.dirty }
  else c

def pagerGet (c : PCache) (pgno : ℕ) : Option ℕ × PCache :=
  match c.pcacheGet pgno with
  | some (p, c) => (some p, c)
  | none =>
    let (page, c) := c.pcacheFetch pgno
    (page, c.modifyAt page fun d => { d with pgno := pgno, dirty := false, pdirtyNext := none, pdirtyPrev := none })

def writeOffset (pgno : ℕ) : ℤ :=
  (sqlDatabaseHeaderSize + ((pgno : ℤ) - 1) * sqlDefaultPageSize).bmod (2 ^ 32)

def commitLoop (c : PCache) : ℕ → Option ℕ → Option (PCache × List (ℕ × ℤ))
  | _, none => some (c, [])
  | 0, some _ => none
  | n + 1, some p => ((c.pcacheMakeClean p).commitLoop n (c.next p)).map fun x =>
      (x.1, (p, writeOffset (c.pages p).pgno) :: x.2)

def pagerCommit (c : PCache) : Option (PCache × List (ℕ × ℤ)) := c.commitLoop c.pcache.made c.pdirtyHead

end PCache

inductive DirtyEvent where
  | get (pgno : ℕ)
  | write (page : ℕ)
  | commit
  | unref (page : ℕ)
  deriving DecidableEq

def PCache.step (c : PCache) : DirtyEvent → Option PCache
  | .get pgno => some (c.pagerGet pgno).2
  | .write page => c.pcacheMakeDirty page
  | .commit => c.pagerCommit.map Prod.fst
  | .unref page => c.pcacheRelease page

namespace PCache

structure Chained (c : PCache) (l : List ℕ) : Prop where
  head : c.pdirtyHead = l.head?
  links : Segment c.next c.prev none l none
  nodup : l.Nodup
  mem : ∀ p, p ∈ l ↔ (c.pages p).dirty = true

def Right (c : PCache) : Prop :=
  ∃ l, c.Chained l ∧ ∃ c', c.pagerCommit =
      some (c', l.map fun p => (p, (((c.pages p).pgno : ℤ) - 1) * 2048)) ∧ c'.Chained []

/-! ### The invariant -/

structure Sound (c : PCache) (l lru : List ℕ) : Prop extends Chained c l where
  lru : c.pcache.Lru lru
  table : ∀ p, p ∈ c.pcache.aphash.flatten ↔ 0 < (c.pages p).nref
  referenced : ∀ p ∈ l, 0 < (c.pages p).nref

variable {c c' : PCache} {l lru : List ℕ} {p : ℕ}

theorem Sound.setPage (h : c.Sound l lru) {lru' : List ℕ} {pcache : PCache1} {f : PgHdr → PgHdr}
    (hdirty : (f (c.pages p)).dirty = (c.pages p).dirty)
    (hin : p ∈ l → (f (c.pages p)).pdirtyNext = c.next p ∧ (f (c.pages p)).pdirtyPrev = c.prev p ∧
      0 < (f (c.pages p)).nref) (hlru : pcache.Lru lru')
    (htable : ∀ q, q ∈ pcache.aphash.flatten ↔ q = p ∧ 0 < (f (c.pages p)).nref ∨ q ≠ p ∧ 0 < (c.pages q).nref) :
    Sound { c.modifyAt (some p) f with pcache := pcache } l lru' := by
  have hpages (q : ℕ) : (c.modifyAt (some p) f).pages q = if q = p then f (c.pages p) else c.pages q := by
    simp only [modifyAt, Option.some.injEq, eq_comm (a := p)]
    split
    · next hq => rw [hq]
    · rfl
  refine ⟨⟨h.head, h.links.congr (fun q hq => ?_) (fun q hq => ?_), h.nodup, fun q => ?_⟩, hlru, fun q => ?_,
    fun q hq => ?_⟩
  · rw [PCache.next, hpages]
    split
    · next heq => rw [(hin (heq ▸ hq)).1, heq]
    · rfl
  · rw [PCache.prev, hpages]
    split
    · next heq => rw [(hin (heq ▸ hq)).2.1, heq]
    · rfl
  · rw [h.mem, hpages]
    split
    · next heq => rw [hdirty, heq]
    · rfl
  · rw [htable, hpages]
    split <;> simp [*]
  · rw [hpages]
    split
    · next heq => exact (hin (heq ▸ hq)).2.2
    · exact h.referenced q hq

/-! ### The calls -/

theorem fetch_miss {a : PCache1} {key : ℕ} (h : a.Lru lru) (hget : a.get key = none) :
    a.fetch key = (none, a) ∨ ∃ p a' lru', a.fetch key = (some p, a') ∧ a'.Lru lru' ∧ p ∉ a.aphash.flatten ∧
      a'.aphash.flatten.Perm (p :: a.aphash.flatten) := by
  have hbucket : key % nhash < a.aphash.length := by
    rw [h.length]
    exact Nat.mod_lt _ (by decide)
  have hcases := h.fetch key
  rw [PCache1.fetch, hget] at hcases ⊢
  simp only [reduceCtorEq, false_and, exists_false, false_or] at hcases
  cases lru with
  | cons p lru =>
    obtain ⟨p', lru', heq, -, hnew⟩ := hcases.resolve_right (by simp)
    obtain ⟨rfl, rfl⟩ := cons.inj heq
    have hhead : a.plruHead = some p := h.head
    rw [hhead] at hnew ⊢
    refine .inr ⟨p, _, lru, rfl, hnew, ((h.mem p).1 mem_cons_self).2, ?_⟩
    rw [PCache1.lruRemove_head h, PCache1.modifyAt_eq]
    exact Chains.flatten_push hbucket
  | nil =>
    obtain ⟨-, hnew, -⟩ := hcases.resolve_left (by simp)
    have hhead : a.plruHead = none := h.head
    rw [hhead] at hnew ⊢
    dsimp only at hnew ⊢
    split at hnew
    · next hfull => exact .inl (if_pos hfull)
    · next hfull =>
      exact .inr ⟨a.made, _, [], if_neg hfull, hnew, fun hmem => lt_irrefl _ (h.lt_made _ hmem),
        Chains.flatten_push hbucket⟩

theorem Sound.get (h : c.Sound l lru) (pgno : ℕ) : ∃ lru', (c.pagerGet pgno).2.Sound l lru' := by
  cases hget : c.pcache.get pgno with
  | some p =>
    have hp := (h.table p).1 (PCache1.mem_of_get hget)
    have hnew := h.setPage (p := p) (f := fun d => { d with nref := d.nref + 1 }) rfl
      (fun _ => ⟨rfl, rfl, Nat.succ_pos _⟩) h.lru fun q => by
        rw [h.table]
        by_cases hq : q = p <;> simp [hq, hp]
    refine ⟨lru, ?_⟩
    rw [pagerGet, pcacheGet, hget]
    exact hnew
  | none =>
    rcases fetch_miss h.lru hget with hfetch | ⟨p, pcache, lru', hfetch, hlru, hp, hperm⟩
    · refine ⟨lru, ?_⟩
      simpa [pagerGet, pcacheGet, hget, pcacheFetch, hfetch, modifyAt] using h
    · have hzero : (c.pages p).nref = 0 := Nat.eq_zero_of_not_pos fun hpos => hp ((h.table p).2 hpos)
      have hout : p ∉ l := fun hin => (h.referenced p hin).ne' hzero
      have hclean : (c.pages p).dirty = false := Bool.eq_false_iff.2 fun hd => hout ((h.mem p).2 hd)
      have hnew := h.setPage (p := p) (f := fun d => ⟨pgno, false, d.nref + 1, none, none⟩) hclean.symm
        (fun hin => absurd hin hout) hlru fun q => by
          rw [hperm.mem_iff, mem_cons, h.table]
          by_cases hq : q = p <;> simp [hq]
      refine ⟨lru', ?_⟩
      simp only [pagerGet, pcacheGet, hget, Option.map_none, pcacheFetch, hfetch]
      convert hnew using 1
      simp only [modifyAt, PCache.mk.injEq, and_true]
      funext q
      split <;> rfl

theorem pcacheMakeDirty_pages (hclean : (c.pages p).dirty ≠ true) (hhead : c.pdirtyHead ≠ some p)
    (hstep : c.pcacheMakeDirty p = some c') :
    0 < (c.pages p).nref ∧ c'.pcache = c.pcache ∧ c'.pdirtyHead = some p ∧
      c'.pages p = { c.pages p with dirty := true, pdirtyNext := c.pdirtyHead, pdirtyPrev := none } ∧
      ∀ q ≠ p, c'.pages q =
        { c.pages q with pdirtyPrev := if c.pdirtyHead = some q then some p else (c.pages q).pdirtyPrev } := by
  rw [pcacheMakeDirty, if_neg hclean] at hstep
  split at hstep
  · cases hstep
  · next hnref =>
    cases hstep
    refine ⟨Nat.pos_of_ne_zero hnref, rfl, rfl, by simp [modifyAt, hhead], fun q hq => ?_⟩
    simp only [modifyAt, Option.some.injEq, hq.symm, if_false]
    split <;> rfl

theorem Sound.write (h : c.Sound l lru) (hstep : c.pcacheMakeDirty p = some c') : ∃ l', c'.Sound l' lru := by
  by_cases hclean : (c.pages p).dirty = true
  · rw [pcacheMakeDirty, if_pos hclean] at hstep
    split at hstep <;> cases hstep
    exact ⟨l, h⟩
  · have hout : p ∉ l := fun hin => hclean ((h.mem p).1 hin)
    have hnodup : (p :: l).Nodup := nodup_cons.2 ⟨hout, h.nodup⟩
    have hne : ∀ q ∈ l, q ≠ p := fun q hq => ne_of_mem_of_not_mem hq hout
    obtain ⟨hnref, hpcache, hhead, hself, hother⟩ := pcacheMakeDirty_pages hclean
      (fun heq => hout (mem_of_mem_head? (h.head.symm.trans heq))) hstep
    have hpages : ∀ q, (c'.pages q).nref = (c.pages q).nref ∧ ((c'.pages q).dirty = true ↔ q ∈ p :: l) := by
      intro q
      by_cases hq : q = p
      · subst hq
        simp [hself]
      · simp [hother q hq, hq, h.mem]
    rw [h.head] at hself hother
    refine ⟨p :: l, ⟨hhead, h.links.push hnodup (fun q hq => ?_) ?_ ?_ (fun q hq => ?_) (fun q hq hfirst => ?_),
      hnodup, fun q => (hpages q).2.symm⟩, hpcache ▸ h.lru, fun q => by rw [hpcache, h.table, (hpages q).1], fun q hq => ?_⟩
    · rw [PCache.next, hother q hq]
      rfl
    · rw [PCache.next, hself]
    · rw [PCache.prev, hself]
    · rw [PCache.prev, hother q (hne q (mem_of_mem_head? hq)), if_pos hq]
    · rw [PCache.prev, hother q hq, if_neg hfirst]
      rfl
    · rw [(hpages q).1]
      rcases mem_cons.1 hq with rfl | hq
      · exact hnref
      · exact h.referenced q hq

theorem Sound.unref (h : c.Sound l lru) (hstep : c.pcacheRelease p = some c') : ∃ lru', c'.Sound l lru' := by
  have hself : (c.modifyAt (some p) fun d => { d with nref := d.nref - 1 }).pages p =
      { c.pages p with nref := (c.pages p).nref - 1 } := if_pos rfl
  rw [pcacheRelease] at hstep
  split at hstep
  · cases hstep
  · next hnref =>
    simp only [hself] at hstep
    split at hstep
    · next hlast =>
      split at hstep
      · cases hstep
      · next hclean =>
        obtain ⟨pcache, hunpin, rfl⟩ := Option.map_eq_some_iff.1 hstep
        have hlru := h.lru.unpin hunpin
        refine ⟨p :: lru, h.setPage rfl (fun hin => absurd ((h.mem p).1 hin) hclean) hlru fun q => ?_⟩
        obtain ⟨a, hremove, rfl⟩ := Option.map_eq_some_iff.1 hunpin
        obtain ⟨aphash, rfl, -, hperm, -⟩ := PCache1.removeFromHash_eq h.lru.length hremove
        rw [(PCache1.lruAdd_table _ p).2.2.1, hlast]
        have hnodup := nodup_cons.1 (hperm.nodup_iff.1 h.lru.table)
        have hmem := hperm.mem_iff (a := q)
        rw [mem_cons, h.table] at hmem
        by_cases hq : q = p
        · subst hq
          simp [hnodup.1]
        · simp [hq, hmem]
    · next hmore =>
      cases hstep
      have hnew := h.setPage (p := p) (f := fun d => { d with nref := d.nref - 1 }) rfl
        (fun _ => ⟨rfl, rfl, Nat.pos_of_ne_zero hmore⟩) h.lru fun q => by
          rw [h.table]
          by_cases hq : q = p
          · subst hq
            simp only [true_and, ne_eq, not_true_eq_false, false_and, or_false]
            omega
          · simp [hq]
      exact ⟨lru, hnew⟩

/-! ### The commit -/

theorem pcacheMakeClean_pages (hdirty : (c.pages p).dirty = true) (hprev : c.prev p = none)
    (hnext : c.next p ≠ some p) (hhead : c.pdirtyHead = some p) :
    (c.pcacheMakeClean p).pcache = c.pcache ∧ (c.pcacheMakeClean p).pdirtyHead = c.next p ∧
      (c.pcacheMakeClean p).pages p = { c.pages p with dirty := false, pdirtyNext := none, pdirtyPrev := none } ∧
      ∀ q ≠ p, (c.pcacheMakeClean p).pages q =
        { c.pages q with pdirtyPrev := if c.next p = some q then none else (c.pages q).pdirtyPrev } := by
  have hnone {f : PgHdr → PgHdr} : c.modifyAt none f = c := by simp [modifyAt]
  have hself {f : PgHdr → PgHdr} : (c.modifyAt (c.next p) f).pages p = c.pages p := if_neg hnext
  rw [pcacheMakeClean, if_pos hdirty]
  dsimp only
  rw [hprev, hnone, hprev]
  refine ⟨rfl, ?_, ?_, fun q hq => ?_⟩
  · change (if c.pdirtyHead = some p then ((c.modifyAt (c.next p) _).pages p).pdirtyNext else _) = _
    rw [if_pos hhead, hself]
    rfl
  · refine (if_pos rfl).trans ?_
    rw [hself, hdirty]
    rfl
  · refine (if_neg fun heq => hq (Option.some.inj heq).symm).trans ?_
    dsimp only [modifyAt]
    split <;> rfl

theorem Sound.clean (h : c.Sound (p :: l) lru) :
    (c.pcacheMakeClean p).Sound l lru ∧ c.next p = l.head? ∧ ∀ q, ((c.pcacheMakeClean p).pages q).pgno = (c.pages q).pgno := by
  obtain ⟨hprev, hnext, hrest⟩ := h.links
  rw [Option.or_none] at hnext
  obtain ⟨hout, hnodup⟩ := nodup_cons.1 h.nodup
  have hne : ∀ q ∈ l, q ≠ p := fun q hq => ne_of_mem_of_not_mem hq hout
  obtain ⟨hpcache, hhead, hself, hother⟩ := pcacheMakeClean_pages ((h.mem p).1 mem_cons_self) hprev
    (fun heq => hout (mem_of_mem_head? (hnext.symm.trans heq))) h.head
  rw [hnext] at hhead hother
  have hpages : ∀ q, ((c.pcacheMakeClean p).pages q).nref = (c.pages q).nref ∧
      ((c.pcacheMakeClean p).pages q).pgno = (c.pages q).pgno ∧
      (((c.pcacheMakeClean p).pages q).dirty = true ↔ q ∈ l) := by
    intro q
    by_cases hq : q = p
    · subst hq
      simp [hself, hout]
    · simp [hother q hq, ← h.mem, hq]
  refine ⟨⟨⟨hhead, hrest.restart hnodup (fun q hq => ?_) (fun q hq => ?_) (fun q hq hfirst => ?_), hnodup,
    fun q => (hpages q).2.2.symm⟩, hpcache ▸ h.lru, fun q => by rw [hpcache, h.table, (hpages q).1], fun q hq => ?_⟩,
    hnext, fun q => (hpages q).2.1⟩
  · rw [PCache.next, hother q (hne q hq)]
    rfl
  · rw [PCache.prev, hother q (hne q (mem_of_mem_head? hq)), if_pos hq]
  · rw [PCache.prev, hother q (hne q hq), if_neg hfirst]
    rfl
  · rw [(hpages q).1]
    exact h.referenced q (mem_cons_of_mem p hq)

theorem Sound.commitLoop {n : ℕ} (h : c.Sound l lru) (hn : l.length ≤ n) :
    ∃ c', c.commitLoop n l.head? = some (c', l.map fun p => (p, writeOffset (c.pages p).pgno)) ∧
      c'.Sound [] lru := by
  induction l generalizing c n with
  | nil =>
    refine ⟨c, ?_, h⟩
    cases n <;> rfl
  | cons p l ih =>
    obtain ⟨n, rfl⟩ := Nat.exists_eq_succ_of_ne_zero (Nat.ne_zero_of_lt hn)
    obtain ⟨hclean, hnext, hpgno⟩ := h.clean
    obtain ⟨c', hloop, hc'⟩ := ih hclean (Nat.le_of_succ_le_succ hn)
    refine ⟨c', ?_, hc'⟩
    rw [head?_cons, PCache.commitLoop, hnext, hloop]
    simp only [hpgno, Option.map_some, map_cons]

theorem Sound.commit (h : c.Sound l lru) :
    ∃ c', c.pagerCommit = some (c', l.map fun p => (p, writeOffset (c.pages p).pgno)) ∧ c'.Sound [] lru := by
  rw [pagerCommit, h.head]
  refine h.commitLoop ?_
  -- the pages of the list are slots, and each is there once
  have hsub : l ⊆ range c.pcache.made := fun p hp =>
    mem_range.2 (h.lru.lt_made p ((h.table p).2 (h.referenced p hp)))
  simpa using (h.nodup.subperm hsub).length_le

theorem Sound.step (h : c.Sound l lru) {e : DirtyEvent} (hstep : c.step e = some c') :
    ∃ l' lru', c'.Sound l' lru' := by
  cases e with
  | get pgno =>
    cases hstep
    exact ⟨l, h.get pgno⟩
  | write page =>
    obtain ⟨l', h'⟩ := h.write hstep
    exact ⟨l', lru, h'⟩
  | commit =>
    obtain ⟨c'', hcommit, h'⟩ := h.commit
    rw [PCache.step, hcommit] at hstep
    cases hstep
    exact ⟨[], lru, h'⟩
  | unref page => exact ⟨l, h.unref hstep⟩

theorem sound_open : Sound {} [] [] :=
  ⟨⟨rfl, trivial, nodup_nil, by simp⟩, PCache1.lru_create _, by simp, by simp⟩

theorem writeOffset_eq_iff (pgno : ℕ) : writeOffset pgno = ((pgno : ℤ) - 1) * 2048 ↔ pgno ≤ 2 ^ 20 := by
  rw [writeOffset, sqlDatabaseHeaderSize, sqlDefaultPageSize, Int.bmod]
  split <;> omega

theorem Right.offset (h : c.Right) {writes : List (ℕ × ℤ)} (hcommit : c.pagerCommit = some (c', writes)) :
    ∀ w ∈ writes, w.2 = (((c.pages w.1).pgno : ℤ) - 1) * 2048 := by
  obtain ⟨l, -, c'', hcommit', -⟩ := h
  rw [hcommit, Option.some.injEq, Prod.mk.injEq] at hcommit'
  rw [hcommit'.2, forall_mem_map]
  exact fun p _ => rfl

end PCache

theorem dirty_list_iff (es : List DirtyEvent) (c : PCache) (hrun : Lts.run PCache.step {} es = some c) :
    (∃ l, c.Chained l) ∧ (c.Right ↔ ∀ p, (c.pages p).dirty = true → (c.pages p).pgno ≤ 2 ^ 20) := by
  obtain ⟨l, lru, h⟩ := Lts.run_invariant (I := fun c : PCache => ∃ l lru, c.Sound l lru)
    (fun _ _ _ ⟨_, _, h⟩ _ hstep => h.step hstep) ⟨[], [], PCache.sound_open⟩ (Lts.Along.of_true _ es) hrun
  obtain ⟨c', hcommit, h'⟩ := h.commit
  refine ⟨⟨l, h.toChained⟩, fun hright p hp => ?_, fun hfits => ?_⟩
  · exact (PCache.writeOffset_eq_iff _).1 (forall_mem_map.1 (hright.offset hcommit) p ((h.mem p).2 hp))
  · refine ⟨l, h.toChained, c', hcommit.trans ?_, h'.toChained⟩
    congr 2
    refine map_congr_left fun p hp => ?_
    rw [(PCache.writeOffset_eq_iff _).2 (hfits p ((h.mem p).1 hp))]

theorem dirty_list_one : (Lts.run PCache.step {} [.get 1, .write 0]).isSome = true ∧
    ∀ c, Lts.run PCache.step {} [.get 1, .write 0] = some c → c.Right := by
  refine ⟨by decide +kernel, fun c hrun => ?_⟩
  have hone : (some c).map (fun c => (c.pdirtyHead, c.next 0, (c.pages 0).pgno)) = some (some 0, none, 1) := by
    rw [← hrun]
    decide +kernel
  simp only [Option.map_some, Option.some.injEq, Prod.mk.injEq] at hone
  obtain ⟨⟨l, hl⟩, hright⟩ := dirty_list_iff _ c hrun
  obtain ⟨l', rfl⟩ : ∃ l', l = 0 :: l' := head?_eq_some_iff.1 (hl.head.symm.trans hone.1)
  obtain rfl : l' = [] := by
    have hnext := hl.links.2.1
    rwa [hone.2.1, Option.or_none, eq_comm, head?_eq_none_iff] at hnext
  refine hright.2 fun p hp => ?_
  rw [mem_singleton.1 ((hl.mem p).2 hp), hone.2.2]
  decide

theorem dirty_page_wraps : (Lts.run PCache.step {} [.get (2 ^ 20 + 1), .write 0]).map
      (fun c => (c.pagerCommit.map Prod.snd, (c.pages 0).pgno)) = some (some [(0, -2 ^ 31)], 2 ^ 20 + 1) ∧
    ∀ c, Lts.run PCache.step {} [.get (2 ^ 20 + 1), .write 0] = some c → ¬c.Right := by
  have hwrites : (Lts.run PCache.step {} [.get (2 ^ 20 + 1), .write 0]).map
      (fun c => (c.pagerCommit.map Prod.snd, (c.pages 0).pgno)) = some (some [(0, -2 ^ 31)], 2 ^ 20 + 1) := by
    decide +kernel
  refine ⟨hwrites, fun c hrun hright => ?_⟩
  rw [hrun, Option.map_some, Option.some.injEq, Prod.mk.injEq] at hwrites
  obtain ⟨⟨c', writes⟩, hcommit, rfl⟩ := Option.map_eq_some_iff.1 hwrites.1
  have hoffset := hright.offset hcommit (0, -2 ^ 31) (mem_singleton_self _)
  rw [hwrites.2] at hoffset
  exact absurd hoffset (by decide)

end SqliteDemo
