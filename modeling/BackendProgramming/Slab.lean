/-
**The slab allocator of memcached (`memcached_slab.c`).**

A slab class hands out items of one size.  It cuts a page into items, which are doubly linked while they are
free.  What `malloc` and `realloc` return is part of a call.  The owner of an item may write its links.
-/

import BackendProgramming.Arena
import BackendProgramming.DoublyLinked

set_option autoImplicit false

namespace Memcached

open ComponentsW DoublyLinked Function List Option

structure SlabSettings where
  size : ℕ
  perslab : ℕ
  itemSizeMax : ℕ
  slabReassign : Bool
  memLimit : ℕ
  size_pos : 0 < size
  fits : perslab * size ≤ itemSizeMax

def SlabSettings.len (c : SlabSettings) : ℕ := if c.slabReassign then c.itemSizeMax else c.perslab * c.size

structure SlabClass where
  slots : Option ℕ := none
  slCurr : ℕ := 0
  slabList : List ℕ := []
  listSize : ℕ := 0
  requested : UInt64 := 0
  memAlloced : ℕ := 0
  memCurrent : Option ℕ := none
  memAvail : ℕ := 0
  next : ℕ → Option ℕ := fun _ => none
  prev : ℕ → Option ℕ := fun _ => none

namespace SlabClass

def doSlabsFree (p : SlabClass) (ptr : ℕ) (size : UInt64) : SlabClass :=
  { p with
    next := update p.next ptr p.slots
    prev := match p.slots with
      | none => update p.prev ptr none
      | some it => update (update p.prev ptr none) it (some ptr)
    slots := some ptr
    slCurr := (p.slCurr + 1) % 2 ^ 32
    requested := p.requested - size }

def splitSlabPageIntoFreelist (p : SlabClass) (size : ℕ) : ℕ → ℕ → SlabClass
  | 0, _ => p
  | x + 1, ptr => (p.doSlabsFree ptr 0).splitSlabPageIntoFreelist size x (ptr + size)

def growSlabList (p : SlabClass) (realloc : Bool) : Option SlabClass :=
  if p.slabList.length = p.listSize then
    if realloc then some { p with listSize := if p.listSize ≠ 0 then p.listSize * 2 else 16 } else none
  else some p

def memoryAllocate (p : SlabClass) (size malloc : ℕ) : Option (ℕ × SlabClass) :=
  match p.memCurrent with
  | none => if malloc = 0 then none else some (malloc, p)
  | some ret =>
    if p.memAvail < size then none
    else some (ret, { p with
      memCurrent := some (ret + (size + size % 8))
      memAvail := p.memAvail - (size + size % 8) })

def doSlabsNewslab (c : SlabSettings) (p : SlabClass) (realloc : Bool) (malloc : ℕ) : Bool × SlabClass :=
  if c.memLimit ≠ 0 ∧ c.memLimit < p.memAlloced + c.len ∧ 0 < p.slabList.length then (false, p)
  else match p.growSlabList realloc with
    | none => (false, p)
    | some p' => match p'.memoryAllocate c.len malloc with
      | none => (false, p')
      | some (ptr, q) =>
        let q' := q.splitSlabPageIntoFreelist c.size c.perslab ptr
        (true, { q' with slabList := q'.slabList ++ [ptr], memAlloced := q'.memAlloced + c.len })

def pop (p : SlabClass) (size : UInt64) (it : ℕ) : SlabClass :=
  { p with
    slots := p.next it
    prev := match p.next it with
      | none => p.prev
      | some it' => update p.prev it' none
    slCurr := p.slCurr - 1
    requested := p.requested + size }

def doSlabsAlloc (c : SlabSettings) (p : SlabClass) (size : UInt64) (realloc : Bool) (malloc : ℕ) :
    Option (Option ℕ × SlabClass) :=
  let r := if p.slCurr ≠ 0 then (true, p) else doSlabsNewslab c p realloc malloc
  if r.1 ∧ r.2.slCurr ≠ 0 then r.2.slots.map fun it => (some it, r.2.pop size it) else some (none, r.2)

end SlabClass

/-! ### Owners of items -/

structure SlabSystem where
  p : SlabClass
  out : List ℕ := []

inductive SlabEvent where
  | alloc (size : UInt64) (realloc : Bool) (malloc : ℕ)
  | free (ptr : ℕ) (size : UInt64)
  | link (ptr : ℕ) (next prev : Option ℕ)

namespace SlabSystem

def start (base : Option ℕ) (avail : ℕ) : SlabSystem := ⟨{ memCurrent := base, memAvail := avail }, []⟩

def step (c : SlabSettings) (s : SlabSystem) : SlabEvent → Option SlabSystem
  | .alloc size realloc malloc => (s.p.doSlabsAlloc c size realloc malloc).map fun r =>
      ⟨r.2, r.1.toList ++ s.out⟩
  | .free ptr size => some ⟨s.p.doSlabsFree ptr size, s.out.erase ptr⟩
  | .link ptr next prev =>
    some { s with p := { s.p with next := update s.p.next ptr next, prev := update s.p.prev ptr prev } }

def Allowed (c : SlabSettings) (s : SlabSystem) : SlabEvent → Prop
  | .alloc _ _ malloc => malloc ≠ 0 → ∀ page ∈ s.p.slabList, MemRange.Apart ⟨page, c.len⟩ ⟨malloc, c.len⟩
  | .free ptr _ => ptr ∈ s.out
  | .link ptr _ _ => ptr ∈ s.out

instance (c : SlabSettings) (s : SlabSystem) (e : SlabEvent) : Decidable (s.Allowed c e) := by
  unfold Allowed
  split <;> infer_instance

end SlabSystem

/-! ### Where the items are -/

def ItemsApart (size x y : ℕ) : Prop := MemRange.Apart ⟨x, size⟩ ⟨y, size⟩

def items (size : ℕ) : ℕ → ℕ → List ℕ
  | 0, _ => []
  | n + 1, ptr => ptr :: items size n (ptr + size)

theorem items_inside {size n ptr x : ℕ} (hx : x ∈ items size n ptr) :
    MemRange.Inside ⟨x, size⟩ ⟨ptr, n * size⟩ := by
  induction n generalizing ptr with
  | zero => cases hx
  | succ n ih =>
    rw [Nat.succ_mul]
    rcases mem_cons.1 hx with rfl | hx
    · exact ⟨le_rfl, Nat.add_le_add_left (Nat.le_add_left _ _) _⟩
    · obtain ⟨hlow, hhigh⟩ := ih hx
      dsimp only at hlow hhigh
      constructor <;> dsimp only <;> omega

theorem items_apart (size n ptr : ℕ) : (items size n ptr).Pairwise (ItemsApart size) := by
  induction n generalizing ptr with
  | zero => exact .nil
  | succ n ih => exact pairwise_cons.2 ⟨fun x hx => .inl (items_inside hx).1, ih _⟩

namespace SlabSettings

def items (c : SlabSettings) (pages : List ℕ) : List ℕ :=
  pages.flatMap (Memcached.items c.size c.perslab)

def PagesApart (c : SlabSettings) (pages : List ℕ) : Prop :=
  pages.Pairwise fun a b => MemRange.Apart ⟨a, c.len⟩ ⟨b, c.len⟩

variable {c : SlabSettings}

theorem PagesApart.items {pages : List ℕ} (h : c.PagesApart pages) :
    (c.items pages).Pairwise (ItemsApart c.size) := by
  have hinside : ∀ page, ∀ x ∈ Memcached.items c.size c.perslab page,
      MemRange.Inside ⟨x, c.size⟩ ⟨page, c.len⟩ := by
    intro page x hx
    refine (items_inside hx).trans ⟨le_rfl, Nat.add_le_add_left ?_ _⟩
    rw [len]
    split
    · exact c.fits
    · exact le_rfl
  exact pairwise_flatMap.2 ⟨fun page _ => items_apart _ _ page,
    h.imp fun hab x hx y hy => hab.mono (hinside _ x hx) (hinside _ y hy)⟩

theorem PagesApart.nodup {pages : List ℕ} (h : c.PagesApart pages) : (c.items pages).Nodup := by
  refine h.items.imp fun hab heq => ?_
  have := c.size_pos
  rcases hab with hab | hab <;> dsimp only at hab <;> omega

end SlabSettings

/-! ### The free items -/

namespace SlabClass

structure Links (p : SlabClass) (free : List ℕ) : Prop where
  slots : p.slots = free.head?
  segment : Segment p.next p.prev none free none
  count : p.slCurr = free.length % 2 ^ 32

variable {c : SlabSettings} {p : SlabClass} {free : List ℕ}

theorem Links.push (h : p.Links free) {ptr : ℕ} (hnodup : (ptr :: free).Nodup) (size : UInt64) :
    (p.doSlabsFree ptr size).Links (ptr :: free) := by
  refine ⟨rfl, h.segment.push hnodup (fun b hb => update_of_ne hb _ _) ?_ ?_ ?_ ?_, ?_⟩
  · rw [← h.slots]
    exact update_self ..
  · cases free with
    | nil => simp [doSlabsFree, h.slots]
    | cons it rest =>
      have hne : ptr ≠ it := fun heq => (nodup_cons.1 hnodup).1 (heq ▸ mem_cons_self)
      simp [doSlabsFree, h.slots, update_of_ne hne]
  · intro b hb
    simp [doSlabsFree, h.slots, hb]
  · intro b hb hne
    cases free with
    | nil => simp [doSlabsFree, h.slots, update_of_ne hb]
    | cons it rest =>
      have hit : b ≠ it := fun heq => hne (heq ▸ rfl)
      simp [doSlabsFree, h.slots, update_of_ne hit, update_of_ne hb]
  · simp [doSlabsFree, h.count]

def frame (p : SlabClass) : List ℕ × ℕ × Option ℕ := (p.slabList, p.listSize, p.memCurrent)

theorem Links.split (h : p.Links free) {size n ptr : ℕ} (hnodup : (items size n ptr ++ free).Nodup) :
    ∃ free', (p.splitSlabPageIntoFreelist size n ptr).Links free' ∧ free'.Perm (items size n ptr ++ free) ∧
      (p.splitSlabPageIntoFreelist size n ptr).frame = p.frame := by
  induction n generalizing p free ptr with
  | zero => exact ⟨free, h, .refl _, rfl⟩
  | succ n ih =>
    have hmiddle : (items size n (ptr + size) ++ ptr :: free).Perm (items size (n + 1) ptr ++ free) := perm_middle
    have hnodup' := hmiddle.nodup_iff.2 hnodup
    obtain ⟨free', hlinks, hperm, hframe⟩ := ih (h.push (nodup_append'.1 hnodup').2.1 0) hnodup'
    exact ⟨free', hlinks, hperm.trans hmiddle, hframe⟩

/-! ### The invariant -/

structure Sound (c : SlabSettings) (p : SlabClass) (out : List ℕ) : Prop where
  items : ∃ free, p.Links free ∧ (free ++ out).Perm (c.items p.slabList)
  pages : c.PagesApart p.slabList
  current : ∀ cur ∈ p.memCurrent, ∀ page ∈ p.slabList, page + c.len ≤ cur
  room : p.slabList.length ≤ p.listSize

namespace Sound

variable {out : List ℕ} {malloc : ℕ}

theorem addPage (h : p.Sound c out) {ptr : ℕ} (hroom : p.slabList.length < p.listSize)
    (hapart : ∀ page ∈ p.slabList, MemRange.Apart ⟨page, c.len⟩ ⟨ptr, c.len⟩)
    (hcurrent : ∀ cur ∈ p.memCurrent, ptr + c.len ≤ cur) {q : SlabClass}
    (hq : q = p.splitSlabPageIntoFreelist c.size c.perslab ptr) (n : ℕ) :
    Sound c { q with slabList := q.slabList ++ [ptr], memAlloced := n } out := by
  obtain ⟨free, hlinks, hperm⟩ := h.items
  have hpages : c.PagesApart (p.slabList ++ [ptr]) :=
    pairwise_append.2 ⟨h.pages, pairwise_singleton _ _, fun a ha b hb => mem_singleton.1 hb ▸ hapart a ha⟩
  have hitems : (Memcached.items c.size c.perslab ptr ++ free ++ out).Perm (c.items (p.slabList ++ [ptr])) := by
    rw [append_assoc]
    refine ((hperm.append_left _).trans perm_append_comm).trans (.of_eq ?_)
    simp [SlabSettings.items]
  obtain ⟨free', hlinks', hperm', hframe⟩ := hlinks.split (nodup_append'.1 (hitems.nodup_iff.2 hpages.nodup)).1
  rw [← hq] at hlinks' hframe
  simp only [frame, Prod.mk.injEq] at hframe
  obtain ⟨hlist, hsize, hcur⟩ := hframe
  refine ⟨⟨free', ⟨hlinks'.slots, hlinks'.segment, hlinks'.count⟩, ?_⟩, ?_, ?_, ?_⟩
  all_goals dsimp only; rw [hlist]
  · exact (hperm'.append_right _).trans hitems
  · exact hpages
  · rw [hcur]
    exact fun cur hc => forall_mem_append.2 ⟨h.current cur hc, forall_mem_singleton.2 (hcurrent cur hc)⟩
  · rw [hsize, length_append]
    exact hroom

theorem resize (h : p.Sound c out) {n : ℕ} {current : Option ℕ} (hroom : p.slabList.length ≤ n)
    (hcurrent : ∀ cur ∈ current, ∀ page ∈ p.slabList, page + c.len ≤ cur) (avail : ℕ) :
    Sound c { p with listSize := n, memCurrent := current, memAvail := avail } out := by
  obtain ⟨free, hlinks, hperm⟩ := h.items
  exact ⟨⟨free, ⟨hlinks.slots, hlinks.segment, hlinks.count⟩, hperm⟩, h.pages, hcurrent, hroom⟩

theorem newslab (h : p.Sound c out) (realloc : Bool)
    (hmalloc : malloc ≠ 0 → ∀ page ∈ p.slabList, MemRange.Apart ⟨page, c.len⟩ ⟨malloc, c.len⟩) :
    (p.doSlabsNewslab c realloc malloc).2.Sound c out := by
  unfold doSlabsNewslab
  split
  · exact h
  split
  · exact h
  · next p' hgrow =>
    obtain ⟨n, rfl, hroom⟩ : ∃ n, p' = { p with listSize := n } ∧ p.slabList.length < n := by
      rw [growSlabList] at hgrow
      split at hgrow
      · split at hgrow
        · cases hgrow
          refine ⟨_, rfl, ?_⟩
          split <;> omega
        · cases hgrow
      · next hne =>
        cases hgrow
        exact ⟨_, rfl, lt_of_le_of_ne h.room hne⟩
    split
    · exact h.resize hroom.le h.current p.memAvail
    · next ptr q halloc =>
      rw [memoryAllocate] at halloc
      split at halloc
      · next hnone =>
        split at halloc
        · cases halloc
        · next hne =>
          cases halloc
          refine (h.resize hroom.le h.current p.memAvail).addPage hroom (hmalloc hne) (fun cur hcur => ?_) rfl _
          rw [hnone] at hcur
          cases hcur
      · next ret hret =>
        split at halloc
        · cases halloc
        · cases halloc
          -- the page lies behind the last one
          have hbehind := h.current _ hret
          refine (h.resize hroom.le (fun cur hcur page hpage => ?_) _).addPage hroom
            (fun page hpage => .inl (hbehind page hpage)) (fun cur hcur => ?_) rfl _
          all_goals cases hcur
          · exact (hbehind page hpage).trans (Nat.le_add_right _ _)
          · omega

theorem pop (h : p.Sound c out) (hcurr : p.slCurr ≠ 0) (size : UInt64) :
    ∃ it, p.slots = some it ∧ (p.pop size it).Sound c (it :: out) := by
  obtain ⟨free, hlinks, hperm⟩ := h.items
  have hcount := hlinks.count
  cases free with
  | nil => exact absurd hcount hcurr
  | cons it rest =>
    have hrest := (nodup_cons.1 (nodup_append'.1 (hperm.nodup_iff.2 h.pages.nodup)).1).2
    obtain ⟨-, hnext, hseg⟩ := hlinks.segment
    rw [or_none] at hnext
    refine ⟨it, hlinks.slots, ⟨rest, ⟨hnext, hseg.restart hrest (fun _ _ => rfl) ?_ ?_, ?_⟩,
      perm_middle.trans hperm⟩, h.pages, h.current, h.room⟩
    · intro b hb
      simp [SlabClass.pop, hnext, hb]
    · intro b _ hne
      cases rest with
      | nil => simp [SlabClass.pop, hnext]
      | cons it' rest => simp [SlabClass.pop, hnext, update_of_ne fun heq : b = it' => hne (heq ▸ rfl)]
    · rw [length_cons] at hcount
      dsimp only [SlabClass.pop]
      omega

theorem put (h : p.Sound c out) {ptr : ℕ} (hptr : ptr ∈ out) (size : UInt64) :
    (p.doSlabsFree ptr size).Sound c (out.erase ptr) := by
  obtain ⟨free, hlinks, hperm⟩ := h.items
  have hmiddle : (ptr :: free ++ out.erase ptr).Perm (c.items p.slabList) :=
    (perm_middle.symm.trans ((perm_cons_erase hptr).symm.append_left _)).trans hperm
  have hnodup := (nodup_append'.1 (hmiddle.nodup_iff.2 h.pages.nodup)).1
  exact ⟨⟨_, hlinks.push hnodup size, hmiddle⟩, h.pages, h.current, h.room⟩

theorem step {s : SlabSystem} (h : s.p.Sound c s.out) {e : SlabEvent} (he : s.Allowed c e) :
    ∃ s', s.step c e = some s' ∧ s'.p.Sound c s'.out := by
  cases e with
  | alloc size realloc malloc =>
    rw [SlabSystem.step, doSlabsAlloc]
    generalize hr : (if s.p.slCurr ≠ 0 then (true, s.p) else s.p.doSlabsNewslab c realloc malloc) = r
    have hsound : r.2.Sound c s.out := by
      rw [← hr]
      split
      · exact h
      · exact h.newslab realloc he
    split
    · next hcurr =>
      obtain ⟨it, hslots, hpop⟩ := hsound.pop hcurr.2 size
      rw [hslots]
      exact ⟨_, rfl, hpop⟩
    · exact ⟨_, rfl, hsound⟩
  | free ptr size => exact ⟨_, rfl, h.put he size⟩
  | link ptr next prev =>
    obtain ⟨free, hlinks, hperm⟩ := h.items
    have hdisj := (nodup_append'.1 (hperm.nodup_iff.2 h.pages.nodup)).2.2
    have hne : ∀ b ∈ free, b ≠ ptr := fun b hb heq => hdisj hb (heq ▸ he)
    refine ⟨_, rfl, ⟨free, ⟨hlinks.slots, hlinks.segment.congr (fun b hb => ?_) fun b hb => ?_,
      hlinks.count⟩, hperm⟩, h.pages, h.current, h.room⟩
    · exact update_of_ne (hne b hb) _ _
    · exact update_of_ne (hne b hb) _ _

end Sound

end SlabClass

end Memcached
