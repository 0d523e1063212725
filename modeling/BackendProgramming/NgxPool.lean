/-
**A memory pool (`ngx_pool/ngx_palloc.cpp`).**

Small regions are cut off the free ends of a chain of blocks, starting the search at the `current` one; a large
region is a system block of its own.  A pointer is a system block and an offset in it.  With the pool goes the
list of all that was laid into its memory: headers, records and the regions that were returned.
-/

import BackendProgramming.Lts

set_option autoImplicit false

namespace NgxPool

open List Option Prod

/-! ### The pool -/

structure Addr where
  block : ℕ
  off : ℕ
  deriving DecidableEq

inductive Owner where
  | header | large | cleanup | user
  deriving DecidableEq

structure Area where
  owner : Owner
  block : ℕ
  off : ℕ
  len : ℕ
  deriving DecidableEq

structure Block where
  id : ℕ
  last : ℕ
  failed : ℕ := 0
  deriving DecidableEq

structure Large where
  place : Addr
  alloc : Option ℕ
  deriving DecidableEq

inductive Handler where
  | file (fd : ℤ)
  | other (f : ℕ)
  deriving DecidableEq

structure Cleanup where
  place : Addr
  data : Option Addr
  handler : Option Handler := none
  deriving DecidableEq

structure Pool where
  size : ℕ
  max : ℕ
  blocks : List Block
  current : ℕ := 0
  large : List Large := []
  cleanup : List Cleanup := []
  sys : List ℕ
  areas : List Area

def headerLen (block : ℕ) : ℕ := if block = 0 then 72 else 32

def alignPtr (m : ℕ) : ℕ := (m + 7) / 8 * 8

def createPool (pagesize size : ℕ) : Option Pool :=
  if size < 72 then none
  else some
    { size := size
      max := if size - 72 < pagesize - 1 then size - 72 else pagesize - 1
      blocks := [⟨0, 72, 0⟩]
      sys := [size]
      areas := [⟨.header, 0, 0, 72⟩] }

def takeSmall (size n : ℕ) : ℕ → List Block → Option (List Block × Addr)
  | _, [] => none
  | skip + 1, b :: bs => (takeSmall size n skip bs).map fun r => (b :: r.1, r.2)
  | 0, b :: bs =>
    let m := alignPtr b.last
    if (n : ℤ) ≤ ((size : ℤ) - m) % 2 ^ 64 then some ({ b with last := m + n } :: bs, ⟨b.id, m⟩)
    else (takeSmall size n 0 bs).map fun r => (b :: r.1, r.2)

def countFailed : ℕ → ℕ → ℕ → List Block → List Block × ℕ
  | skip + 1, i, current, b :: b' :: bs =>
    let r := countFailed skip (i + 1) current (b' :: bs)
    (b :: r.1, r.2)
  | 0, i, current, b :: b' :: bs =>
    let r := countFailed 0 (i + 1) (if 4 < b.failed then i + 1 else current) (b' :: bs)
    ({ b with failed := b.failed + 1 } :: r.1, r.2)
  | _, _, current, bs => (bs, current)

namespace Pool

def pallocBlock (p : Pool) (n : ℕ) : Pool × Addr :=
  let id := p.sys.length
  let m := alignPtr 32
  let r := countFailed p.current 0 p.current p.blocks
  ({ p with
     sys := p.sys ++ [p.size]
     blocks := r.1 ++ [⟨id, m + n, 0⟩]
     current := r.2
     areas := ⟨.header, id, 0, 32⟩ :: p.areas }, ⟨id, m⟩)

def pallocSmall (p : Pool) (n : ℕ) : Pool × Addr :=
  match takeSmall p.size n p.current p.blocks with
  | some (blocks, a) => ({ p with blocks := blocks }, a)
  | none => p.pallocBlock n

def lay (owner : Owner) (n : ℕ) (r : Pool × Addr) : Pool × Addr :=
  ({ r.1 with areas := ⟨owner, r.2.block, r.2.off, n⟩ :: r.1.areas }, r.2)

def reuse (id : ℕ) : ℕ → List Large → Option (List Large)
  | _, [] => none
  | n, l :: ls =>
    if l.alloc = none then some ({ l with alloc := some id } :: ls)
    else if 3 < n then none
    else (reuse id (n + 1) ls).map (l :: ·)

def pallocLarge (p : Pool) (n : ℕ) : Pool × Addr :=
  let id := p.sys.length
  let p := { p with sys := p.sys ++ [n] }
  match reuse id 0 p.large with
  | some large => ({ p with large := large }, ⟨id, 0⟩)
  | none =>
    let r := lay .large 16 (p.pallocSmall 16)
    ({ r.1 with large := ⟨r.2, some id⟩ :: r.1.large }, ⟨id, 0⟩)

def palloc (p : Pool) (owner : Owner) (n : ℕ) : Pool × Addr :=
  lay owner n (if n ≤ p.max then p.pallocSmall n else p.pallocLarge n)

def cleanupAdd (p : Pool) (n : ℕ) : Pool × Addr :=
  let r := p.palloc .cleanup 24
  let d := if n = 0 then (r.1, none) else ((r.1.palloc .user n).1, some (r.1.palloc .user n).2)
  ({ d.1 with cleanup := ⟨r.2, d.2, none⟩ :: d.1.cleanup }, r.2)

def setHandler (p : Pool) (c : Addr) (h : Handler) : Pool :=
  { p with cleanup := p.cleanup.map fun r => if r.place = c then { r with handler := some h } else r }

def runFile (fd : ℤ) : List Cleanup → List Cleanup
  | [] => []
  | c :: cs => if c.handler = some (.file fd) then { c with handler := none } :: cs else c :: runFile fd cs

def runCleanupFile (p : Pool) (fd : ℤ) : Pool := { p with cleanup := runFile fd p.cleanup }

end Pool

/-! ### The invariant -/

def Area.Apart (a b : Area) : Prop :=
  a.block ≠ b.block ∨ a.off + a.len ≤ b.off ∨ b.off + b.len ≤ a.off

instance : DecidableRel Area.Apart := fun _ _ => inferInstanceAs (Decidable (_ ∨ _))

namespace Pool

def spans (p : Pool) : List (ℕ × ℕ) := p.blocks.map fun b => (b.id, b.last)

def ids (p : Pool) : List ℕ := p.blocks.map Block.id

def allocs (p : Pool) : List ℕ := p.large.filterMap Large.alloc

def Located (p : Pool) (a : Area) : Prop :=
  a.off % 8 = 0 ∧ (a.block ∈ p.ids ∧ headerLen a.block ≤ a.off ∧ a.off + a.len ≤ p.size ∨
    a.block ∈ p.allocs ∧ a.off = 0 ∧ p.sys[a.block]? = some a.len)

structure Laid (p : Pool) : Prop where
  apart : p.areas.Pairwise Area.Apart
  located : ∀ a ∈ p.areas, a.owner ≠ .header → p.Located a
  headers : ∀ id ∈ p.ids, ⟨.header, id, 0, headerLen id⟩ ∈ p.areas
  large : ∀ l ∈ p.large, ⟨.large, l.place.block, l.place.off, 16⟩ ∈ p.areas
  cleanup : ∀ c ∈ p.cleanup, ⟨.cleanup, c.place.block, c.place.off, 24⟩ ∈ p.areas

structure Inv (loose : List ℕ) (p : Pool) : Prop extends Laid p where
  aligned : 8 ∣ p.size
  room : 72 ≤ p.size
  max_le : p.max + 72 ≤ p.size
  zero_mem : 0 ∈ p.ids
  last_le : ∀ x ∈ p.spans, x.2 ≤ p.size
  made : (loose ++ p.ids ++ p.allocs).Perm (range p.sys.length)
  owned : ∀ a ∈ p.areas, a.block ∈ p.ids ++ p.allocs
  below : ∀ a ∈ p.areas, ∀ x ∈ p.spans, a.block = x.1 → a.off + a.len ≤ x.2
  record : ∀ l ∈ p.large, l.place.block ∈ p.ids ∧ l.alloc ≠ none

theorem ids_eq (p : Pool) : p.ids = p.spans.map fst := by
  rw [ids, spans, List.map_map]
  rfl

structure Grows (p p' : Pool) : Prop where
  size : p'.size = p.size
  ids : p.ids ⊆ p'.ids
  allocs : p.allocs ⊆ p'.allocs
  sys : p.sys <+: p'.sys
  areas : p.areas ⊆ p'.areas
  cleanup : p'.cleanup = p.cleanup

theorem Grows.trans {p p' p'' : Pool} (h : Grows p p') (h' : Grows p' p'') : Grows p p'' :=
  ⟨h'.size.trans h.size, List.Subset.trans h.ids h'.ids, List.Subset.trans h.allocs h'.allocs,
    h.sys.trans h'.sys, List.Subset.trans h.areas h'.areas, h'.cleanup.trans h.cleanup⟩

theorem Located.mono {p p' : Pool} {a : Area} (h : p.Located a) (hg : Grows p p') : p'.Located a := by
  obtain ⟨hoff, ⟨hid, hin⟩ | ⟨hid, hzero, hlen⟩⟩ := h
  · exact ⟨hoff, .inl ⟨hg.ids hid, by rwa [hg.size]⟩⟩
  · refine ⟨hoff, .inr ⟨hg.allocs hid, hzero, ?_⟩⟩
    obtain ⟨rest, hrest⟩ := hg.sys
    obtain ⟨hlt, -⟩ := List.getElem?_eq_some_iff.1 hlen
    rw [← hrest, getElem?_append_left hlt, hlen]

variable {p : Pool} {loose : List ℕ} {n : ℕ}

theorem Inv.nodup (h : Inv loose p) : (loose ++ p.ids ++ p.allocs).Nodup := h.made.nodup_iff.2 nodup_range

theorem Inv.ids_nodup (h : Inv loose p) : p.ids.Nodup :=
  ((nodup_append.1 (nodup_append.1 h.nodup).1).2).1

theorem Inv.lt_length (h : Inv loose p) {id : ℕ} (hid : id ∈ p.ids ++ p.allocs) : id < p.sys.length := by
  refine mem_range.1 (h.made.subset ?_)
  rw [append_assoc]
  exact mem_append_right _ hid

end Pool

theorem le_alignPtr (m : ℕ) : m ≤ alignPtr m := by
  rw [alignPtr]
  omega

theorem takeSmall_spec {size n skip : ℕ} {bs bs' : List Block} {a : Addr}
    (h : takeSmall size n skip bs = some (bs', a)) :
    ∃ pre b post, bs = pre ++ b :: post ∧ bs' = pre ++ { b with last := a.off + n } :: post ∧
      a = ⟨b.id, alignPtr b.last⟩ ∧ (n : ℤ) ≤ ((size : ℤ) - alignPtr b.last) % 2 ^ 64 := by
  induction bs generalizing skip bs' with
  | nil =>
    cases h
  | cons b bs ih =>
    have hrest (skip : ℕ) (h : (takeSmall size n skip bs).map (fun r => (b :: r.1, r.2)) = some (bs', a)) :
        ∃ pre b' post, b :: bs = pre ++ b' :: post ∧ bs' = pre ++ { b' with last := a.off + n } :: post ∧
          a = ⟨b'.id, alignPtr b'.last⟩ ∧ (n : ℤ) ≤ ((size : ℤ) - alignPtr b'.last) % 2 ^ 64 := by
      obtain ⟨⟨bs'', a'⟩, htake, heq⟩ := map_eq_some_iff.1 h
      obtain ⟨rfl, rfl⟩ := mk.inj heq
      obtain ⟨pre, b', post, rfl, hbs, hrest⟩ := ih htake
      rw [hbs]
      exact ⟨b :: pre, b', post, rfl, rfl, hrest⟩
    cases skip with
    | zero =>
      rw [takeSmall] at h
      split at h
      · next hfits =>
        cases h
        exact ⟨[], b, bs, rfl, rfl, rfl, hfits⟩
      · exact hrest 0 h
    | succ skip => exact hrest skip (by rwa [takeSmall] at h)

theorem countFailed_spans (skip i current : ℕ) (bs : List Block) :
    (countFailed skip i current bs).1.map (fun b => (b.id, b.last)) = bs.map fun b => (b.id, b.last) := by
  fun_induction countFailed with
  | case1 skip i current b b' bs r ih => exact congrArg ((b.id, b.last) :: ·) ih
  | case2 i current b b' bs r ih => exact congrArg ((b.id, b.last) :: ·) ih
  | case3 => rfl

namespace Pool

variable {p : Pool} {loose : List ℕ} {n : ℕ}

theorem Inv.apart_of_last (h : Inv loose p) {x : ℕ × ℕ} (hx : x ∈ p.spans) {a : Area} (hblock : a.block = x.1)
    (hoff : x.2 ≤ a.off) : ∀ a' ∈ p.areas, a.Apart a' := by
  intro a' ha'
  by_cases hb : a'.block = x.1
  · exact .inr (.inr (le_trans (h.below a' ha' x hx hb) hoff))
  · exact .inl fun he => hb (he.symm.trans hblock)

theorem Inv.takeSmall (h : Inv loose p) (owner : Owner) {skip : ℕ} {bs : List Block} {a : Addr}
    (htake : NgxPool.takeSmall p.size n skip p.blocks = some (bs, a)) :
    Inv loose { p with blocks := bs, areas := ⟨owner, a.block, a.off, n⟩ :: p.areas } ∧
      Grows p { p with blocks := bs, areas := ⟨owner, a.block, a.off, n⟩ :: p.areas } ∧ a.block ∈ p.ids := by
  obtain ⟨pre, b, post, hbs, rfl, rfl, hfits⟩ := takeSmall_spec htake
  set p' : Pool := { p with
    blocks := pre ++ { b with last := alignPtr b.last + n } :: post
    areas := ⟨owner, b.id, alignPtr b.last, n⟩ :: p.areas } with hp'
  have hb : (b.id, b.last) ∈ p.spans := by
    rw [spans, hbs]
    simp
  have hids : p'.ids = p.ids := by
    rw [ids, ids, hbs]
    simp [hp']
  have hgrows : Grows p p' := ⟨rfl, by rw [hids]; exact List.Subset.refl _, List.Subset.refl _, prefix_rfl,
    subset_cons_self .., rfl⟩
  have hid : b.id ∈ p.ids := by
    rw [ids_eq]
    exact mem_map_of_mem hb
  -- the aligned end of the used part does not pass the end of the block
  have hin : alignPtr b.last + n ≤ p.size := by
    have h8 := h.aligned
    have hlast := h.last_le _ hb
    rw [alignPtr] at hfits ⊢
    omega
  have hspans : ∀ x ∈ p'.spans, x.1 ≠ b.id ∧ x ∈ p.spans ∨ x = (b.id, alignPtr b.last + n) := by
    intro x hx
    by_cases hxb : x.1 = b.id
    · right
      have hnodup : (p'.spans.map fst).Nodup := by
        rw [← ids_eq, hids]
        exact h.ids_nodup
      exact inj_on_of_nodup_map hnodup hx (by simp [hp', spans]) hxb
    · refine .inl ⟨hxb, ?_⟩
      rw [spans, hbs]
      simp only [hp', spans, map_append, map_cons, mem_append, mem_cons] at hx ⊢
      rcases hx with hx | rfl | hx
      · exact .inl hx
      · exact (hxb rfl).elim
      · exact .inr (.inr hx)
  refine ⟨{
    apart := pairwise_cons.2 ⟨h.apart_of_last hb rfl (le_alignPtr _), h.apart⟩
    located := forall_mem_cons.2 ⟨fun _ => ?_, fun a ha hne => (h.located a ha hne).mono hgrows⟩
    headers := by
      rw [hids]
      exact fun id hid => mem_cons_of_mem _ (h.headers id hid)
    large := fun l hl => mem_cons_of_mem _ (h.large l hl)
    cleanup := fun c hc => mem_cons_of_mem _ (h.cleanup c hc)
    aligned := h.aligned
    room := h.room
    max_le := h.max_le
    zero_mem := hids ▸ h.zero_mem
    last_le := fun x hx => ?_
    made := by
      rw [hids]
      exact h.made
    owned := by
      rw [hids]
      exact forall_mem_cons.2 ⟨mem_append_left _ hid, h.owned⟩
    below := fun a ha x hx heq => ?_
    record := by
      rw [hids]
      exact h.record }, hgrows, hid⟩
  · have hheader := h.below _ (h.headers _ hid) _ hb rfl
    refine ⟨Nat.mul_mod_left .., .inl ⟨hids ▸ hid, ?_, hin⟩⟩
    have := le_alignPtr b.last
    dsimp only at hheader ⊢
    omega
  · rcases hspans x hx with ⟨-, hx⟩ | rfl
    · exact h.last_le x hx
    · exact hin
  · rcases hspans x hx with ⟨hne, hx⟩ | rfl
    · rcases mem_cons.1 ha with rfl | ha
      · exact (hne heq.symm).elim
      · exact h.below a ha x hx heq
    · rcases mem_cons.1 ha with rfl | ha
      · exact le_rfl
      · have := h.below a ha _ hb heq
        have := le_alignPtr b.last
        omega

theorem Inv.pallocBlock (h : Inv loose p) (hn : n + 32 ≤ p.size) {owner : Owner} :
    Inv loose (lay owner n (p.pallocBlock n)).1 ∧ Grows p (lay owner n (p.pallocBlock n)).1 ∧
      (p.pallocBlock n).2.block ∈ (lay owner n (p.pallocBlock n)).1.ids := by
  set p' : Pool := (lay owner n (p.pallocBlock n)).1 with hp'
  have hspans : p'.spans = p.spans ++ [(p.sys.length, 32 + n)] := by
    rw [spans, spans, hp', lay, Pool.pallocBlock, map_append, countFailed_spans]
    rfl
  have hids : p'.ids = p.ids ++ [p.sys.length] := by
    rw [ids_eq, hspans, ids_eq, map_append]
    rfl
  have hgrows : Grows p p' := ⟨rfl, by rw [hids]; exact subset_append_left .., List.Subset.refl _,
    prefix_append _ _, fun a ha => mem_cons_of_mem _ (mem_cons_of_mem _ ha), rfl⟩
  have hnew : ∀ a ∈ p.areas, a.block ≠ p.sys.length := fun a ha => (h.lt_length (h.owned a ha)).ne
  have hareas : p'.areas = ⟨owner, p.sys.length, 32, n⟩ :: ⟨.header, p.sys.length, 0, 32⟩ :: p.areas := rfl
  have hpos : 0 < p.sys.length := h.lt_length (mem_append_left _ h.zero_mem)
  have hheader : headerLen p.sys.length = 32 := if_neg hpos.ne'
  have hid : p.sys.length ∈ p'.ids := by
    rw [hids]
    exact mem_append_right _ (mem_singleton.2 rfl)
  refine ⟨{
    apart := ?_
    located := ?_
    headers := fun id hid => ?_
    large := fun l hl => mem_cons_of_mem _ (mem_cons_of_mem _ (h.large l hl))
    cleanup := fun c hc => mem_cons_of_mem _ (mem_cons_of_mem _ (h.cleanup c hc))
    aligned := h.aligned
    room := h.room
    max_le := h.max_le
    zero_mem := hgrows.ids h.zero_mem
    last_le := fun x hx => ?_
    made := ?_
    owned := ?_
    below := fun a ha x hx heq => ?_
    record := fun l hl => ⟨hgrows.ids (h.record l hl).1, (h.record l hl).2⟩ }, hgrows, hid⟩
  · exact pairwise_cons.2 ⟨forall_mem_cons.2 ⟨.inr (.inr le_rfl), fun a ha => .inl (hnew a ha).symm⟩,
      pairwise_cons.2 ⟨fun a ha => .inl (hnew a ha).symm, h.apart⟩⟩
  · rw [hareas]
    refine forall_mem_cons.2 ⟨fun _ => ⟨show 32 % 8 = 0 by decide, .inl ⟨hid, hheader.le, ?_⟩⟩, forall_mem_cons.2
      ⟨fun hne => (hne rfl).elim, fun a ha hne => (h.located a ha hne).mono hgrows⟩⟩
    rw [Nat.add_comm]
    exact hn
  · rw [hids] at hid
    rcases mem_append.1 hid with hid | hid
    · exact mem_cons_of_mem _ (mem_cons_of_mem _ (h.headers id hid))
    · rw [mem_singleton.1 hid, hheader]
      exact mem_cons_of_mem _ mem_cons_self
  · rw [hspans] at hx
    rcases mem_append.1 hx with hx | hx
    · exact h.last_le x hx
    · rw [mem_singleton.1 hx, Nat.add_comm]
      exact hn
  · rw [hids]
    change (loose ++ (p.ids ++ [p.sys.length]) ++ p.allocs).Perm (range (p.sys ++ [p.size]).length)
    rw [length_append, length_singleton, range_succ]
    refine List.Perm.trans ?_ (h.made.append_right _)
    rw [append_assoc, append_assoc, append_assoc, append_assoc]
    exact (perm_append_comm.append_left _).append_left _
  · refine forall_mem_cons.2 ⟨mem_append_left _ hid, forall_mem_cons.2 ⟨mem_append_left _ hid,
      fun a ha => ?_⟩⟩
    rcases mem_append.1 (h.owned a ha) with ha | ha
    · exact mem_append_left _ (hgrows.ids ha)
    · exact mem_append_right _ ha
  · have hold : ∀ x ∈ p.spans, x.1 ≠ p.sys.length := fun x hx =>
      (h.lt_length (mem_append_left _ (by rw [ids_eq]; exact mem_map_of_mem hx))).ne
    rw [hspans] at hx
    rcases mem_append.1 hx with hx | hx
    · rcases mem_cons.1 ha with rfl | ha
      · exact (hold x hx heq.symm).elim
      · rcases mem_cons.1 ha with rfl | ha
        · exact (hold x hx heq.symm).elim
        · exact h.below a ha x hx heq
    · rw [mem_singleton.1 hx] at heq ⊢
      rcases mem_cons.1 ha with rfl | ha
      · exact le_rfl
      · rcases mem_cons.1 ha with rfl | ha
        · exact Nat.le_add_right ..
        · exact (hnew a ha heq).elim

theorem Inv.pallocSmall (h : Inv loose p) (hn : n + 32 ≤ p.size) (owner : Owner) :
    Inv loose (lay owner n (p.pallocSmall n)).1 ∧ Grows p (lay owner n (p.pallocSmall n)).1 ∧
      (p.pallocSmall n).2.block ∈ (lay owner n (p.pallocSmall n)).1.ids := by
  rw [Pool.pallocSmall]
  cases htake : NgxPool.takeSmall p.size n p.current p.blocks with
  | none => exact h.pallocBlock hn
  | some r =>
    obtain ⟨hinv, hgrows, hid⟩ := h.takeSmall owner htake
    exact ⟨hinv, hgrows, hgrows.ids hid⟩

theorem reuse_eq_none {id k : ℕ} {ls : List Large} (h : ∀ l ∈ ls, l.alloc ≠ none) : reuse id k ls = none := by
  induction ls generalizing k with
  | nil => rw [reuse]
  | cons l ls ih =>
    obtain ⟨hl, hls⟩ := forall_mem_cons.1 h
    rw [reuse, if_neg hl]
    split
    · rfl
    · rw [ih hls, map_none]

theorem Inv.malloc (h : Inv loose p) (n : ℕ) : Inv (p.sys.length :: loose) { p with sys := p.sys ++ [n] } ∧
    Grows p { p with sys := p.sys ++ [n] } := by
  have hgrows : Grows p { p with sys := p.sys ++ [n] } :=
    ⟨rfl, List.Subset.refl _, List.Subset.refl _, prefix_append _ _, List.Subset.refl _, rfl⟩
  refine ⟨{ h with
    located := fun a ha hne => (h.located a ha hne).mono hgrows
    made := ?_ }, hgrows⟩
  change (p.sys.length :: loose ++ p.ids ++ p.allocs).Perm (range (p.sys ++ [n]).length)
  rw [length_append, length_singleton, range_succ]
  exact (h.made.cons _).trans (perm_append_singleton _ _).symm

theorem Inv.link {id : ℕ} (h : Inv (id :: loose) p) (owner : Owner) {place : Addr} (hid : place.block ∈ p.ids)
    (harea : ⟨.large, place.block, place.off, 16⟩ ∈ p.areas) {n : ℕ} (hn : p.sys[id]? = some n) :
    Inv loose { p with
      large := ⟨place, some id⟩ :: p.large, areas := ⟨owner, id, 0, n⟩ :: p.areas } ∧
    Grows p { p with large := ⟨place, some id⟩ :: p.large, areas := ⟨owner, id, 0, n⟩ :: p.areas } := by
  set p' : Pool := { p with large := ⟨place, some id⟩ :: p.large, areas := ⟨owner, id, 0, n⟩ :: p.areas } with hp'
  have hgrows : Grows p p' :=
    ⟨rfl, List.Subset.refl _, subset_cons_self .., prefix_rfl, subset_cons_self .., rfl⟩
  have hnew : id ∉ p.ids ++ p.allocs := fun hmem => by
    have hnodup := h.nodup
    rw [cons_append, cons_append, nodup_cons, append_assoc] at hnodup
    exact hnodup.1 (mem_append_right _ hmem)
  refine ⟨{ h with
    apart := pairwise_cons.2 ⟨fun a ha => .inl fun heq => ?_, h.apart⟩
    located := forall_mem_cons.2 ⟨fun _ => ⟨rfl, .inr ⟨mem_cons_self, rfl, hn⟩⟩,
      fun a ha hne => (h.located a ha hne).mono hgrows⟩
    headers := fun id hid => mem_cons_of_mem _ (h.headers id hid)
    large := forall_mem_cons.2 ⟨mem_cons_of_mem _ harea, fun l hl => mem_cons_of_mem _ (h.large l hl)⟩
    cleanup := fun c hc => mem_cons_of_mem _ (h.cleanup c hc)
    made := ?_
    owned := forall_mem_cons.2 ⟨mem_append_right _ mem_cons_self, fun a ha => ?_⟩
    below := fun a ha x hx heq => ?_
    record := forall_mem_cons.2 ⟨⟨hid, some_ne_none _⟩, h.record⟩ }, hgrows⟩
  · have heq : id = a.block := heq
    exact hnew (heq ▸ h.owned a ha)
  · exact List.Perm.trans perm_middle h.made
  · rcases mem_append.1 (h.owned a ha) with ha | ha
    · exact mem_append_left _ ha
    · exact mem_append_right _ (mem_cons_of_mem _ ha)
  · rcases mem_cons.1 ha with rfl | ha
    · refine (hnew (mem_append_left _ ?_)).elim
      rw [ids_eq, show id = x.1 from heq]
      exact mem_map_of_mem hx
    · exact h.below a ha x hx heq

theorem Inv.palloc (h : Inv loose p) (owner : Owner) (n : ℕ) :
    Inv loose (p.palloc owner n).1 ∧ Grows p (p.palloc owner n).1 := by
  rw [Pool.palloc]
  split
  · next hmax =>
    have := h.max_le
    obtain ⟨hinv, hgrows, -⟩ := h.pallocSmall (n := n) (by omega) owner
    exact ⟨hinv, hgrows⟩
  · have hroom := h.room
    rw [Pool.pallocLarge]
    rw [reuse_eq_none fun l hl => (h.record l hl).2]
    obtain ⟨h1, hg1⟩ := h.malloc n
    obtain ⟨h2, hg2, hid⟩ := h1.pallocSmall (n := 16) (by dsimp only; omega) .large
    have hlen : (lay .large 16 (Pool.pallocSmall { p with sys := p.sys ++ [n] } 16)).1.sys[p.sys.length]? = some n := by
      obtain ⟨rest, hrest⟩ := hg2.sys
      rw [← hrest, getElem?_append_left (by simp)]
      simp
    obtain ⟨h3, hg3⟩ := h2.link owner hid mem_cons_self hlen
    exact ⟨h3, hg1.trans (hg2.trans hg3)⟩

theorem areas_subset_pallocSmall (p : Pool) (n : ℕ) : p.areas ⊆ (p.pallocSmall n).1.areas := by
  rw [pallocSmall]
  split
  · exact List.Subset.refl _
  · exact subset_cons_self ..

theorem Inv.palloc_apart (h : Inv loose p) (owner : Owner) (n : ℕ) {a : Area} (ha : a ∈ p.areas) :
    Area.Apart ⟨owner, (p.palloc owner n).2.block, (p.palloc owner n).2.off, n⟩ a := by
  refine (pairwise_cons.1 (h.palloc owner n).1.apart).1 a ?_
  split
  · exact areas_subset_pallocSmall p n ha
  · rw [pallocLarge]
    split
    · exact ha
    · exact mem_cons_of_mem _ (areas_subset_pallocSmall { p with sys := p.sys ++ [n] } 16 ha)

theorem palloc_mem (p : Pool) (owner : Owner) (n : ℕ) :
    ⟨owner, (p.palloc owner n).2.block, (p.palloc owner n).2.off, n⟩ ∈ (p.palloc owner n).1.areas :=
  mem_cons_self

theorem Inv.withCleanup (h : Inv loose p) {cleanup : List Cleanup}
    (hc : ∀ c ∈ cleanup, ⟨.cleanup, c.place.block, c.place.off, 24⟩ ∈ p.areas) :
    Inv loose { p with cleanup := cleanup } :=
  { h with cleanup := hc }

theorem Inv.cleanupAdd (h : Inv loose p) (n : ℕ) : Inv loose (p.cleanupAdd n).1 ∧
    (∃ d, (p.cleanupAdd n).1.cleanup = ⟨(p.cleanupAdd n).2, d, none⟩ :: p.cleanup) ∧
      ∀ c ∈ p.cleanup, c.place ≠ (p.cleanupAdd n).2 := by
  obtain ⟨h1, hg1⟩ := h.palloc .cleanup 24
  have hmem := palloc_mem p .cleanup 24
  have hnew : ∀ c ∈ p.cleanup, c.place ≠ (p.palloc .cleanup 24).2 := by
    intro c hc heq
    have := h.palloc_apart .cleanup 24 (h.cleanup c hc)
    rw [heq, Area.Apart] at this
    dsimp only at this
    omega
  rw [Pool.cleanupAdd]
  split
  · exact ⟨h1.withCleanup (forall_mem_cons.2 ⟨hmem, h1.cleanup⟩), ⟨_, congrArg (_ :: ·) hg1.cleanup⟩,
      hnew⟩
  · obtain ⟨h2, hg2⟩ := h1.palloc .user n
    exact ⟨h2.withCleanup (forall_mem_cons.2 ⟨hg2.areas hmem, h2.cleanup⟩),
      ⟨_, congrArg (_ :: ·) (hg2.cleanup.trans hg1.cleanup)⟩, hnew⟩

theorem Inv.setHandler (h : Inv loose p) (c : Addr) (f : Handler) : Inv loose (p.setHandler c f) := by
  refine h.withCleanup fun r hr => ?_
  obtain ⟨r', hr', rfl⟩ := mem_map.1 hr
  have := h.cleanup r' hr'
  split
  · exact this
  · exact this

theorem mem_runFile {fd : ℤ} {cs : List Cleanup} {c : Cleanup} (h : c ∈ runFile fd cs) :
    ∃ c' ∈ cs, c'.place = c.place := by
  induction cs with
  | nil => cases h
  | cons c' cs ih =>
    rw [runFile] at h
    split at h
    · rcases mem_cons.1 h with rfl | h
      · exact ⟨c', mem_cons_self, rfl⟩
      · exact ⟨c, mem_cons_of_mem _ h, rfl⟩
    · rcases mem_cons.1 h with rfl | h
      · exact ⟨c, mem_cons_self, rfl⟩
      · obtain ⟨c'', hc'', heq⟩ := ih h
        exact ⟨c'', mem_cons_of_mem _ hc'', heq⟩

theorem Inv.runCleanupFile (h : Inv loose p) (fd : ℤ) : Inv loose (p.runCleanupFile fd) := by
  refine h.withCleanup fun c hc => ?_
  obtain ⟨c', hc', heq⟩ := mem_runFile hc
  rw [← heq]
  exact h.cleanup c' hc'

end Pool

/-! ### Runs -/

inductive Event where
  | palloc (n : ℕ)
  | cleanupAdd (n : ℕ)
  | setHandler (c : Addr) (h : Handler)
  | runCleanupFile (fd : ℤ)

def Event.Positive : Event → Prop
  | .palloc n | .cleanupAdd n => 0 < n
  | .setHandler _ _ | .runCleanupFile _ => True

def Pool.step (p : Pool) : Event → Pool
  | .palloc n => (p.palloc .user n).1
  | .cleanupAdd n => (p.cleanupAdd n).1
  | .setHandler c h => p.setHandler c h
  | .runCleanupFile fd => p.runCleanupFile fd

theorem inv_step {p : Pool} (h : p.Inv []) (e : Event) : (p.step e).Inv [] := by
  cases e with
  | palloc n => exact (h.palloc .user n).1
  | cleanupAdd n => exact (h.cleanupAdd n).1
  | setHandler c f => exact h.setHandler c f
  | runCleanupFile fd => exact h.runCleanupFile fd

theorem inv_run {p : Pool} (h : p.Inv []) (es : List Event) : (es.foldl Pool.step p).Inv [] := by
  induction es generalizing p with
  | nil => exact h
  | cons e es ih => exact ih (inv_step h e)

theorem inv_createPool {pagesize size : ℕ} {p : Pool} (h8 : 8 ∣ size) (h : createPool pagesize size = some p) :
    p.Inv [] := by
  rw [createPool] at h
  split at h
  · cases h
  · next hsize =>
    cases h
    refine ⟨⟨pairwise_singleton .., ?_, ?_, forall_mem_nil _, forall_mem_nil _⟩, h8, not_lt.1 hsize, ?_,
      mem_singleton.2 rfl, ?_, List.Perm.refl _, ?_, ?_, forall_mem_nil _⟩
    · exact forall_mem_singleton.2 fun hne => (hne rfl).elim
    · exact forall_mem_singleton.2 (mem_singleton.2 rfl)
    · dsimp only
      split <;> omega
    · exact forall_mem_singleton.2 (not_lt.1 hsize)
    · exact forall_mem_singleton.2 (mem_singleton.2 rfl)
    · exact forall_mem_singleton.2 (forall_mem_singleton.2 fun _ => le_rfl)

structure First (size last : ℕ) (p : Pool) : Prop where
  size_eq : p.size = size
  blocks : p.blocks = [⟨0, last, 0⟩]
  current : p.current = 0
  max : 8 ≤ p.max
  large : p.large = []

theorem First.palloc {size last n : ℕ} {p : Pool} (h : First size last p) (hn : n ≤ 8)
    (hfits : (n : ℤ) ≤ ((size : ℤ) - alignPtr last) % 2 ^ 64) :
    First size (alignPtr last + n) (p.step (.palloc n)) ∧
      ⟨.user, 0, alignPtr last, n⟩ ∈ (p.step (.palloc n)).areas := by
  rw [← h.size_eq] at hfits
  have hsmall : p.pallocSmall n = ({ p with blocks := [⟨0, alignPtr last + n, 0⟩] }, ⟨0, alignPtr last⟩) := by
    rw [Pool.pallocSmall, h.blocks, h.current, takeSmall, if_pos hfits]
  rw [Pool.step, Pool.palloc, if_pos (hn.trans h.max), hsmall]
  exact ⟨⟨h.size_eq, rfl, h.current, h.max, h.large⟩, mem_cons_self⟩

theorem First.eights {size q : ℕ} {p : Pool} (h : First size 72 p) (hlt : size < 2 ^ 64) (hq : 72 + 8 * q ≤ size) :
    First size (72 + 8 * q) ((replicate q (.palloc 8)).foldl Pool.step p) := by
  induction q with
  | zero => exact h
  | succ q ih =>
    rw [replicate_succ', foldl_append, foldl_cons, foldl_nil]
    have hlast : alignPtr (72 + 8 * q) = 72 + 8 * q := by
      rw [alignPtr]
      omega
    have := ((ih (by omega)).palloc le_rfl (by rw [hlast]; omega)).1
    rwa [hlast, add_assoc, ← Nat.mul_succ] at this

theorem First.exists_not_laid {size : ℕ} {p : Pool} (h : First size 72 p) (hsize : 72 ≤ size) (hlt : size < 2 ^ 64)
    (h8 : ¬8 ∣ size) : ∃ es : List Event, (∀ e ∈ es, e.Positive) ∧ ¬(es.foldl Pool.step p).Laid := by
  refine ⟨replicate ((size - 72) / 8) (.palloc 8) ++ [.palloc (size % 8), .palloc 1], ?_, fun hlaid => ?_⟩
  · intro e he
    rcases mem_append.1 he with he | he
    · rw [eq_of_mem_replicate he]
      exact Nat.zero_lt_succ 7
    · simp only [mem_cons, not_mem_nil, or_false] at he
      rcases he with rfl | rfl
      · exact Nat.pos_of_ne_zero fun h => h8 (Nat.dvd_of_mod_eq_zero h)
      · exact Nat.one_pos
  · rw [foldl_append, foldl_cons, foldl_cons, foldl_nil] at hlaid
    have hfull := h.eights hlt (q := (size - 72) / 8) (by omega)
    have hlast : alignPtr (72 + 8 * ((size - 72) / 8)) + size % 8 = size := by
      rw [alignPtr]
      omega
    have hend := (hfull.palloc (n := size % 8) (by omega) (by omega)).1
    rw [hlast] at hend
    obtain ⟨hafter, hmem⟩ := hend.palloc (n := 1) (by omega) (by rw [alignPtr]; omega)
    obtain ⟨-, ⟨-, -, hin⟩ | ⟨hin, -⟩⟩ := hlaid.located _ hmem (show Owner.user ≠ .header by decide)
    · rw [hafter.size_eq] at hin
      have := le_alignPtr size
      dsimp only at hin
      omega
    · rw [Pool.allocs, hafter.large] at hin
      cases hin

theorem pool_laid_iff (pagesize size : ℕ) (hpage : 8 < pagesize) (hsize : 136 ≤ size) (hlt : size < 2 ^ 64) :
    (∀ p, createPool pagesize size = some p → ∀ es : List Event, (∀ e ∈ es, e.Positive) →
      (es.foldl Pool.step p).Laid) ↔ 8 ∣ size := by
  constructor
  · intro hlaid
    by_contra h8
    obtain ⟨p, hp, hfirst⟩ : ∃ p, createPool pagesize size = some p ∧ First size 72 p :=
      ⟨_, if_neg (by omega), rfl, rfl, rfl, by dsimp only; split <;> omega, rfl⟩
    obtain ⟨es, hpos, hnot⟩ := hfirst.exists_not_laid (by omega) hlt h8
    exact hnot (hlaid p hp es hpos)
  · intro h8 p hp es _
    exact (inv_run (inv_createPool h8 hp) es).toLaid

theorem pool_laid_136 : ∃ p, createPool 4096 136 = some p ∧
    ([.palloc 64, .palloc 100, .cleanupAdd 8].foldl Pool.step p).Laid := by
  obtain ⟨p, hp⟩ : ∃ p, createPool 4096 136 = some p := ⟨_, rfl⟩
  refine ⟨p, hp, (pool_laid_iff 4096 136 (by decide) (by decide) (by decide)).2 (by decide) p hp _ ?_⟩
  intro e he
  simp only [mem_cons, not_mem_nil, or_false] at he
  rcases he with rfl | rfl | rfl <;> exact Nat.zero_lt_succ _

theorem palloc_behind_end :
    (createPool 4096 137).map (fun p => ([.palloc 65, .palloc 1].foldl Pool.step p).areas.head?) =
      some (some ⟨.user, 0, 144, 1⟩) := by decide

/-! ### Destruction -/

inductive Action where
  | run (h : Handler)
  | free (id : ℕ)
  deriving DecidableEq

def runHandlers (live : List ℕ) : List Cleanup → Option (List Action)
  | [] => some []
  | c :: cs =>
    if c.place.block ∈ live then
      (runHandlers live cs).map fun as => (c.handler.map Action.run).toList ++ as
    else none

def free (live : List ℕ) (id : ℕ) : Option (List ℕ) := if id ∈ live then some (live.erase id) else none

def freeLarge (live : List ℕ) : List Large → Option (List Action × List ℕ)
  | [] => some ([], live)
  | l :: ls =>
    if l.place.block ∈ live then
      match l.alloc with
      | none => freeLarge live ls
      | some id => (free live id).bind fun live => (freeLarge live ls).map fun r => (.free id :: r.1, r.2)
    else none

def freeBlocks (live : List ℕ) : List Block → Option (List Action × List ℕ)
  | [] => some ([], live)
  | b :: bs => (free live b.id).bind fun live => (freeBlocks live bs).map fun r => (.free b.id :: r.1, r.2)

def destroyPool (p : Pool) : Option (List Action × List ℕ) :=
  let live := range p.sys.length
  (runHandlers live p.cleanup).bind fun as =>
    (freeLarge live p.large).bind fun r =>
      (freeBlocks r.2 p.blocks).map fun r' => (as ++ r.1 ++ r'.1, r'.2)

structure System where
  pool : Pool
  pending : List (Addr × Option Handler) := []

def clearFile (fd : ℤ) : List (Addr × Option Handler) → List (Addr × Option Handler)
  | [] => []
  | r :: rs => if r.2 = some (.file fd) then (r.1, none) :: rs else r :: clearFile fd rs

def System.step (s : System) (e : Event) : System where
  pool := s.pool.step e
  pending :=
    match e with
    | .palloc _ => s.pending
    | .cleanupAdd n => ((s.pool.cleanupAdd n).2, none) :: s.pending
    | .setHandler c h => s.pending.map fun r => if r.1 = c then (r.1, some h) else r
    | .runCleanupFile fd => clearFile fd s.pending

structure System.Sound (s : System) : Prop where
  inv : s.pool.Inv []
  pending : s.pool.cleanup.map (fun c => (c.place, c.handler)) = s.pending
  nodup : (s.pending.map fst).Nodup

theorem map_runFile (fd : ℤ) (cs : List Cleanup) :
    (Pool.runFile fd cs).map (fun c => (c.place, c.handler)) =
      clearFile fd (cs.map fun c => (c.place, c.handler)) := by
  induction cs with
  | nil => rfl
  | cons c cs ih =>
    rw [Pool.runFile, map_cons, clearFile]
    split
    · rfl
    · rw [map_cons, ih]

theorem fst_clearFile (fd : ℤ) (rs : List (Addr × Option Handler)) :
    (clearFile fd rs).map fst = rs.map fst := by
  induction rs with
  | nil => rfl
  | cons r rs ih =>
    rw [clearFile]
    split
    · rfl
    · rw [map_cons, map_cons, ih]

theorem System.Sound.step {s : System} (h : s.Sound) (e : Event) : (s.step e).Sound := by
  refine ⟨inv_step h.inv e, ?_, ?_⟩
  · cases e with
    | palloc n => exact (congrArg _ (h.inv.palloc .user n).2.cleanup).trans h.pending
    | cleanupAdd n =>
      obtain ⟨-, ⟨d, hd⟩, -⟩ := h.inv.cleanupAdd n
      refine (congrArg _ hd).trans ?_
      rw [map_cons, h.pending]
      rfl
    | setHandler c f =>
      dsimp only [System.step, Pool.step, Pool.setHandler]
      rw [← h.pending, List.map_map, List.map_map]
      refine map_congr_left fun r _ => ?_
      dsimp only [Function.comp]
      split <;> rfl
    | runCleanupFile fd =>
      refine (map_runFile fd _).trans ?_
      rw [h.pending]
      rfl
  · cases e with
    | palloc n => exact h.nodup
    | cleanupAdd n =>
      obtain ⟨-, -, hnew⟩ := h.inv.cleanupAdd n
      refine nodup_cons.2 ⟨fun hmem => ?_, h.nodup⟩
      rw [← h.pending, List.map_map] at hmem
      obtain ⟨c, hc, heq⟩ := mem_map.1 hmem
      exact hnew c hc heq
    | setHandler c f =>
      have : ((s.step (.setHandler c f)).pending).map fst = s.pending.map fst := by
        dsimp only [System.step]
        rw [List.map_map]
        refine map_congr_left fun r _ => ?_
        dsimp only [Function.comp]
        split <;> rfl
      rw [this]
      exact h.nodup
    | runCleanupFile fd =>
      have := h.nodup
      rw [← fst_clearFile fd] at this
      exact this

theorem runHandlers_eq {live : List ℕ} {cs : List Cleanup} (h : ∀ c ∈ cs, c.place.block ∈ live) :
    runHandlers live cs = some ((cs.filterMap Cleanup.handler).map .run) := by
  induction cs with
  | nil => rfl
  | cons c cs ih =>
    obtain ⟨hc, hcs⟩ := forall_mem_cons.1 h
    rw [runHandlers, if_pos hc, ih hcs, filterMap_cons]
    cases c.handler with
    | none => rfl
    | some f => rfl

theorem freeLarge_eq {live : List ℕ} {ls : List Large} (hplace : ∀ l ∈ ls, l.place.block ∈ live)
    (hlive : ls.filterMap Large.alloc ⊆ live) (hnodup : (ls.filterMap Large.alloc).Nodup)
    (hapart : ∀ l ∈ ls, l.place.block ∉ ls.filterMap Large.alloc) :
    freeLarge live ls =
      some ((ls.filterMap Large.alloc).map .free, live.diff (ls.filterMap Large.alloc)) := by
  induction ls generalizing live with
  | nil => rfl
  | cons l ls ih =>
    obtain ⟨hl, hls⟩ := forall_mem_cons.1 hplace
    obtain ⟨-, hapart⟩ := forall_mem_cons.1 hapart
    rw [freeLarge, if_pos hl]
    cases halloc : l.alloc with
    | none =>
      rw [filterMap_cons_none halloc] at *
      exact ih hls hlive hnodup hapart
    | some id =>
      rw [filterMap_cons_some halloc] at *
      obtain ⟨hid, hlive⟩ := cons_subset.1 hlive
      obtain ⟨hnot, hnodup⟩ := nodup_cons.1 hnodup
      dsimp only
      rw [free, if_pos hid, bind_some, ih (fun l' hl' => ?_) (fun id' hid' => ?_) hnodup fun l' hl' => ?_]
      · rw [diff_cons]
        rfl
      · refine (mem_erase_of_ne fun heq => hapart l' hl' ?_).2 (hls l' hl')
        rw [heq]
        exact mem_cons_self
      · refine (mem_erase_of_ne fun heq => hnot ?_).2 (hlive hid')
        rwa [← heq]
      · exact fun hmem => hapart l' hl' (mem_cons_of_mem _ hmem)

theorem freeBlocks_eq {live : List ℕ} {bs : List Block} (hlive : bs.map Block.id ⊆ live)
    (hnodup : (bs.map Block.id).Nodup) :
    freeBlocks live bs = some ((bs.map Block.id).map .free, live.diff (bs.map Block.id)) := by
  induction bs generalizing live with
  | nil => rfl
  | cons b bs ih =>
    obtain ⟨hb, hbs⟩ := cons_subset.1 hlive
    obtain ⟨hnot, hnodup⟩ := nodup_cons.1 hnodup
    rw [freeBlocks, free, if_pos hb, bind_some, ih (fun id hid => ?_) hnodup]
    · rw [map_cons, diff_cons]
      rfl
    · exact (mem_erase_of_ne (fun heq => hnot (by rwa [heq] at hid))).2 (hbs hid)

theorem System.Sound.run {s : System} (h : s.Sound) (es : List Event) : (es.foldl System.step s).Sound := by
  induction es generalizing s with
  | nil => exact h
  | cons e es ih => exact ih (h.step e)

theorem destroyPool_frees (pagesize size : ℕ) (h16 : 16 ∣ size) (p : Pool)
    (hp : createPool pagesize size = some p) (es : List Event) :
    let s := es.foldl System.step ⟨p, []⟩
    (s.pending.map fst).Nodup ∧ (s.pool.allocs ++ s.pool.ids).Perm (range s.pool.sys.length) ∧
      destroyPool s.pool =
        some ((s.pending.filterMap snd).map .run ++ (s.pool.allocs ++ s.pool.ids).map .free, []) := by
  intro s
  have h8 : 8 ∣ size := Dvd.dvd.trans (by decide) h16
  have hcleanup : p.cleanup = [] := by
    rw [createPool] at hp
    split at hp
    · cases hp
    · cases hp
      rfl
  have hs : s.Sound := System.Sound.run (s := ⟨p, []⟩) ⟨inv_createPool h8 hp, by rw [hcleanup]; rfl, nodup_nil⟩ es
  have hmade := hs.inv.made
  have hnodup := hs.inv.nodup
  obtain ⟨hids, hallocs, hdisj⟩ := nodup_append.1 hnodup
  have hperm := perm_append_comm.trans hmade
  have hrange {id : ℕ} (hid : id ∈ s.pool.ids ++ s.pool.allocs) : id ∈ range s.pool.sys.length :=
    hmade.subset hid
  refine ⟨hs.nodup, hperm, ?_⟩
  have hhandlers : s.pool.cleanup.filterMap Cleanup.handler = s.pending.filterMap snd := by
    rw [← hs.pending, filterMap_map]
    rfl
  have hlarge : freeLarge (range s.pool.sys.length) s.pool.large =
      some (s.pool.allocs.map .free, (range s.pool.sys.length).diff s.pool.allocs) :=
    freeLarge_eq (fun l hl => hrange (mem_append_left _ (hs.inv.record l hl).1))
      (fun id hid => hrange (mem_append_right _ hid)) hallocs
      fun l hl hmem => hdisj _ (hs.inv.record l hl).1 _ hmem rfl
  have hblocks : freeBlocks ((range s.pool.sys.length).diff s.pool.allocs) s.pool.blocks =
      some (s.pool.ids.map .free, ((range s.pool.sys.length).diff s.pool.allocs).diff s.pool.ids) :=
    freeBlocks_eq (fun id hid => nodup_range.mem_sdiff_iff.2
      ⟨hrange (mem_append_left _ hid), fun hmem => hdisj _ hid _ hmem rfl⟩) hids
  have hempty : ((range s.pool.sys.length).diff s.pool.allocs).diff s.pool.ids = [] := by
    rw [← diff_append, eq_nil_iff_forall_not_mem]
    intro id hid
    rw [nodup_range.mem_sdiff_iff] at hid
    exact hid.2 (hperm.symm.subset hid.1)
  rw [destroyPool, runHandlers_eq fun c hc => hrange (hs.inv.owned _ (hs.inv.cleanup c hc)), bind_some, hlarge,
    bind_some]
  rw [hblocks, hempty, hhandlers, map_some, map_append, append_assoc]

theorem destroyPool_two :
    let s := [Event.cleanupAdd 8, .setHandler ⟨0, 72⟩ (.other 1), .cleanupAdd 8,
      .setHandler ⟨0, 104⟩ (.file 5), .runCleanupFile 5, .palloc 200].foldl System.step
        ⟨⟨160, 88, [⟨0, 72, 0⟩], 0, [], [], [160], [⟨.header, 0, 0, 72⟩]⟩, []⟩
    destroyPool s.pool =
        some ((s.pending.filterMap snd).map .run ++ (s.pool.allocs ++ s.pool.ids).map .free, []) ∧
      s.pending = [(⟨0, 104⟩, none), (⟨0, 72⟩, some (.other 1))] :=
  ⟨(destroyPool_frees 4096 160 (by decide) _ rfl _).2.2, by decide⟩

theorem createPool_small : 16 ∣ 64 ∧ createPool 4096 64 = none := by decide

/-! ### Where the search starts -/

structure Search where
  pool : Pool
  tooSmall : ℕ → ℕ := fun _ => 0

def Search.pallocSmall (s : Search) (n : ℕ) : Search where
  pool := (s.pool.pallocSmall n).1
  tooSmall id :=
    if takeSmall s.pool.size n s.pool.current s.pool.blocks = none ∧
        id ∈ (s.pool.blocks.drop s.pool.current).map Block.id then s.tooSmall id + 1
    else s.tooSmall id

theorem takeSmall_eq_none {size n skip : ℕ} {bs : List Block} (h : takeSmall size n skip bs = none) :
    ∀ b ∈ bs.drop skip, ¬(n : ℤ) ≤ ((size : ℤ) - alignPtr b.last) % 2 ^ 64 := by
  induction bs generalizing skip with
  | nil => simp
  | cons b bs ih =>
    cases skip with
    | zero =>
      rw [takeSmall] at h
      split at h
      · cases h
      · next hfits => exact forall_mem_cons.2 ⟨hfits, ih (map_eq_none_iff.1 h)⟩
    | succ skip => exact ih (map_eq_none_iff.1 (by rwa [takeSmall] at h))

theorem countFailed_append (i current : ℕ) (front : List Block) {rest : List Block} (hrest : rest ≠ []) :
    countFailed front.length i current (front ++ rest) =
      (front ++ (countFailed 0 (i + front.length) current rest).1,
        (countFailed 0 (i + front.length) current rest).2) := by
  induction front generalizing i with
  | nil => rfl
  | cons b front ih =>
    obtain ⟨b', bs, hbs⟩ := exists_cons_of_ne_nil (append_ne_nil_of_right_ne_nil front hrest)
    rw [cons_append, hbs, length_cons, countFailed, ← hbs, ih, Nat.add_right_comm]
    rfl

theorem countFailed_passes (i current : ℕ) {rest : List Block} (hrest : rest ≠ [])
    (hsorted : rest.Pairwise fun b b' => b'.failed ≤ b.failed) :
    ∃ passed kept, countFailed 0 i current rest =
        (passed ++ kept, if passed = [] then current else i + passed.length) ∧
      (∀ b ∈ passed, 6 ≤ b.failed) ∧ (kept.Pairwise fun b b' => b'.failed ≤ b.failed) ∧
      ∀ b ∈ passed ++ kept, ∃ b' ∈ rest, b.id = b'.id ∧ b.failed ≤ b'.failed + 1 := by
  induction rest generalizing i current with
  | nil => exact (hrest rfl).elim
  | cons b rest ih =>
    cases rest with
    | nil =>
      exact ⟨[], [b], rfl, forall_mem_nil _, pairwise_singleton .., fun b' hb' => ⟨b', hb', rfl, Nat.le_succ _⟩⟩
    | cons b' bs =>
      obtain ⟨hle, hsorted⟩ := pairwise_cons.1 hsorted
      obtain ⟨passed, kept, heq, hpassed, hpair, hfrom⟩ :=
        ih (i + 1) (if 4 < b.failed then i + 1 else current) (cons_ne_nil _ _) hsorted
      have hold : ∀ x ∈ passed ++ kept, ∃ y ∈ b :: b' :: bs, x.id = y.id ∧ x.failed ≤ y.failed + 1 := by
        intro x hx
        obtain ⟨y, hy, hxy⟩ := hfrom x hx
        exact ⟨y, mem_cons_of_mem _ hy, hxy⟩
      have hbound : ∀ x ∈ passed ++ kept, x.failed ≤ b.failed + 1 := by
        intro x hx
        obtain ⟨y, hy, -, hxy⟩ := hfrom x hx
        have := hle y hy
        omega
      rw [countFailed, heq]
      by_cases hfail : 4 < b.failed
      · refine ⟨{ b with failed := b.failed + 1 } :: passed, kept, ?_,
          forall_mem_cons.2 ⟨Nat.succ_le_succ hfail, hpassed⟩, hpair,
          forall_mem_cons.2 ⟨⟨b, mem_cons_self, rfl, le_rfl⟩, hold⟩⟩
        rw [if_pos hfail, if_neg (cons_ne_nil _ _), length_cons]
        split
        · next hnil => rw [hnil]; rfl
        · rw [← add_assoc, Nat.add_right_comm]; rfl
      · -- a block behind one that is kept has not failed more often
        obtain rfl : passed = [] := by
          refine eq_nil_iff_forall_not_mem.2 fun x hx => ?_
          have h6 := hpassed x hx
          have := hbound x (mem_append_left _ hx)
          omega
        refine ⟨[], { b with failed := b.failed + 1 } :: kept, ?_, forall_mem_nil _,
          pairwise_cons.2 ⟨hbound, hpair⟩, forall_mem_cons.2 ⟨⟨b, mem_cons_self, rfl, le_rfl⟩, hold⟩⟩
        rw [if_pos rfl, if_pos rfl, if_neg hfail]
        rfl

structure Search.Sound (s : Search) (front rest : List (ℕ × ℕ)) : Prop where
  chain : s.pool.blocks.map (fun b => (b.id, b.failed)) = front ++ rest
  current : s.pool.current = front.length
  ne_nil : rest ≠ []
  sorted : rest.Pairwise fun x y => y.2 ≤ x.2
  before : ∀ x ∈ front, 6 ≤ s.tooSmall x.1
  failed : ∀ x ∈ rest, x.2 ≤ s.tooSmall x.1

theorem Search.Sound.pallocSmall {s : Search} {front rest : List (ℕ × ℕ)} (h : s.Sound front rest) (n : ℕ) :
    ∃ front' rest', (s.pallocSmall n).Sound front' rest' := by
  cases htake : takeSmall s.pool.size n s.pool.current s.pool.blocks with
  | some r =>
    have hsame : (s.pallocSmall n).tooSmall = s.tooSmall := by
      funext id
      simp [Search.pallocSmall, htake]
    have hpool : (s.pallocSmall n).pool = { s.pool with blocks := r.1 } := by
      rw [Search.pallocSmall, Pool.pallocSmall, htake]
    refine ⟨front, rest, ?_, by rw [hpool]; exact h.current, h.ne_nil, h.sorted, by rw [hsame]; exact h.before,
      by rw [hsame]; exact h.failed⟩
    obtain ⟨bs, a⟩ := r
    obtain ⟨pre, b, post, hbs, hr, -⟩ := takeSmall_spec htake
    rw [← h.chain, hpool, hbs]
    simp [hr]
  | none =>
    obtain ⟨frontB, restB, hblocks, rfl, rfl⟩ := map_eq_append_iff.1 h.chain
    have hcurrent : s.pool.current = frontB.length := by rw [h.current, length_map]
    obtain ⟨passed, kept, heq, hpassed, hpair, hfrom⟩ := countFailed_passes frontB.length frontB.length
      (fun hnil => h.ne_nil (by rw [hnil]; rfl)) (pairwise_map.1 h.sorted)
    have hpool : (s.pallocSmall n).pool = (s.pool.pallocBlock n).1 := by
      rw [Search.pallocSmall, Pool.pallocSmall, htake]
    have hcount : countFailed s.pool.current 0 s.pool.current s.pool.blocks =
        (frontB ++ (passed ++ kept), frontB.length + passed.length) := by
      rw [hblocks, hcurrent, countFailed_append _ _ _ fun hnil => h.ne_nil (by rw [hnil]; rfl), Nat.zero_add, heq]
      congr 1
      split
      · next hnil => rw [hnil]; rfl
      · rfl
    have hle (id : ℕ) : s.tooSmall id ≤ (s.pallocSmall n).tooSmall id := by
      rw [Search.pallocSmall]
      dsimp only
      split
      · exact Nat.le_succ _
      · exact le_rfl
    -- the blocks from `current` on were found too small, and none has failed more often than that
    have hmore : ∀ b ∈ passed ++ kept, b.failed ≤ (s.pallocSmall n).tooSmall b.id := by
      intro b hb
      obtain ⟨b', hb', hid, hfailed⟩ := hfrom b hb
      have hmem : b.id ∈ (s.pool.blocks.drop s.pool.current).map Block.id := by
        rw [hblocks, hcurrent, drop_left, hid]
        exact mem_map_of_mem hb'
      rw [Search.pallocSmall]
      dsimp only
      rw [if_pos ⟨htake, hmem⟩, hid]
      exact hfailed.trans (Nat.succ_le_succ (h.failed _ (mem_map_of_mem hb')))
    let new : Block := ⟨s.pool.sys.length, alignPtr 32 + n, 0⟩
    refine ⟨(frontB ++ passed).map fun b => (b.id, b.failed), (kept ++ [new]).map fun b => (b.id, b.failed),
      ?_, ?_, ?_, ?_, ?_, ?_⟩
    · rw [hpool, Pool.pallocBlock, hcount]
      simp [new]
    · rw [hpool, Pool.pallocBlock, hcount, length_map, length_append]
    · simp
    · refine pairwise_map.2 (pairwise_append.2 ⟨hpair, pairwise_singleton .., fun b _ b' hb' => ?_⟩)
      rw [mem_singleton.1 hb']
      exact Nat.zero_le _
    · refine forall_mem_map.2 fun b hb => ?_
      rcases mem_append.1 hb with hb | hb
      · exact (h.before _ (mem_map_of_mem hb)).trans (hle _)
      · exact (hpassed b hb).trans (hmore b (mem_append_left _ hb))
    · refine forall_mem_map.2 fun b hb => ?_
      rcases mem_append.1 hb with hb | hb
      · exact hmore b (mem_append_right _ hb)
      · rw [mem_singleton.1 hb]
        exact Nat.zero_le _

theorem Search.Sound.run {s : Search} {front rest : List (ℕ × ℕ)} (h : s.Sound front rest) (ns : List ℕ) :
    ∃ front' rest', (ns.foldl Search.pallocSmall s).Sound front' rest' := by
  induction ns generalizing s front rest with
  | nil => exact ⟨front, rest, h⟩
  | cons n ns ih =>
    obtain ⟨front', rest', h'⟩ := h.pallocSmall n
    exact ih h'

theorem search_start (pagesize size : ℕ) (p : Pool) (hp : createPool pagesize size = some p) (ns : List ℕ) :
    let s := ns.foldl Search.pallocSmall ⟨p, fun _ => 0⟩
    s.pool.current < s.pool.blocks.length ∧
      ((s.pool.blocks.drop s.pool.current).Pairwise fun b b' => b'.failed ≤ b.failed) ∧
      (∀ b ∈ s.pool.blocks.take s.pool.current, 6 ≤ s.tooSmall b.id) ∧
      ∀ n, (s.pool.pallocSmall n).1.sys ≠ s.pool.sys →
        ∀ b ∈ s.pool.blocks.drop s.pool.current, ¬(n : ℤ) ≤ ((s.pool.size : ℤ) - alignPtr b.last) % 2 ^ 64 := by
  intro s
  obtain ⟨hblocks, hcurrent⟩ : p.blocks = [⟨0, 72, 0⟩] ∧ p.current = 0 := by
    rw [createPool] at hp
    split at hp
    · cases hp
    · cases hp
      exact ⟨rfl, rfl⟩
  have hstart : Search.Sound ⟨p, fun _ => 0⟩ [] [(0, 0)] :=
    ⟨by rw [hblocks]; rfl, hcurrent, cons_ne_nil _ _, pairwise_singleton .., forall_mem_nil _,
      forall_mem_singleton.2 le_rfl⟩
  obtain ⟨front, rest, h⟩ := hstart.run ns
  obtain ⟨frontB, restB, hchain, rfl, rfl⟩ := map_eq_append_iff.1 h.chain
  have hlen : s.pool.current = frontB.length := by rw [h.current, length_map]
  refine ⟨?_, ?_, ?_, fun n hnew => ?_⟩
  · have hpos := length_pos_iff.2 h.ne_nil
    rw [length_map] at hpos
    rw [hchain, hlen, length_append]
    omega
  · rw [hchain, hlen, drop_left]
    exact pairwise_map.1 h.sorted
  · rw [hchain, hlen, take_left]
    exact fun b hb => h.before _ (mem_map_of_mem hb)
  · cases htake : takeSmall s.pool.size n s.pool.current s.pool.blocks with
    | some r => exact (hnew (by rw [Pool.pallocSmall, htake])).elim
    | none => exact takeSmall_eq_none htake

theorem search_start_passed :
    ∃ p, createPool 4096 136 = some p ∧
      let s := (replicate 8 64).foldl Search.pallocSmall ⟨p, fun _ => 0⟩
      s.pool.current = 1 ∧ ∀ b ∈ s.pool.blocks.take s.pool.current, 6 ≤ s.tooSmall b.id :=
  ⟨_, rfl, by decide +kernel, (search_start 4096 136 _ rfl (replicate 8 64)).2.2.1⟩

end NgxPool
