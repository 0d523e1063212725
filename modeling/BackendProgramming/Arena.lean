/-
**The arena of `ComponentsW` (`common/arena.cpp`).**

An arena hands out the bytes of a block of 4096 bytes.  A request that is larger than the rest of the block
gets a new block: one of its own if it asks for more than a quarter of a block, and otherwise the next one to
hand out.  The address that `new` would return is part of a call.
-/

import BackendProgramming.Lts

set_option autoImplicit false

namespace ComponentsW

open List

structure MemRange where
  start : ℕ
  len : ℕ
  deriving DecidableEq

namespace MemRange

def Apart (r r' : MemRange) : Prop := r.start + r.len ≤ r'.start ∨ r'.start + r'.len ≤ r.start

def Inside (r b : MemRange) : Prop := b.start ≤ r.start ∧ r.start + r.len ≤ b.start + b.len

instance : DecidableRel Apart := fun _ _ => inferInstanceAs (Decidable (_ ∨ _))

instance : DecidableRel Inside := fun _ _ => inferInstanceAs (Decidable (_ ∧ _))

variable {r r' b b' : MemRange}

theorem Inside.refl (r : MemRange) : r.Inside r := ⟨le_rfl, le_rfl⟩

theorem Inside.trans (h : r.Inside b) (h' : b.Inside b') : r.Inside b' := ⟨h'.1.trans h.1, h.2.trans h'.2⟩

theorem Apart.symm (h : r.Apart r') : r'.Apart r := Or.symm h

theorem Apart.mono (h : b.Apart b') (hr : r.Inside b) (hr' : r'.Inside b') : r.Apart r' := by
  obtain ⟨h₁, h₂⟩ := hr
  obtain ⟨h₁', h₂'⟩ := hr'
  rcases h with h | h
  · exact .inl (by omega)
  · exact .inr (by omega)

end MemRange

structure Arena where
  blocks : List MemRange := []
  allocPtr : ℕ := 0
  allocBytesRemaining : ℕ := 0
  memoryUsage : ℕ := 0

namespace Arena

def kBlockSize : ℕ := 4096

def Fresh (a : Arena) (r : MemRange) : Prop :=
  0 < r.start ∧ r.start % 8 = 0 ∧ r.start + r.len ≤ 2 ^ 64 ∧ ∀ b ∈ a.blocks, r.Apart b

instance (a : Arena) (r : MemRange) : Decidable (a.Fresh r) := inferInstanceAs (Decidable (_ ∧ _))

def allocateNewBlock (a : Arena) (bytes fresh : ℕ) : Option (ℕ × Arena) :=
  if a.Fresh ⟨fresh, bytes⟩ then
    some (fresh, { a with
      blocks := a.blocks ++ [⟨fresh, bytes⟩]
      memoryUsage := (a.memoryUsage + bytes + 8) % 2 ^ 64 })
  else none

def bump (a : Arena) (bytes : ℕ) : Arena :=
  { a with allocPtr := a.allocPtr + bytes, allocBytesRemaining := a.allocBytesRemaining - bytes }

def allocateFallback (a : Arena) (bytes fresh : ℕ) : Option (ℕ × Arena) :=
  if kBlockSize / 4 < bytes then a.allocateNewBlock bytes fresh
  else (a.allocateNewBlock kBlockSize fresh).map fun x =>
    (x.1, { x.2 with allocPtr := x.1, allocBytesRemaining := kBlockSize }.bump bytes)

def allocate (a : Arena) (bytes fresh : ℕ) : Option (ℕ × Arena) :=
  if bytes ≤ a.allocBytesRemaining then some (a.allocPtr, a.bump bytes) else a.allocateFallback bytes fresh

def slop (a : Arena) : ℕ := if a.allocPtr % 8 = 0 then 0 else 8 - a.allocPtr % 8

def allocateAligned (a : Arena) (bytes fresh : ℕ) : Option (ℕ × Arena) :=
  let needed := (bytes + a.slop) % 2 ^ 64
  if needed ≤ a.allocBytesRemaining then some (a.allocPtr + a.slop, a.bump needed)
  else a.allocateFallback bytes fresh

def rest (a : Arena) : MemRange := ⟨a.allocPtr, a.allocBytesRemaining⟩

inductive Takes (a : Arena) (n k : ℕ) : ℕ → Arena → Prop
  | rest (h : (n + k) % 2 ^ 64 ≤ a.allocBytesRemaining) : Takes a n k (a.allocPtr + k) (a.bump ((n + k) % 2 ^ 64))
  | block {fresh : ℕ} (h : a.Fresh ⟨fresh, n⟩) : Takes a n k fresh
      { a with blocks := a.blocks ++ [⟨fresh, n⟩], memoryUsage := (a.memoryUsage + n + 8) % 2 ^ 64 }
  | refill {fresh : ℕ} (hn : n ≤ kBlockSize) (h : a.Fresh ⟨fresh, kBlockSize⟩) : Takes a n k fresh
      (bump ⟨a.blocks ++ [⟨fresh, kBlockSize⟩], fresh, kBlockSize, (a.memoryUsage + kBlockSize + 8) % 2 ^ 64⟩ n)

variable {a a' : Arena} {n k fresh x : ℕ}

theorem allocateFallback_takes (h : a.allocateFallback n fresh = some (x, a')) : Takes a n k x a' ∧ x % 8 = 0 := by
  rw [allocateFallback, allocateNewBlock, allocateNewBlock] at h
  split at h
  · split at h
    · next hfresh =>
      cases h
      exact ⟨.block hfresh, hfresh.2.1⟩
    · cases h
  · next hsmall =>
    split at h
    · next hfresh =>
      cases h
      exact ⟨.refill ((not_lt.1 hsmall).trans (by decide)) hfresh, hfresh.2.1⟩
    · cases h

theorem allocate_takes (hn : n < 2 ^ 64) (h : a.allocate n fresh = some (x, a')) : Takes a n 0 x a' := by
  have hmod : (n + 0) % 2 ^ 64 = n := Nat.mod_eq_of_lt hn
  rw [allocate] at h
  split at h
  · next hrest =>
    cases h
    have htakes : Takes a n 0 (a.allocPtr + 0) (a.bump ((n + 0) % 2 ^ 64)) := .rest (by rwa [hmod])
    rwa [hmod, add_zero] at htakes
  · exact (allocateFallback_takes h).1

theorem allocateAligned_takes (h : a.allocateAligned n fresh = some (x, a')) :
    Takes a n a.slop x a' ∧ x % 8 = 0 := by
  rw [allocateAligned] at h
  split at h
  · next hrest =>
    cases h
    refine ⟨.rest hrest, ?_⟩
    rw [slop]
    split <;> omega
  · exact allocateFallback_takes h

end Arena

/-! ### Histories -/

structure ArenaHistory where
  arena : Arena := {}
  ranges : List MemRange := []
  aligned : List ℕ := []

inductive ArenaCall where
  | allocate (bytes fresh : ℕ)
  | allocateAligned (bytes fresh : ℕ)
  deriving DecidableEq

def ArenaCall.bytes : ArenaCall → ℕ
  | .allocate bytes _ => bytes
  | .allocateAligned bytes _ => bytes

namespace ArenaHistory

def step (h : ArenaHistory) (c : ArenaCall) : Option ArenaHistory :=
  if 0 < c.bytes ∧ c.bytes < 2 ^ 64 then
    match c with
    | .allocate bytes fresh => (h.arena.allocate bytes fresh).map fun x =>
        { h with arena := x.2, ranges := ⟨x.1, bytes⟩ :: h.ranges }
    | .allocateAligned bytes fresh => (h.arena.allocateAligned bytes fresh).map fun x =>
        ⟨x.2, ⟨x.1, bytes⟩ :: h.ranges, x.1 :: h.aligned⟩
  else none

def blocksUsage (h : ArenaHistory) : ℕ := (h.arena.blocks.map fun b => b.len + 8).sum

def Laid (h : ArenaHistory) : Prop :=
  h.ranges.Pairwise MemRange.Apart ∧ (∀ r ∈ h.ranges, ∃ b ∈ h.arena.blocks, r.Inside b) ∧
    (∀ x ∈ h.aligned, x % 8 = 0) ∧ h.arena.memoryUsage = h.blocksUsage

instance (h : ArenaHistory) : Decidable h.Laid := inferInstanceAs (Decidable (_ ∧ _))

def skip (h : ArenaHistory) : ArenaCall → ℕ
  | .allocate _ _ => 0
  | .allocateAligned _ _ => h.arena.slop

def NoWrap (h : ArenaHistory) (c : ArenaCall) : Prop := c.bytes + h.skip c < 2 ^ 64

instance (h : ArenaHistory) (c : ArenaCall) : Decidable (h.NoWrap c) := inferInstanceAs (Decidable (_ < _))

variable {h h' : ArenaHistory} {c : ArenaCall}

theorem step_takes (hstep : h.step c = some h') :
    0 < c.bytes ∧ ∃ x, Arena.Takes h.arena c.bytes (h.skip c) x h'.arena ∧ h'.ranges = ⟨x, c.bytes⟩ :: h.ranges ∧
      ∀ y ∈ h'.aligned, y ∈ h.aligned ∨ y % 8 = 0 := by
  unfold step at hstep
  split at hstep
  · next hbytes =>
    refine ⟨hbytes.1, ?_⟩
    cases c with
    | allocate bytes fresh =>
      obtain ⟨⟨x, a'⟩, hx, rfl⟩ := Option.map_eq_some_iff.1 hstep
      exact ⟨x, Arena.allocate_takes hbytes.2 hx, rfl, fun y hy => .inl hy⟩
    | allocateAligned bytes fresh =>
      obtain ⟨⟨x, a'⟩, hx, rfl⟩ := Option.map_eq_some_iff.1 hstep
      obtain ⟨htakes, hmod⟩ := Arena.allocateAligned_takes hx
      refine ⟨x, htakes, rfl, fun y hy => ?_⟩
      rcases mem_cons.1 hy with rfl | hy
      · exact .inr hmod
      · exact .inl hy
  · cases hstep

/-! ### What every call keeps -/

structure Counted (h : ArenaHistory) : Prop where
  blocks : ∀ b ∈ h.arena.blocks, b.len + 8 ≤ 2 ^ 64
  aligned : ∀ x ∈ h.aligned, x % 8 = 0
  usage : h.arena.memoryUsage = h.blocksUsage % 2 ^ 64

theorem Counted.newBlock (hc : h.Counted) {fresh n : ℕ} (hfresh : h.arena.Fresh ⟨fresh, n⟩)
    (hblocks : h'.arena.blocks = h.arena.blocks ++ [⟨fresh, n⟩])
    (husage : h'.arena.memoryUsage = (h.arena.memoryUsage + n + 8) % 2 ^ 64)
    (haligned : ∀ x ∈ h'.aligned, x % 8 = 0) : h'.Counted := by
  refine ⟨?_, haligned, ?_⟩
  · rw [hblocks]
    refine forall_mem_append.2 ⟨hc.blocks, forall_mem_singleton.2 ?_⟩
    obtain ⟨hpos, hmod, hle, -⟩ := hfresh
    omega
  · rw [husage, hc.usage, blocksUsage, blocksUsage, hblocks, map_append, sum_append, map_singleton, sum_singleton]
    dsimp only
    omega

theorem Counted.step (hc : h.Counted) (hstep : h.step c = some h') : h'.Counted := by
  obtain ⟨-, x, htakes, -, hnew⟩ := step_takes hstep
  have haligned : ∀ y ∈ h'.aligned, y % 8 = 0 := fun y hy => (hnew y hy).elim (hc.aligned y) id
  obtain ⟨a', ranges, aligned⟩ := h'
  cases htakes with
  | rest _ => exact ⟨hc.blocks, haligned, hc.usage⟩
  | block hfresh => exact hc.newBlock hfresh rfl rfl haligned
  | refill _ hfresh => exact hc.newBlock hfresh rfl rfl haligned

structure Sound (h : ArenaHistory) : Prop where
  apart : h.ranges.Pairwise MemRange.Apart
  inside : ∀ r ∈ h.ranges, ∃ b ∈ h.arena.blocks, r.Inside b
  rest_inside : ∃ b ∈ ⟨0, 0⟩ :: h.arena.blocks, h.arena.rest.Inside b
  rest_apart : ∀ r ∈ h.ranges, r.Apart h.arena.rest

theorem Sound.take (hs : h.Sound) {n k : ℕ} (hn : 0 < n) (hle : n + k ≤ h.arena.allocBytesRemaining)
    (aligned : List ℕ) : Sound ⟨h.arena.bump (n + k), ⟨h.arena.allocPtr + k, n⟩ :: h.ranges, aligned⟩ := by
  have hrange : MemRange.Inside ⟨h.arena.allocPtr + k, n⟩ h.arena.rest := by
    constructor <;> dsimp only [Arena.rest] <;> omega
  have hrest : (h.arena.bump (n + k)).rest.Inside h.arena.rest := by
    constructor <;> dsimp only [Arena.rest, Arena.bump] <;> omega
  obtain ⟨b, hb, hin⟩ := hs.rest_inside
  refine ⟨pairwise_cons.2 ⟨fun r hr => ((hs.rest_apart r hr).mono (.refl r) hrange).symm, hs.apart⟩,
    forall_mem_cons.2 ⟨?_, hs.inside⟩, ⟨b, hb, hrest.trans hin⟩, forall_mem_cons.2 ⟨.inl ?_, fun r hr =>
      (hs.rest_apart r hr).mono (.refl r) hrest⟩⟩
  · rcases mem_cons.1 hb with rfl | hb
    · have := hin.2
      dsimp only [Arena.rest] at this
      omega
    · exact ⟨b, hb, hrange.trans hin⟩
  · dsimp only [Arena.rest, Arena.bump]
    omega

theorem Sound.apart_fresh (hs : h.Sound) {b : MemRange} (hb : h.arena.Fresh b) :
    (∀ r ∈ h.ranges, r.Apart b) ∧ b.Apart h.arena.rest := by
  constructor
  · intro r hr
    obtain ⟨b', hb', hin⟩ := hs.inside r hr
    exact ((hb.2.2.2 b' hb').mono (.refl b) hin).symm
  · obtain ⟨b', hb', hin⟩ := hs.rest_inside
    refine MemRange.Apart.mono ?_ (.refl b) hin
    rcases mem_cons.1 hb' with rfl | hb'
    · exact .inr (Nat.zero_le _)
    · exact hb.2.2.2 b' hb'

theorem Sound.step (hs : h.Sound) (hwrap : h.NoWrap c) (hstep : h.step c = some h') : h'.Sound := by
  obtain ⟨hpos, x, htakes, hranges, -⟩ := step_takes hstep
  obtain ⟨a', ranges, aligned⟩ := h'
  subst hranges
  have hmore (b : MemRange) : ∀ r ∈ h.ranges, ∃ b' ∈ h.arena.blocks ++ [b], r.Inside b' := fun r hr =>
    (hs.inside r hr).imp fun _ hb' => ⟨mem_append_left _ hb'.1, hb'.2⟩
  have hlast (b : MemRange) : b ∈ h.arena.blocks ++ [b] := mem_append_right _ (mem_singleton_self b)
  cases htakes with
  | rest hle =>
    rw [Nat.mod_eq_of_lt hwrap] at hle ⊢
    exact hs.take hpos hle aligned
  | block hfresh =>
    obtain ⟨hapart, hrest⟩ := hs.apart_fresh hfresh
    refine ⟨pairwise_cons.2 ⟨fun r hr => (hapart r hr).symm, hs.apart⟩,
      forall_mem_cons.2 ⟨⟨_, hlast _, .refl _⟩, hmore _⟩, ?_, forall_mem_cons.2 ⟨hrest, hs.rest_apart⟩⟩
    exact hs.rest_inside.imp fun b' hb' => ⟨cons_subset_cons _ (subset_append_left _ _) hb'.1, hb'.2⟩
  | refill hn hfresh =>
    -- the new block is the rest, from which the range is taken
    refine Sound.take (h := ⟨⟨_, x, Arena.kBlockSize, _⟩, h.ranges, aligned⟩) (k := 0) ?_ hpos hn aligned
    exact ⟨hs.apart, hmore _, ⟨_, mem_cons_of_mem _ (hlast _), .refl _⟩, (hs.apart_fresh hfresh).1⟩

/-! ### The arena is right -/

theorem ranges_subset {cs : List ArenaCall} (hrun : Lts.run ArenaHistory.step h cs = some h') :
    h.ranges ⊆ h'.ranges := by
  refine Lts.run_invariant (I := fun s => h.ranges ⊆ s.ranges) (fun s c s' hs _ hstep => ?_) (Subset.refl _)
    (Lts.Along.of_true h cs) hrun
  obtain ⟨-, x, -, hranges, -⟩ := step_takes hstep
  rw [hranges]
  exact subset_cons_of_subset _ hs

theorem noWrap_of_len {cs : List ArenaCall} (hrun : Lts.run ArenaHistory.step h cs = some h')
    (hlen : ∀ r ∈ h'.ranges, r.len + 8 ≤ 2 ^ 64) : Lts.Along ArenaHistory.step NoWrap h cs := by
  induction cs generalizing h with
  | nil => trivial
  | cons c cs ih =>
    obtain ⟨s, hs, hrest⟩ := Lts.run_cons hrun
    refine ⟨?_, fun s' hs' => ?_⟩
    · obtain ⟨-, x, -, hranges, -⟩ := step_takes hs
      have hle := hlen ⟨x, c.bytes⟩ (ranges_subset hrest (hranges ▸ mem_cons_self))
      have hskip : h.skip c < 8 := by
        cases c <;> dsimp only [skip, Arena.slop]
        · decide
        · split <;> omega
      dsimp only [NoWrap] at hle ⊢
      omega
    · rw [hs] at hs'
      cases hs'
      exact ih hrest

end ArenaHistory

open ArenaHistory in
theorem arena_laid_iff (cs : List ArenaCall) (h : ArenaHistory) (hrun : Lts.run ArenaHistory.step {} cs = some h) :
    h.Laid ↔ Lts.Along ArenaHistory.step NoWrap {} cs ∧ h.blocksUsage < 2 ^ 64 := by
  have hc : h.Counted := Lts.run_invariant (fun _ _ _ hc _ hstep => hc.step hstep)
    ⟨forall_mem_nil _, forall_mem_nil _, rfl⟩ (Lts.Along.of_true {} cs) hrun
  constructor
  · rintro ⟨-, hinside, -, husage⟩
    refine ⟨noWrap_of_len hrun fun r hr => ?_, ?_⟩
    · obtain ⟨b, hb, hin⟩ := hinside r hr
      have := hc.blocks b hb
      obtain ⟨h₁, h₂⟩ := hin
      omega
    · rw [← husage, hc.usage]
      exact Nat.mod_lt _ (by decide)
  · rintro ⟨hwrap, hlt⟩
    have hs : h.Sound := Lts.run_invariant (fun _ _ _ hs hG hstep => hs.step hG hstep)
      ⟨Pairwise.nil, forall_mem_nil _, ⟨_, mem_cons_self, .refl _⟩, forall_mem_nil _⟩ hwrap hrun
    exact ⟨hs.apart, hs.inside, hc.aligned, by rw [hc.usage, Nat.mod_eq_of_lt hlt]⟩

theorem arena_laid_aligned : ∃ h, Lts.run ArenaHistory.step {}
    [.allocate 1 4096, .allocateAligned 8 0, .allocate 5000 8192, .allocate 16 0] = some h ∧ h.Laid := by
  obtain ⟨h, hrun⟩ := Option.isSome_iff_exists.1 (show (Lts.run ArenaHistory.step {}
    [.allocate 1 4096, .allocateAligned 8 0, .allocate 5000 8192, .allocate 16 0]).isSome = true by decide +kernel)
  refine ⟨h, hrun, (arena_laid_iff _ h hrun).2 ⟨by decide +kernel, ?_⟩⟩
  have husage : Option.map ArenaHistory.blocksUsage (some h) = some 9112 := by
    rw [← hrun]
    decide +kernel
  rw [Option.some.inj husage]
  decide

theorem arena_wraps : ∃ h, Lts.run ArenaHistory.step {} [.allocate 1 4096, .allocateAligned (2 ^ 64 - 1) 0] = some h ∧
    h.ranges = [⟨4104, 2 ^ 64 - 1⟩, ⟨4096, 1⟩] ∧ ¬h.Laid :=
  ⟨_, rfl, by decide +kernel, by decide +kernel⟩

end ComponentsW
