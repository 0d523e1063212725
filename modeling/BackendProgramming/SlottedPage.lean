/-
**Slotted pages.**

Behind a header of `H` bytes stands an array of slots, two bytes each, with the offsets of the cells; the cells fill
the block of `P` bytes from its end downwards.  A removal only closes the slot.
-/

import BackendProgramming.ByteMem

set_option autoImplicit false

namespace SlottedPage

open ByteMem List

/-! ### The array of slots -/

def slot (H : ℕ) (m : Mem) (i : ℕ) : List UInt8 := read m (H + 2 * i) 2

def openSlot (H : ℕ) (kth : ℕ) : ℕ → Mem → Mem
  | 0, m => m
  | n + 1, m =>
    if kth ≤ n then openSlot H kth n (write m (H + 2 * (n + 1)) (slot H m n)) else m

def closeSlot (H : ℕ) : ℕ → ℕ → Mem → Mem
  | _, 0, m => m
  | i, r + 1, m => closeSlot H (i + 1) r (write m (H + 2 * i) (slot H m (i + 1)))

section Array

variable {H : ℕ} {m : Mem}

theorem slot_write_ne {i j : ℕ} (hne : i ≠ j) {bs : List UInt8} (hbs : bs.length = 2) :
    slot H (write m (H + 2 * j) bs) i = slot H m i :=
  read_write_of_apart (by omega)

theorem slot_write_self (i : ℕ) {bs : List UInt8} (hbs : bs.length = 2) :
    slot H (write m (H + 2 * i) bs) i = bs := by
  rw [slot, ← hbs, read_write]

theorem openSlot_apart {kth : ℕ} (n : ℕ) (m : Mem) {x : ℕ}
    (h : x < H + 2 * (kth + 1) ∨ H + 2 * (n + 1) ≤ x) : openSlot H kth n m x = m x := by
  induction n generalizing m with
  | zero => rfl
  | succ n ih =>
    rw [openSlot]
    split
    · rw [ih _ (by omega), write_of_apart (by simp only [slot, length_read]; omega)]
    · rfl

theorem slot_openSlot_of_le {kth i : ℕ} (n : ℕ) (h : i ≤ kth) :
    slot H (openSlot H kth n m) i = slot H m i :=
  read_congr fun x _ hx => openSlot_apart n m (by omega)

theorem slot_openSlot_of_lt {kth i n : ℕ} (hlo : kth ≤ i) (hhi : i < n) :
    slot H (openSlot H kth n m) (i + 1) = slot H m i := by
  induction n generalizing m with
  | zero => omega
  | succ n ih =>
    rw [openSlot, if_pos (by omega)]
    rcases Nat.lt_or_eq_of_le (Nat.le_of_lt_succ hhi) with hlt | rfl
    · rw [ih hlt, slot_write_ne (by omega) (by simp [slot])]
    · rw [slot, read_congr fun x hx _ => openSlot_apart i _ (Or.inr hx), ← slot,
        slot_write_self _ (by simp [slot])]

theorem closeSlot_apart (r : ℕ) (m : Mem) {i x : ℕ}
    (h : x < H + 2 * i ∨ H + 2 * (i + r) ≤ x) : closeSlot H i r m x = m x := by
  induction r generalizing i m with
  | zero => rfl
  | succ r ih =>
    rw [closeSlot, ih _ (by omega), write_of_apart (by simp only [slot, length_read]; omega)]

theorem slot_closeSlot_of_lt {i j : ℕ} (r : ℕ) (h : j < i) :
    slot H (closeSlot H i r m) j = slot H m j :=
  read_congr fun x _ hx => closeSlot_apart r m (by omega)

theorem slot_closeSlot_of_le {i j r : ℕ} (hlo : i ≤ j) (hhi : j < i + r) :
    slot H (closeSlot H i r m) j = slot H m (j + 1) := by
  induction r generalizing i m with
  | zero => omega
  | succ r ih =>
    rw [closeSlot]
    rcases Nat.lt_or_eq_of_le hlo with hlt | rfl
    · rw [ih (by omega) (by omega), slot_write_ne (by omega) (by simp [slot])]
    · rw [slot_closeSlot_of_lt _ (by omega), slot_write_self _ (by simp [slot])]

end Array

/-! ### The cells of a page -/

structure Cell where
  pos : ℕ
  image : List UInt8
  deriving DecidableEq, Repr

def Cell.stop (c : Cell) : ℕ := c.pos + c.image.length

def Cell.Apart (c d : Cell) : Prop := c.stop ≤ d.pos ∨ d.stop ≤ c.pos

theorem Cell.Apart.symm {c d : Cell} (h : c.Apart d) : d.Apart c := Or.symm h

structure Slots (H P : ℕ) (m : Mem) (first : ℕ) (cells : List Cell) : Prop where
  slot : ∀ i c, cells[i]? = some c → leInt (slot H m i) = c.pos
  image : ∀ c ∈ cells, read m c.pos c.image.length = c.image
  within : ∀ c ∈ cells, first ≤ c.pos ∧ c.stop ≤ P
  apart : cells.Pairwise Cell.Apart
  array : H + 2 * cells.length ≤ first
  top : first ≤ P

def covered : List Cell → Finset ℕ
  | [] => ∅
  | c :: cells => Finset.Ico c.pos c.stop ∪ covered cells

theorem mem_covered {cells : List Cell} {x : ℕ} :
    x ∈ covered cells ↔ ∃ c ∈ cells, c.pos ≤ x ∧ x < c.stop := by
  induction cells with
  | nil => simp [covered]
  | cons c cells ih => simp [covered, ih]

theorem card_covered {cells : List Cell} (h : cells.Pairwise Cell.Apart) :
    (covered cells).card = (cells.map (·.image.length)).sum := by
  induction cells with
  | nil => rfl
  | cons c cells ih =>
    obtain ⟨hc, hcells⟩ := pairwise_cons.1 h
    have hdisj : Disjoint (Finset.Ico c.pos c.stop) (covered cells) := by
      refine Finset.disjoint_left.2 fun x hx hx' => ?_
      obtain ⟨d, hd, hlo, hhi⟩ := mem_covered.1 hx'
      obtain ⟨h₁, h₂⟩ := Finset.mem_Ico.1 hx
      rcases hc d hd with h | h <;> omega
    rw [covered, Finset.card_union_of_disjoint hdisj, ih hcells, Nat.card_Ico, Cell.stop,
      Nat.add_sub_cancel_left]
    rfl

section Page

variable {H P first : ℕ} {m : Mem} {cells : List Cell}

theorem Slots.sum_length_le (h : Slots H P m first cells) :
    first + (cells.map (·.image.length)).sum ≤ P := by
  have hsub : covered cells ⊆ Finset.Ico first P := by
    intro x hx
    obtain ⟨c, hc, hlo, hhi⟩ := mem_covered.1 hx
    obtain ⟨h₁, h₂⟩ := h.within c hc
    exact Finset.mem_Ico.2 ⟨by omega, by omega⟩
  have hcard := Finset.card_le_card hsub
  rw [card_covered h.apart, Nat.card_Ico] at hcard
  have htop := h.top
  omega

theorem Slots.empty (h : H ≤ P) (m : Mem) : Slots H P m P [] where
  slot := by simp
  image := by simp
  within := by simp
  apart := List.Pairwise.nil
  array := h
  top := le_rfl

theorem Slots.place (h : Slots H P m first cells) {kth : ℕ} (hkth : kth ≤ cells.length)
    {bs : List UInt8} (hroom : H + 2 * cells.length + 2 + bs.length ≤ first)
    (hwidth : 2 * P < 256 ^ 2) :
    Slots H P (write (write (openSlot H kth cells.length m) (first - bs.length) bs) (H + 2 * kth)
        (leBytes 2 (first - bs.length : ℕ)))
      (first - bs.length) (cells.insertIdx kth ⟨first - bs.length, bs⟩) := by
  have htop := h.top
  have hlen : (cells.insertIdx kth ⟨first - bs.length, bs⟩).length = cells.length + 1 :=
    length_insertIdx_of_le_length hkth _
  -- the array stays below the new cell, and all the cells above it
  have hslot : ∀ i ≤ cells.length, i ≠ kth →
      SlottedPage.slot H (write (write (openSlot H kth cells.length m) (first - bs.length) bs)
        (H + 2 * kth) (leBytes 2 (first - bs.length : ℕ))) i =
      SlottedPage.slot H (openSlot H kth cells.length m) i := by
    intro i hi hne
    rw [slot_write_ne hne (by simp), SlottedPage.slot, SlottedPage.slot,
      read_write_of_apart (by omega)]
  refine ⟨?_, ?_, ?_, ?_, ?_, by omega⟩
  · intro i c hc
    rcases Nat.lt_trichotomy i kth with hlt | rfl | hgt
    · rw [getElem?_insertIdx_of_lt hlt] at hc
      rw [hslot i (by omega) (by omega), slot_openSlot_of_le _ (by omega), h.slot i c hc]
    · rw [getElem?_insertIdx_self, if_pos (by omega)] at hc
      cases hc
      rw [slot_write_self _ (by simp)]
      exact leInt_leBytes_of_lt (by omega) (by push_cast; omega)
    · rw [getElem?_insertIdx_of_gt hgt] at hc
      have hi := (List.getElem?_eq_some_iff.1 hc).1
      obtain ⟨i, rfl⟩ : ∃ j, i = j + 1 := ⟨i - 1, by omega⟩
      rw [Nat.add_sub_cancel] at hc hi
      rw [hslot (i + 1) (by omega) (by omega), slot_openSlot_of_lt (by omega) hi, h.slot i c hc]
  · intro c hc
    rcases (mem_insertIdx hkth).1 hc with rfl | hc
    · rw [read_write_of_apart (by simp only [length_leBytes]; omega)]
      exact read_write _ _ _
    · obtain ⟨hlo, -⟩ := h.within c hc
      rw [read_write_of_apart (by simp only [length_leBytes]; omega),
        read_write_of_apart (by omega),
        read_congr fun x hx _ => openSlot_apart _ m (Or.inr (by omega)), h.image c hc]
  · intro c hc
    rcases (mem_insertIdx hkth).1 hc with rfl | hc
    · refine ⟨le_rfl, ?_⟩
      simp only [Cell.stop]
      omega
    · obtain ⟨hlo, hhi⟩ := h.within c hc
      exact ⟨by omega, hhi⟩
  · refine ((perm_insertIdx _ _ hkth).pairwise_iff Cell.Apart.symm).2 ?_
    refine pairwise_cons.2 ⟨fun c hc => Or.inl ?_, h.apart⟩
    obtain ⟨hlo, -⟩ := h.within c hc
    simp only [Cell.stop]
    omega
  · rw [hlen]
    omega

theorem Slots.remove (h : Slots H P m first cells) {kth : ℕ} (hkth : kth < cells.length) :
    Slots H P (closeSlot H kth (cells.length - kth) m) first (cells.eraseIdx kth) := by
  have harray := h.array
  have hlen : (cells.eraseIdx kth).length = cells.length - 1 := length_eraseIdx_of_lt hkth
  refine ⟨?_, ?_, ?_, ?_, by omega, h.top⟩
  · intro i c hc
    rcases Nat.lt_or_ge i kth with hlt | hge
    · rw [getElem?_eraseIdx_of_lt hlt] at hc
      rw [slot_closeSlot_of_lt _ hlt, h.slot i c hc]
    · rw [getElem?_eraseIdx_of_ge hge] at hc
      have hi := (List.getElem?_eq_some_iff.1 hc).1
      rw [slot_closeSlot_of_le hge (by omega), h.slot (i + 1) c hc]
  · intro c hc
    have hmem := (eraseIdx_sublist cells kth).subset hc
    obtain ⟨hlo, -⟩ := h.within c hmem
    rw [read_congr fun x hx _ => closeSlot_apart _ m (Or.inr (by omega)), h.image c hmem]
  · exact fun c hc => h.within c ((eraseIdx_sublist cells kth).subset hc)
  · exact h.apart.sublist (eraseIdx_sublist cells kth)

end Page

end SlottedPage
