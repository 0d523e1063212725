/-
**Cyclic redundancy checks, bit by bit and byte by byte.**

Long division takes one bit at a time (`feedBit`); implementations take a byte at a time and look the effect
of eight steps up in a table.  That this is the same rests on the linearity of a step.
-/

import Mathlib.Tactic

set_option autoImplicit false

namespace Crc

open List

variable {w : ℕ} (poly : BitVec w)

/-! ### Long division -/

def feedBit (c : BitVec w) (b : Bool) : BitVec w :=
  if c.msb ^^ b then (c <<< 1) ^^^ poly else c <<< 1

def feed (c : BitVec w) (bits : List Bool) : BitVec w := bits.foldl (feedBit poly) c

def upper (k : ℕ) (c : BitVec w) : List Bool := (range k).map c.getMsbD

@[simp] theorem length_upper (k : ℕ) (c : BitVec w) : (upper k c).length = k := by simp [upper]

@[simp] theorem feed_nil (c : BitVec w) : feed poly c [] = c := rfl

@[simp] theorem feed_cons (c : BitVec w) (b : Bool) (bits : List Bool) :
    feed poly c (b :: bits) = feed poly (feedBit poly c b) bits := rfl

theorem feed_append (c : BitVec w) (as bs : List Bool) :
    feed poly c (as ++ bs) = feed poly (feed poly c as) bs := foldl_append

/-! ### Linearity -/

theorem feedBit_xor (c d : BitVec w) (a b : Bool) :
    feedBit poly (c ^^^ d) (a ^^ b) = feedBit poly c a ^^^ feedBit poly d b := by
  unfold feedBit
  rw [BitVec.msb_xor, BitVec.shiftLeft_xor_distrib]
  have hcancel : c <<< 1 ^^^ poly ^^^ (d <<< 1 ^^^ poly) = c <<< 1 ^^^ d <<< 1 := by
    rw [BitVec.xor_comm (d <<< 1), ← BitVec.xor_assoc, BitVec.xor_assoc (c <<< 1), BitVec.xor_self,
      BitVec.xor_zero]
  cases c.msb <;> cases d.msb <;> cases a <;> cases b <;> simp [hcancel] <;> ac_rfl

theorem feed_xor (c d : BitVec w) {as bs : List Bool} (h : as.length = bs.length) :
    feed poly (c ^^^ d) (zipWith xor as bs) = feed poly c as ^^^ feed poly d bs := by
  induction as generalizing c d bs with
  | nil =>
    cases bs with
    | nil => rfl
    | cons b bs => cases h
  | cons a as ih =>
    cases bs with
    | nil => cases h
    | cons b bs =>
      rw [zipWith_cons_cons, feed_cons, feed_cons, feed_cons, feedBit_xor]
      exact ih _ _ (Nat.succ.inj h)

theorem feed_xor_left (c d : BitVec w) (bits : List Bool) :
    feed poly (c ^^^ d) bits = feed poly c bits ^^^ feed poly d (replicate bits.length false) := by
  rw [← feed_xor poly c d (by simp)]
  congr 1
  induction bits with
  | nil => rfl
  | cons b bits ih => rw [length_cons, replicate_succ, zipWith_cons_cons, ← ih, Bool.xor_false]

/-! ### The table rule -/

theorem upper_succ (k : ℕ) (c : BitVec w) : upper (k + 1) c = c.msb :: upper k (c <<< 1) := by
  simp [upper, range_succ_eq_map, BitVec.msb, Function.comp_def]

theorem feedBit_eq (c : BitVec w) (b : Bool) :
    feedBit poly c b = (c <<< 1) ^^^ feedBit poly 0#w (c.msb ^^ b) := by
  unfold feedBit
  cases c.msb ^^ b <;> simp

theorem feed_eq_table (c : BitVec w) (bits : List Bool) :
    feed poly c bits =
      feed poly 0#w (zipWith xor (upper bits.length c) bits) ^^^ (c <<< bits.length) := by
  induction bits generalizing c with
  | nil => simp
  | cons b bits ih =>
    have hlength : (zipWith xor (upper bits.length (c <<< 1)) bits).length = bits.length := by
      simp
    calc feed poly c (b :: bits)
        = feed poly ((c <<< 1) ^^^ feedBit poly 0#w (c.msb ^^ b)) bits := by
          rw [feed_cons, feedBit_eq]
      _ = feed poly 0#w (zipWith xor (upper bits.length (c <<< 1)) bits) ^^^
            (c <<< 1 <<< bits.length) ^^^
            feed poly (feedBit poly 0#w (c.msb ^^ b)) (replicate bits.length false) := by
          rw [feed_xor_left, ih]
      _ = feed poly (0#w ^^^ feedBit poly 0#w (c.msb ^^ b))
            (zipWith xor (upper bits.length (c <<< 1)) bits) ^^^ (c <<< 1 <<< bits.length) := by
          rw [feed_xor_left, hlength]
          ac_rfl
      _ = _ := by
          rw [length_cons, upper_succ, zipWith_cons_cons, feed_cons, BitVec.zero_xor,
            ← BitVec.shiftLeft_add, Nat.add_comm 1]

end Crc
