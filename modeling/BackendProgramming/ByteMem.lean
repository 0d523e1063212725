/-
**Byte memory, and the integers stored in it.**

A block of memory is a function from offsets to bytes; `read` and `write` are `memcpy` from it and to it.
Integers are stored with the low byte first.
-/

import Mathlib.Tactic

set_option autoImplicit false

namespace ByteMem

open List

abbrev Mem := ℕ → UInt8

def read (m : Mem) (off : ℕ) : ℕ → List UInt8
  | 0 => []
  | n + 1 => m off :: read m (off + 1) n

def write (m : Mem) (off : ℕ) (bs : List UInt8) : Mem := fun i =>
  if off ≤ i then bs[i - off]?.getD (m i) else m i

/-! ### Reads and writes -/

section Mem

variable {m m' : Mem}

@[simp] theorem length_read (off n : ℕ) : (read m off n).length = n := by
  induction n generalizing off with
  | zero => rfl
  | succ n ih => simp [read, ih]

theorem read_congr {off n : ℕ} (h : ∀ i, off ≤ i → i < off + n → m i = m' i) :
    read m off n = read m' off n := by
  induction n generalizing off with
  | zero => rfl
  | succ n ih =>
    rw [read, read, h off le_rfl (by omega), ih fun i h₁ h₂ => h i (by omega) (by omega)]

theorem read_add (off a b : ℕ) : read m off (a + b) = read m off a ++ read m (off + a) b := by
  induction a generalizing off with
  | zero => simp [read]
  | succ a ih =>
    rw [Nat.add_right_comm, read, ih, read, cons_append, Nat.add_right_comm, Nat.add_assoc]

theorem read_parts {off : ℕ} {as bs : List UInt8} (h : read m off (as ++ bs).length = as ++ bs) :
    read m off as.length = as ∧ read m (off + as.length) bs.length = bs := by
  rw [length_append, read_add] at h
  exact append_inj h (length_read ..)

theorem write_of_apart {off i : ℕ} {bs : List UInt8} (h : i < off ∨ off + bs.length ≤ i) :
    write m off bs i = m i := by
  unfold write
  split
  · rw [getElem?_eq_none (by omega), Option.getD_none]
  · rfl

theorem read_write_of_apart {off off' n : ℕ} {bs : List UInt8}
    (h : off' + n ≤ off ∨ off + bs.length ≤ off') :
    read (write m off bs) off' n = read m off' n :=
  read_congr fun _ _ _ => write_of_apart (by omega)

theorem write_append (off : ℕ) (as bs : List UInt8) :
    write m off (as ++ bs) = write (write m off as) (off + as.length) bs := by
  funext i
  by_cases h : off + as.length ≤ i
  · have hi : i - off - as.length = i - (off + as.length) := by omega
    rw [write, if_pos (by omega), getElem?_append_right (by omega), hi,
      write, if_pos h, write_of_apart (Or.inr h)]
  · have hbelow : i < off + as.length := by omega
    rw [write_of_apart (Or.inl hbelow), write, write]
    split
    · rw [getElem?_append_left (by omega)]
    · rfl

theorem read_write (m : Mem) (off : ℕ) (bs : List UInt8) :
    read (write m off bs) off bs.length = bs := by
  induction bs generalizing m off with
  | nil => rfl
  | cons b bs ih =>
    rw [← singleton_append, write_append, length_append, read_add,
      read_write_of_apart (Or.inl (by simp)), length_singleton, ih]
    simp [read, write]

end Mem

/-! ### Integers -/

def leBytes : ℕ → ℤ → List UInt8
  | 0, _ => []
  | n + 1, z => UInt8.ofNat (z % 256).toNat :: leBytes n (z / 256)

def leNat : List UInt8 → ℕ
  | [] => 0
  | b :: bs => b.toNat + 256 * leNat bs

def leInt (bs : List UInt8) : ℤ := (leNat bs : ℤ).bmod (256 ^ bs.length)

@[simp] theorem length_leBytes (n : ℕ) (z : ℤ) : (leBytes n z).length = n := by
  induction n generalizing z with
  | zero => rfl
  | succ n ih => simp [leBytes, ih]

theorem leNat_leBytes (n : ℕ) (z : ℤ) : (leNat (leBytes n z) : ℤ) = z % 256 ^ n := by
  induction n generalizing z with
  | zero => simp [leNat, leBytes]
  | succ n ih =>
    have hlow : ((UInt8.ofNat (z % 256).toNat).toNat : ℤ) = z % 256 := by
      rw [UInt8.toNat_ofNat']
      omega
    have hsplit : z = z % 256 + 256 * (z / 256 % 256 ^ n) + 256 ^ (n + 1) * (z / 256 / 256 ^ n) := by
      have h₁ := Int.emod_add_mul_ediv z 256
      have h₂ := Int.emod_add_mul_ediv (z / 256) (256 ^ n)
      rw [pow_succ]
      linarith
    have hmod : z % 256 ^ (n + 1) = z % 256 + 256 * (z / 256 % 256 ^ n) := by
      conv_lhs => rw [hsplit, Int.add_mul_emod_self_left]
      exact Int.emod_eq_of_lt (by omega) (by rw [pow_succ]; omega)
    rw [leBytes, leNat, Nat.cast_add, Nat.cast_mul, ih, hlow, hmod]
    rfl

theorem leInt_leBytes (n : ℕ) (z : ℤ) : leInt (leBytes n z) = z.bmod (256 ^ n) := by
  have hcast : (256 : ℤ) ^ n = ((256 ^ n : ℕ) : ℤ) := by push_cast; rfl
  rw [leInt, length_leBytes, leNat_leBytes, hcast, Int.emod_bmod]

theorem leInt_leBytes_of_lt {n : ℕ} {z : ℤ} (h₀ : 0 ≤ z) (h₁ : 2 * z < 256 ^ n) :
    leInt (leBytes n z) = z := by
  have hcast : (256 : ℤ) ^ n = ((256 ^ n : ℕ) : ℤ) := by push_cast; rfl
  rw [leInt_leBytes]
  exact Int.bmod_eq_of_le (by omega) (by omega)

/-! ### Bytes of an integer that was read -/

theorem leNat_lt (bs : List UInt8) : leNat bs < 256 ^ bs.length := by
  induction bs with
  | nil => simp [leNat]
  | cons b bs ih =>
    have hb := b.toNat_lt
    rw [leNat, length_cons, pow_succ]
    omega

theorem leBytes_leNat (bs : List UInt8) : leBytes bs.length (leNat bs) = bs := by
  induction bs with
  | nil => rfl
  | cons b bs ih =>
    have hb := b.toNat_lt
    have hlow : ((leNat (b :: bs) : ℕ) : ℤ) % 256 = b.toNat := by rw [leNat]; omega
    have hhigh : ((leNat (b :: bs) : ℕ) : ℤ) / 256 = leNat bs := by rw [leNat]; omega
    rw [length_cons, leBytes, hlow, hhigh, ih, Int.toNat_natCast, UInt8.ofNat_toNat]

theorem leBytes_of_emod {n : ℕ} {bs : List UInt8} {z : ℤ} (hn : bs.length = n)
    (h : z % 256 ^ n = leInt bs % 256 ^ n) : leBytes n z = bs := by
  subst hn
  have hcast : (256 : ℤ) ^ bs.length = ((256 ^ bs.length : ℕ) : ℤ) := by push_cast; rfl
  have hz : z % 256 ^ bs.length = leNat bs := by
    rw [h, leInt, hcast, Int.bmod_emod]
    exact Int.emod_eq_of_lt (by omega) (by exact_mod_cast leNat_lt bs)
  have hback := leBytes_leNat (leBytes bs.length z)
  rw [length_leBytes, leNat_leBytes, hz, leBytes_leNat] at hback
  exact hback.symm

end ByteMem
