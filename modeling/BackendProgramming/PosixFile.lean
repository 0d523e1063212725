/-
**Files that are read and written at an offset.**

A read transfers only the bytes that exist; a write behind the end fills the gap with zero bytes.
-/

import Mathlib.Tactic

set_option autoImplicit false

namespace PosixFile

open List Option

def byteAt (file : List UInt8) (i : ℕ) : UInt8 := file[i]?.getD 0

def read (file : List UInt8) (off : ℕ) (buf : List UInt8) : List UInt8 :=
  (file.drop off).take buf.length ++ buf.drop (file.length - off)

def write (file : List UInt8) (off : ℕ) (content : List UInt8) : List UInt8 :=
  (file ++ replicate (off - file.length) 0).take off ++ content ++ file.drop (off + content.length)

def window (file : List UInt8) (off n : ℕ) : List UInt8 := (range n).map fun i => byteAt file (off + i)

variable {file content buf : List UInt8} {off off' n : ℕ}

@[simp] theorem length_window : (window file off n).length = n := by simp [window]

@[simp] theorem length_read : (read file off buf).length = buf.length := by
  simp only [read, length_append, length_take, length_drop]
  omega

theorem getElem?_window {i : ℕ} (h : i < n) : (window file off n)[i]? = some (byteAt file (off + i)) := by
  simp [window, h]

theorem getElem?_read (file : List UInt8) (off : ℕ) {i : ℕ} (h : i < buf.length) :
    (read file off buf)[i]? = if off + i < file.length then file[off + i]? else buf[i]? := by
  have hlen : ((file.drop off).take buf.length).length = min buf.length (file.length - off) := by
    rw [length_take, length_drop]
  unfold read
  split
  · rw [getElem?_append_left (by omega), getElem?_take, if_pos h, getElem?_drop]
  · rw [getElem?_append_right (by omega), hlen, getElem?_drop]
    congr 1
    omega

theorem read_eq_window_iff :
    read file off buf = window file off buf.length ↔ ∀ b ∈ buf.drop (file.length - off), b = 0 := by
  constructor
  · intro heq b hb
    obtain ⟨i, hi⟩ := mem_iff_getElem?.1 hb
    rw [getElem?_drop] at hi
    have hlt : file.length - off + i < buf.length := (List.getElem?_eq_some_iff.1 hi).1
    -- a position behind the end of the file
    have hread := getElem?_read file off hlt
    rw [heq, getElem?_window hlt, if_neg (by omega), hi] at hread
    have hzero : byteAt file (off + (file.length - off + i)) = 0 := by
      rw [byteAt, getElem?_eq_none (by omega)]
      rfl
    rw [← some.inj hread, hzero]
  · intro hzero
    apply ext_getElem?
    intro i
    by_cases hi : i < buf.length
    · rw [getElem?_read file off hi, getElem?_window hi, byteAt]
      split
      · next hlt => rw [getElem?_eq_getElem hlt, getD_some]
      · next hge =>
        have hmem : buf[i] ∈ buf.drop (file.length - off) := by
          rw [mem_iff_getElem?]
          refine ⟨i - (file.length - off), ?_⟩
          rw [getElem?_drop, Nat.add_sub_cancel' (by omega), getElem?_eq_getElem hi]
        rw [getElem?_eq_getElem hi, hzero _ hmem, getElem?_eq_none (by omega), getD_none]
    · rw [getElem?_eq_none (by simpa using hi), getElem?_eq_none (by simpa using hi)]

theorem byteAt_write (i : ℕ) : byteAt (write file off content) i =
    if off ≤ i ∧ i < off + content.length then content[i - off]?.getD 0 else byteAt file i := by
  have hlen : ((file ++ replicate (off - file.length) 0).take off).length = off := by
    simp only [length_take, length_append, length_replicate]
    omega
  unfold byteAt write
  rw [append_assoc]
  by_cases hlow : i < off
  · rw [if_neg (by omega), getElem?_append_left (by omega), getElem?_take, if_pos hlow]
    by_cases hin : i < file.length
    · rw [getElem?_append_left hin]
    · -- the gap
      rw [getElem?_append_right (by omega), getElem?_eq_none (by omega : file.length ≤ i),
        getElem?_replicate]
      split <;> rfl
  · rw [getElem?_append_right (by omega), hlen]
    by_cases hin : i < off + content.length
    · rw [if_pos ⟨by omega, hin⟩, getElem?_append_left (by omega)]
    · rw [if_neg (by omega), getElem?_append_right (by omega), getElem?_drop]
      congr 2
      omega

theorem window_write_self : window (write file off content) off content.length = content := by
  apply ext_getElem?
  intro i
  by_cases hi : i < content.length
  · rw [getElem?_window hi, byteAt_write, if_pos ⟨by omega, by omega⟩, Nat.add_sub_cancel_left,
      getElem?_eq_getElem hi, getD_some]
  · rw [getElem?_eq_none (by simpa using hi), getElem?_eq_none (by simpa using hi)]

theorem window_write_of_apart (h : off' + n ≤ off ∨ off + content.length ≤ off') :
    window (write file off content) off' n = window file off' n := by
  unfold window
  refine map_congr_left fun i hi => ?_
  rw [mem_range] at hi
  rw [byteAt_write, if_neg (by omega)]

end PosixFile
