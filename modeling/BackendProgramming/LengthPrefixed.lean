/-
**Length-prefixed slices (`leveldb_coding/coding.cpp`, `coding2.cpp`).**

The length of a slice is written as a varint, seven bits a byte from the low end.  What joins the branches of
the encoder and the loop of the decoder is the number in base 128 (`base128`).
-/

import Mathlib.Tactic

set_option autoImplicit false

namespace LengthPrefixed

open List

/-! ### The code -/

def encodeVarint32 (v : UInt32) : List UInt8 :=
  let B : UInt32 := 128
  if v < (1 : UInt32) <<< 7 then [v.toUInt8]
  else if v < (1 : UInt32) <<< 14 then [(v ||| B).toUInt8, (v >>> 7).toUInt8]
  else if v < (1 : UInt32) <<< 21 then [(v ||| B).toUInt8, (v >>> 7 ||| B).toUInt8, (v >>> 14).toUInt8]
  else if v < (1 : UInt32) <<< 28 then
    [(v ||| B).toUInt8, (v >>> 7 ||| B).toUInt8, (v >>> 14 ||| B).toUInt8, (v >>> 21).toUInt8]
  else
    [(v ||| B).toUInt8, (v >>> 7 ||| B).toUInt8, (v >>> 14 ||| B).toUInt8, (v >>> 21 ||| B).toUInt8,
      (v >>> 28).toUInt8]

def putVarint32 (dst : List UInt8) (v : UInt32) : List UInt8 := dst ++ encodeVarint32 v

def putLengthPrefixedSlice (dst value : List UInt8) : List UInt8 :=
  putVarint32 dst (UInt32.ofNat value.length) ++ value

def getVarint32PtrFallback (shift result : UInt32) : List UInt8 → Option (UInt32 × List UInt8)
  | [] => none
  | b :: p =>
    if shift ≤ 28 then
      let byte := b.toUInt32
      if byte &&& 128 ≠ 0 then
        getVarint32PtrFallback (shift + 7) (result ||| (byte &&& 127) <<< shift) p
      else some (result ||| byte <<< shift, p)
    else none

def getVarint32Ptr (p : List UInt8) : Option (UInt32 × List UInt8) :=
  match p with
  | b :: p' => if b.toUInt32 < 128 then some (b.toUInt32, p') else getVarint32PtrFallback 0 0 p
  | [] => getVarint32PtrFallback 0 0 p

def getVarint32 (input : List UInt8) : Option UInt32 × List UInt8 :=
  match getVarint32Ptr input with
  | none => (none, input)
  | some (value, rest) => (some value, rest)

def getLengthPrefixedSlice (input result : List UInt8) : Bool × List UInt8 × List UInt8 :=
  match getVarint32 input with
  | (some len, input) =>
    if len.toNat ≤ input.length then (true, input.drop len.toNat, input.take len.toNat)
    else (false, input, result)
  | (none, input) => (false, input, result)

def getSlices : ℕ → List UInt8 → Option (List (List UInt8) × List UInt8)
  | 0, input => some ([], input)
  | n + 1, input =>
    match getLengthPrefixedSlice input [] with
    | (true, input', result) => (getSlices n input').map fun r => (result :: r.1, r.2)
    | (false, _, _) => none

/-! ### Base 128 -/

def base128 (n : ℕ) : List UInt8 :=
  if n < 128 then [UInt8.ofNat n] else UInt8.ofNat (n % 128 + 128) :: base128 (n / 128)
decreasing_by omega

theorem base128_of_lt {n : ℕ} (h : n < 128) : base128 n = [UInt8.ofNat n] := by
  rw [base128, if_pos h]

theorem base128_of_le {n : ℕ} (h : 128 ≤ n) :
    base128 n = UInt8.ofNat (n % 128 + 128) :: base128 (n / 128) := by
  rw [base128, if_neg (by omega)]

theorem or_128_toUInt8 (v : UInt32) : (v ||| 128).toUInt8 = UInt8.ofNat (v.toNat % 128 + 128) := by
  have hbyte : ∀ x < 256, x ||| 128 = x % 128 + 128 := by decide +kernel
  refine UInt8.toNat_inj.1 ?_
  calc (v ||| 128).toUInt8.toNat = (v.toNat ||| 128) % 2 ^ 8 := by
        rw [UInt32.toNat_toUInt8, UInt32.toNat_or]; rfl
    _ = v.toNat % 2 ^ 8 ||| 128 := Nat.or_mod_two_pow ..
    _ = v.toNat % 128 + 128 := by rw [hbyte _ (Nat.mod_lt _ (by norm_num))]; omega
    _ = (UInt8.ofNat (v.toNat % 128 + 128)).toNat := by rw [UInt8.toNat_ofNat']; omega

theorem toUInt8_eq_ofNat (v : UInt32) : v.toUInt8 = UInt8.ofNat v.toNat :=
  UInt8.toNat_inj.1 (by simp)

theorem encodeVarint32_eq (v : UInt32) : encodeVarint32 v = base128 v.toNat := by
  have hv := v.toNat_lt
  unfold encodeVarint32
  simp only [or_128_toUInt8]
  simp only [UInt32.lt_iff_toNat_lt, toUInt8_eq_ofNat, UInt32.toNat_shiftRight,
    Nat.shiftRight_eq_div_pow, UInt32.reduceToNat, UInt32.toNat_shiftLeft, Nat.shiftLeft_eq, Nat.reduceMod, Nat.reducePow,
    Nat.reduceMul]
  -- every branch unfolds the digits as often as it writes bytes
  split_ifs with h₁ h₂ h₃ h₄
  · rw [base128_of_lt h₁]
  · rw [base128_of_le (by omega), base128_of_lt (by omega)]
  · rw [base128_of_le (by omega), base128_of_le (by omega), base128_of_lt (by omega)]
    simp only [Nat.div_div_eq_div_mul, Nat.reduceMul]
  · rw [base128_of_le (by omega), base128_of_le (by omega), base128_of_le (by omega),
      base128_of_lt (by omega)]
    simp only [Nat.div_div_eq_div_mul, Nat.reduceMul]
  · rw [base128_of_le (by omega), base128_of_le (by omega), base128_of_le (by omega),
      base128_of_le (by omega), base128_of_lt (by omega)]
    simp only [Nat.div_div_eq_div_mul, Nat.reduceMul]

/-! ### The decoder -/

theorem and_128_ne_zero (b : UInt8) : b.toUInt32 &&& 128 ≠ 0 ↔ 128 ≤ b.toNat := by
  have hall : ∀ n : Fin 256, n.1 &&& 128 ≠ 0 ↔ 128 ≤ n.1 := by decide +kernel
  rw [Ne, ← UInt32.toNat_inj, UInt32.toNat_and]
  simpa using hall ⟨b.toNat, b.toNat_lt⟩

theorem toNat_and_127 (b : UInt8) : (b.toUInt32 &&& 127).toNat = b.toNat % 128 := by
  rw [UInt32.toNat_and]
  exact Nat.and_two_pow_sub_one_eq_mod b.toNat 7

theorem toNat_or_shiftLeft {r d s : UInt32} (hs : s.toNat < 32) (hr : r.toNat < 2 ^ s.toNat)
    (hd : 2 ^ s.toNat * d.toNat < 2 ^ 32) :
    (r ||| d <<< s).toNat = r.toNat + 2 ^ s.toNat * d.toNat := by
  rw [UInt32.toNat_or, UInt32.toNat_shiftLeft, Nat.mod_eq_of_lt hs, Nat.shiftLeft_eq, Nat.mul_comm,
    Nat.mod_eq_of_lt hd, Nat.or_comm, ← Nat.two_pow_add_eq_or_of_lt hr, Nat.add_comm]

theorem fallback_base128 {n i : ℕ} {shift r : UInt32} (rest : List UInt8) (hs : shift.toNat = 7 * i)
    (hr : r.toNat < 2 ^ (7 * i)) (hn : 2 ^ (7 * i) * n < 2 ^ 32) (hi : i < 5) :
    getVarint32PtrFallback shift r (base128 n ++ rest) =
      some (UInt32.ofNat (r.toNat + 2 ^ (7 * i) * n), rest) := by
  induction n using Nat.strongRecOn generalizing i shift r with
  | ind n ih =>
    have hle : shift ≤ 28 := by rw [UInt32.le_iff_toNat_le, hs]; simp; omega
    rcases Nat.lt_or_ge n 128 with h | h
    · have hb : (UInt8.ofNat n).toNat = n := by rw [UInt8.toNat_ofNat']; omega
      have hstop : ¬(UInt8.ofNat n).toUInt32 &&& 128 ≠ 0 := by rw [and_128_ne_zero, hb]; omega
      rw [base128_of_lt h, singleton_append, getVarint32PtrFallback, if_pos hle, if_neg hstop]
      have hsum := toNat_or_shiftLeft (d := (UInt8.ofNat n).toUInt32) (by omega) (hs ▸ hr)
        (by rw [UInt8.toNat_toUInt32, hs, hb]; exact hn)
      rw [UInt8.toNat_toUInt32, hs, hb] at hsum
      rw [← hsum, UInt32.ofNat_toNat]
    · have hb : (UInt8.ofNat (n % 128 + 128)).toNat = n % 128 + 128 := by
        rw [UInt8.toNat_ofNat']; omega
      have hdigit : ((UInt8.ofNat (n % 128 + 128)).toUInt32 &&& 127).toNat = n % 128 := by
        rw [toNat_and_127, hb]; omega
      have hpow : 2 ^ (7 * (i + 1)) = 2 ^ (7 * i) * 128 := by rw [Nat.mul_succ, Nat.pow_add]
      have hsplit : 2 ^ (7 * i) * n = 2 ^ (7 * i) * (n % 128) + 2 ^ (7 * (i + 1)) * (n / 128) := by
        rw [hpow, Nat.mul_assoc, ← Nat.mul_add, Nat.mod_add_div]
      have hsum := toNat_or_shiftLeft (d := (UInt8.ofNat (n % 128 + 128)).toUInt32 &&& 127)
        (by omega) (hs ▸ hr) (by rw [hdigit, hs]; omega)
      rw [hdigit, hs] at hsum
      have hi' : i + 1 < 5 := by
        by_contra hcon
        have : i = 4 := by omega
        subst this
        omega
      rw [base128_of_le h, cons_append, getVarint32PtrFallback, if_pos hle,
        if_pos ((and_128_ne_zero _).2 (by omega)),
        ih (n / 128) (by omega) (i := i + 1) (by rw [UInt32.toNat_add, hs]; simp; omega) _ _ hi', hsum,
        hsplit, Nat.add_assoc]
      · rw [hsum, hpow]
        have := Nat.mul_le_mul_left (2 ^ (7 * i)) (show n % 128 ≤ 127 by omega)
        omega
      · omega

theorem getVarint32_base128 {n : ℕ} (hn : n < 2 ^ 32) (rest : List UInt8) :
    getVarint32 (base128 n ++ rest) = (some (UInt32.ofNat n), rest) := by
  have hfall := fallback_base128 (i := 0) (r := 0) rest (rfl : (0 : UInt32).toNat = 7 * 0) (by simp) (by simpa using hn)
    (by norm_num)
  have hptr : getVarint32Ptr (base128 n ++ rest) = some (UInt32.ofNat n, rest) := by
    rcases Nat.lt_or_ge n 128 with h | h
    · have hb : (UInt8.ofNat n).toUInt32 = UInt32.ofNat n := by
        refine UInt32.toNat_inj.1 ?_
        rw [UInt8.toNat_toUInt32, UInt8.toNat_ofNat', UInt32.toNat_ofNat']
        omega
      rw [base128_of_lt h, singleton_append, getVarint32Ptr, hb, if_pos]
      rw [UInt32.lt_iff_toNat_lt, UInt32.toNat_ofNat']
      exact (Nat.mod_le ..).trans_lt h
    · rw [base128_of_le h, cons_append, getVarint32Ptr, if_neg]
      · rw [← cons_append, ← base128_of_le h, hfall]
        simp
      · rw [UInt32.lt_iff_toNat_lt, UInt8.toNat_toUInt32, UInt8.toNat_ofNat']
        simp
        omega
  rw [getVarint32, hptr]

/-! ### Truncation -/

theorem fallback_continued {p : List UInt8} (h : ∀ b ∈ p, 128 ≤ b.toNat) (shift r : UInt32) :
    getVarint32PtrFallback shift r p = none := by
  induction p generalizing shift r with
  | nil => rfl
  | cons b p ih =>
    obtain ⟨hb, hp⟩ := forall_mem_cons.1 h
    rw [getVarint32PtrFallback, if_pos ((and_128_ne_zero b).2 hb), ih hp, ite_self]

theorem getVarint32_continued {p : List UInt8} (h : ∀ b ∈ p, 128 ≤ b.toNat) :
    getVarint32 p = (none, p) := by
  have hptr : getVarint32Ptr p = none := by
    cases p with
    | nil => rfl
    | cons b p =>
      have hb := h b mem_cons_self
      rw [getVarint32Ptr, if_neg, fallback_continued h]
      rw [UInt32.lt_iff_toNat_lt, UInt8.toNat_toUInt32]
      exact Nat.not_lt.2 hb
  rw [getVarint32, hptr]

theorem continued_of_take {n m : ℕ} (hm : m < (base128 n).length) :
    ∀ b ∈ (base128 n).take m, 128 ≤ b.toNat := by
  induction n using Nat.strongRecOn generalizing m with
  | ind n ih =>
    cases m with
    | zero => simp
    | succ m =>
      rcases Nat.lt_or_ge n 128 with h | h
      · simp [base128_of_lt h] at hm
      · rw [base128_of_le h, length_cons] at hm
        rw [base128_of_le h, take_succ_cons]
        refine forall_mem_cons.2 ⟨?_, ih (n / 128) (by omega) (by omega)⟩
        rw [UInt8.toNat_ofNat']
        omega

/-! ### Slices -/

theorem putLengthPrefixedSlice_eq {value : List UInt8} (h : value.length < 2 ^ 32) (dst : List UInt8) :
    putLengthPrefixedSlice dst value = dst ++ (base128 value.length ++ value) := by
  rw [putLengthPrefixedSlice, putVarint32, encodeVarint32_eq, UInt32.toNat_ofNat_of_lt' h,
    append_assoc]

theorem getLengthPrefixedSlice_base128 {n : ℕ} (hn : n < 2 ^ 32) (rest result : List UInt8) :
    getLengthPrefixedSlice (base128 n ++ rest) result =
      if n ≤ rest.length then (true, rest.drop n, rest.take n) else (false, rest, result) := by
  rw [getLengthPrefixedSlice, getVarint32_base128 hn]
  simp only [UInt32.toNat_ofNat_of_lt' hn]

theorem getLengthPrefixedSlice_append {value : List UInt8} (h : value.length < 2 ^ 32)
    (rest result : List UInt8) :
    getLengthPrefixedSlice (putLengthPrefixedSlice [] value ++ rest) result = (true, rest, value) := by
  rw [putLengthPrefixedSlice_eq h, nil_append, append_assoc,
    getLengthPrefixedSlice_base128 h, if_pos (by simp), drop_left, take_left]

theorem getLengthPrefixedSlice_take {value : List UInt8} (h : value.length < 2 ^ 32) {m : ℕ}
    (hm : m < (putLengthPrefixedSlice [] value).length) (result : List UInt8) :
    (getLengthPrefixedSlice ((putLengthPrefixedSlice [] value).take m) result).1 = false := by
  rw [putLengthPrefixedSlice_eq h, nil_append] at hm ⊢
  rw [length_append] at hm
  -- the text ends inside the length, or inside the bytes
  rcases Nat.lt_or_ge m (base128 value.length).length with hcut | hcut
  · rw [take_append_of_le_length hcut.le, getLengthPrefixedSlice,
      getVarint32_continued (continued_of_take hcut)]
  · rw [take_append, take_of_length_le hcut, getLengthPrefixedSlice_base128 h, if_neg]
    rw [length_take]
    omega

theorem foldl_put {values : List (List UInt8)} (h : ∀ v ∈ values, v.length < 2 ^ 32)
    (dst : List UInt8) :
    values.foldl putLengthPrefixedSlice dst =
      dst ++ (values.map (putLengthPrefixedSlice [])).flatten := by
  induction values generalizing dst with
  | nil => simp
  | cons v values ih =>
    obtain ⟨hv, hrest⟩ := forall_mem_cons.1 h
    rw [foldl_cons, ih hrest, putLengthPrefixedSlice_eq hv, map_cons, flatten_cons,
      putLengthPrefixedSlice_eq hv, nil_append, append_assoc]

theorem getSlices_flatten {values : List (List UInt8)} (h : ∀ v ∈ values, v.length < 2 ^ 32) :
    getSlices values.length (values.map (putLengthPrefixedSlice [])).flatten = some (values, []) := by
  induction values with
  | nil => rfl
  | cons v values ih =>
    obtain ⟨hv, hrest⟩ := forall_mem_cons.1 h
    rw [map_cons, flatten_cons, length_cons, getSlices,
      getLengthPrefixedSlice_append hv]
    simp only [ih hrest, Option.map_some]

theorem getSlices_putLengthPrefixedSlice (values : List (List UInt8))
    (hvalues : ∀ v ∈ values, v.length < 2 ^ 32) :
    getSlices values.length (values.foldl putLengthPrefixedSlice []) = some (values, []) ∧
      ∀ v ∈ values, ∀ p, p <+: putLengthPrefixedSlice [] v → p ≠ putLengthPrefixedSlice [] v →
        ∀ result, (getLengthPrefixedSlice p result).1 = false := by
  refine ⟨?_, ?_⟩
  · rw [foldl_put hvalues, nil_append, getSlices_flatten hvalues]
  · intro v hv p hp hne result
    have hlt : p.length < (putLengthPrefixedSlice [] v).length :=
      lt_of_le_of_ne hp.length_le fun h => hne (hp.eq_of_length h)
    rw [List.prefix_iff_eq_take.1 hp]
    exact getLengthPrefixedSlice_take (hvalues v hv) hlt result

theorem getSlices_putLengthPrefixedSlice_two :
    getSlices 2 [2, 7, 8, 1, 9] = some ([[7, 8], [9]], []) ∧
      (getLengthPrefixedSlice [2, 7] []).1 = false := by
  have hlen : ∀ v ∈ ([[7, 8], [9]] : List (List UInt8)), v.length < 2 ^ 32 := by decide
  obtain ⟨hall, hcut⟩ := getSlices_putLengthPrefixedSlice [[7, 8], [9]] hlen
  exact ⟨hall, hcut [7, 8] (by decide) [2, 7] (by decide) (by decide) []⟩

end LengthPrefixed
