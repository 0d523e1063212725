/-
**Text of the C library on byte lists.**

`sprintf` with `%d`, `atoi`, and `strstr` in memory that is terminated by a zero byte.
-/

import Mathlib.Tactic

set_option autoImplicit false

namespace CText

open List

abbrev Bytes := List UInt8

def ascii (s : String) : Bytes := s.toList.map Char.toUInt8

theorem forall_mem_of_all {s : Bytes} {P : UInt8 → Prop} [DecidablePred P]
    (h : s.all (fun b => P b) = true) : ∀ b ∈ s, P b := by
  simpa using h

def crlf : Bytes := [13, 10]

@[simp] theorem length_crlf : crlf.length = 2 := rfl

/-! ### Writing a number -/

def decimal (n : ℕ) : Bytes := (Nat.toDigits 10 n).map Char.toUInt8

def intText (z : ℤ) : Bytes :=
  if z < 0 then 45 :: decimal z.natAbs else decimal z.natAbs

def isDigit (b : UInt8) : Bool := 48 ≤ b && b ≤ 57

def natVal (acc : ℕ) : Bytes → ℕ
  | [] => acc
  | b :: s => natVal (acc * 10 + (b - 48).toNat) s

theorem natVal_append (acc : ℕ) (s t : Bytes) : natVal acc (s ++ t) = natVal (natVal acc s) t := by
  induction s generalizing acc with
  | nil => rfl
  | cons b s ih => simp only [cons_append, natVal, ih]

theorem digitChar_toUInt8 (d : ℕ) (hd : d < 10) :
    isDigit (Nat.digitChar d).toUInt8 = true ∧ ((Nat.digitChar d).toUInt8 - 48).toNat = d := by
  interval_cases d <;> decide

theorem decimal_eq (n : ℕ) : decimal n =
    if n < 10 then [(Nat.digitChar n).toUInt8]
    else decimal (n / 10) ++ [(Nat.digitChar (n % 10)).toUInt8] := by
  unfold decimal
  rw [Nat.toDigits_eq_if (by decide)]
  split <;> simp

theorem decimal_ne_nil (n : ℕ) : decimal n ≠ [] := by
  simp [decimal, Nat.toDigits_ne_nil]

theorem isDigit_of_mem_decimal (n : ℕ) : ∀ b ∈ decimal n, isDigit b = true := by
  induction n using Nat.strong_induction_on with
  | _ n ih =>
    intro b hb
    rw [decimal_eq] at hb
    split at hb
    · rename_i hn
      rw [mem_singleton.1 hb]
      exact (digitChar_toUInt8 n hn).1
    · rcases mem_append.1 hb with hb | hb
      · exact ih (n / 10) (by omega) b hb
      · rw [mem_singleton.1 hb]
        exact (digitChar_toUInt8 _ (Nat.mod_lt _ (by decide))).1

theorem natVal_decimal (n : ℕ) : natVal 0 (decimal n) = n := by
  induction n using Nat.strong_induction_on with
  | _ n ih =>
    rw [decimal_eq]
    split
    · rename_i hn
      simp only [natVal, (digitChar_toUInt8 n hn).2]
      omega
    · rw [natVal_append, ih (n / 10) (by omega)]
      simp only [natVal, (digitChar_toUInt8 _ (Nat.mod_lt n (by decide))).2]
      omega

theorem decimal_injective : Function.Injective decimal := by
  intro m n h
  rw [← natVal_decimal m, ← natVal_decimal n, h]

theorem isDigit_ne {b c : UInt8} (hb : isDigit b = true) (hc : isDigit c = false) : b ≠ c := by
  rintro rfl
  rw [hb] at hc
  exact absurd hc (by decide)

theorem length_decimal_le_iff {n k : ℕ} (hk : 0 < k) : (decimal n).length ≤ k ↔ n < 10 ^ k := by
  rw [decimal, length_map]
  exact Nat.length_toDigits_le_iff (by decide) hk

theorem length_decimal_le {n k : ℕ} (hk : 0 < k) (h : n < 10 ^ k) : (decimal n).length ≤ k :=
  (length_decimal_le_iff hk).2 h

theorem intText_injective : Function.Injective intText := by
  have hdig : ∀ (m n : ℕ), (45 : UInt8) :: decimal m ≠ decimal n := fun m n h =>
    isDigit_ne (isDigit_of_mem_decimal n 45 (h ▸ mem_cons_self ..)) (by decide) rfl
  intro a b h
  simp only [intText] at h
  split at h <;> split at h
  · have := decimal_injective (cons.inj h).2
    omega
  · exact absurd h (hdig _ _)
  · exact absurd h.symm (hdig _ _)
  · have := decimal_injective h
    omega

theorem mem_intText {z : ℤ} {b : UInt8} (h : b ∈ intText z) : isDigit b = true ∨ b = 45 := by
  unfold intText at h
  split at h
  · rcases mem_cons.1 h with rfl | h
    · exact Or.inr rfl
    · exact Or.inl (isDigit_of_mem_decimal _ b h)
  · exact Or.inl (isDigit_of_mem_decimal _ b h)

/-! ### Reading a number -/

def isSpace (b : UInt8) : Bool := b == 32 || (9 ≤ b && b ≤ 13)

def clampLong (z : ℤ) : ℤ := max (-2 ^ 63) (min z (2 ^ 63 - 1))

def strtol (s : Bytes) : ℤ :=
  match s.dropWhile isSpace with
  | 45 :: t => clampLong (-(natVal 0 (t.takeWhile isDigit) : ℤ))
  | 43 :: t => clampLong (natVal 0 (t.takeWhile isDigit))
  | t => clampLong (natVal 0 (t.takeWhile isDigit))

def toInt32 (z : ℤ) : ℤ := z.bmod (2 ^ 32)

def atoi (s : Bytes) : ℤ := toInt32 (strtol s)

theorem toInt32_eq {z : ℤ} (h₀ : -2 ^ 31 ≤ z) (h₁ : z < 2 ^ 31) : toInt32 z = z := by
  unfold toInt32
  exact Int.bmod_eq_of_le (by omega) (by omega)

theorem atoi_lt (s : Bytes) : atoi s < 2 ^ 31 := by
  have h : (strtol s).bmod (2 ^ 32) < ((2 ^ 32 : ℕ) + 1) / 2 := Int.bmod_lt (by decide)
  unfold atoi toInt32
  omega

theorem clampLong_eq {z : ℤ} (h₀ : -2 ^ 63 ≤ z) (h₁ : z < 2 ^ 63) : clampLong z = z := by
  unfold clampLong
  omega

theorem takeWhile_isDigit {s : Bytes} (hs : ∀ b ∈ s, isDigit b = true) (t : Bytes)
    (ht : ∀ b, t.head? = some b → isDigit b = false) : (s ++ t).takeWhile isDigit = s := by
  induction s with
  | nil =>
    cases t with
    | nil => rfl
    | cons c t => simp [ht c rfl]
  | cons b s ih =>
    rw [cons_append, takeWhile_cons_of_pos (hs b (by simp)),
      ih fun c hc => hs c (mem_cons_of_mem _ hc)]

theorem strtol_digit {b : UInt8} {s : Bytes} (hb : isDigit b = true) :
    strtol (b :: s) = clampLong (natVal 0 ((b :: s).takeWhile isDigit)) := by
  have hsp : isSpace b = false := by
    simp only [isDigit, isSpace, Bool.and_eq_true, decide_eq_true_eq, Bool.or_eq_false_iff,
      beq_eq_false_iff_ne, Bool.and_eq_false_iff, decide_eq_false_iff_not] at hb ⊢
    refine ⟨fun h => absurd (h ▸ hb.1) (by decide), Or.inr fun h => ?_⟩
    exact absurd (UInt8.le_trans hb.1 h) (by decide)
  have h45 : b ≠ 45 := isDigit_ne hb (by decide)
  have h43 : b ≠ 43 := isDigit_ne hb (by decide)
  unfold strtol
  rw [dropWhile_cons_of_neg (by simp [hsp])]
  split
  · rename_i t h; exact absurd (cons.inj h).1 h45
  · rename_i t h; exact absurd (cons.inj h).1 h43
  · rfl

theorem atoi_digits {s t : Bytes} (hne : s ≠ []) (hs : ∀ b ∈ s, isDigit b = true)
    (ht : ∀ b, t.head? = some b → isDigit b = false) (hlt : natVal 0 s < 2 ^ 31) :
    atoi (s ++ t) = natVal 0 s := by
  obtain ⟨b, s', rfl⟩ := exists_cons_of_ne_nil hne
  have hrun := takeWhile_isDigit hs t ht
  rw [cons_append] at hrun ⊢
  rw [atoi, strtol_digit (hs b (by simp)), hrun]
  rw [clampLong_eq (by omega) (by omega), toInt32_eq (by omega) (by omega)]

theorem atoi_of_head {b : UInt8} {s : Bytes} (hsp : isSpace b = false) (hdig : isDigit b = false)
    (h45 : b ≠ 45) (h43 : b ≠ 43) : atoi (b :: s) = 0 := by
  have h : strtol (b :: s) = clampLong (natVal 0 ((b :: s).takeWhile isDigit)) := by
    unfold strtol
    rw [dropWhile_cons_of_neg (by simp [hsp])]
    split
    · rename_i t h; exact absurd (cons.inj h).1 h45
    · rename_i t h; exact absurd (cons.inj h).1 h43
    · rfl
  rw [atoi, h, takeWhile_cons_of_neg (by simp [hdig])]
  rfl

theorem atoi_decimal_append {n : ℕ} (h : n < 2 ^ 31) {t : Bytes}
    (ht : ∀ b, t.head? = some b → isDigit b = false) : atoi (decimal n ++ t) = n := by
  have := atoi_digits (decimal_ne_nil n) (isDigit_of_mem_decimal n) ht (by rwa [natVal_decimal])
  rwa [natVal_decimal] at this

theorem atoi_decimal {n : ℕ} (h : n < 2 ^ 31) : atoi (decimal n) = n := by
  rw [← append_nil (decimal n)]
  exact atoi_decimal_append h (by simp)

def intVal : Bytes → ℤ
  | 45 :: d => -(natVal 0 d : ℤ)
  | 43 :: d => natVal 0 d
  | d => natVal 0 d

def IsIntText (t : Bytes) : Prop :=
  ∃ sign digits, (sign = [] ∨ sign = [43] ∨ sign = [45]) ∧ digits ≠ [] ∧
    (∀ b ∈ digits, isDigit b = true) ∧ t = sign ++ digits ∧ -2 ^ 31 ≤ intVal t ∧ intVal t < 2 ^ 31

theorem strtol_signed {sign digits : Bytes} (hs : sign = [] ∨ sign = [43] ∨ sign = [45])
    (hne : digits ≠ []) (hd : ∀ b ∈ digits, isDigit b = true) :
    strtol (sign ++ digits) = clampLong (intVal (sign ++ digits)) := by
  have hrun : digits.takeWhile isDigit = digits := by
    simpa using takeWhile_isDigit hd [] (by simp)
  rcases hs with rfl | rfl | rfl
  · obtain ⟨b, d, rfl⟩ := exists_cons_of_ne_nil hne
    have hb := hd b (by simp)
    have hval : intVal (b :: d) = natVal 0 (b :: d) := by
      unfold intVal
      split
      · rename_i e h; exact absurd (cons.inj h).1 (isDigit_ne hb (by decide))
      · rename_i e h; exact absurd (cons.inj h).1 (isDigit_ne hb (by decide))
      · rfl
    rw [nil_append, strtol_digit hb, hrun, hval]
  · have hst : strtol ([43] ++ digits) = clampLong (natVal 0 (digits.takeWhile isDigit)) := by
      simp [strtol, isSpace]
    rw [hst, hrun]
    rfl
  · have hst : strtol ([45] ++ digits) = clampLong (-(natVal 0 (digits.takeWhile isDigit) : ℤ)) := by
      simp [strtol, isSpace]
    rw [hst, hrun]
    rfl

theorem atoi_intText {t : Bytes} (h : IsIntText t) : atoi t = intVal t := by
  obtain ⟨sign, digits, hs, hne, hd, rfl, h₀, h₁⟩ := h
  rw [atoi, strtol_signed hs hne hd, clampLong_eq (by omega) (by omega), toInt32_eq h₀ h₁]

theorem intVal_intText (z : ℤ) : intVal (intText z) = z := by
  unfold intText
  split
  · show -(natVal 0 (decimal z.natAbs) : ℤ) = z
    rw [natVal_decimal]
    omega
  · have hval : intVal (decimal z.natAbs) = natVal 0 (decimal z.natAbs) := by
      unfold intVal
      split
      · rename_i d h
        exact absurd rfl (isDigit_ne (isDigit_of_mem_decimal _ 45 (h ▸ mem_cons_self ..)) (by decide))
      · rename_i d h
        exact absurd rfl (isDigit_ne (isDigit_of_mem_decimal _ 43 (h ▸ mem_cons_self ..)) (by decide))
      · rfl
    rw [hval, natVal_decimal]
    omega

theorem atoi_intText_self {z : ℤ} (h₀ : -2 ^ 31 ≤ z) (h₁ : z < 2 ^ 31) : atoi (intText z) = z := by
  have htext : IsIntText (intText z) := by
    have hval := intVal_intText z
    refine ⟨if z < 0 then [45] else [], decimal z.natAbs, ?_, decimal_ne_nil _, isDigit_of_mem_decimal _, ?_,
      by omega, by omega⟩
    · split <;> simp
    · unfold intText
      split <;> rfl
  rw [atoi_intText htext, intVal_intText]

/-! ### The search for a line end -/

inductive Search where
  | found (k : ℕ)
  | absent
  | overrun
  deriving DecidableEq, Repr

def Search.next : Search → Search
  | .found k => .found (k + 1)
  | .absent => .absent
  | .overrun => .overrun

def strstrCrlf : Bytes → Search
  | [] => .overrun
  | b :: s =>
    if b = 0 then .absent
    else if b = 13 ∧ s.head? = some 10 then .found 0
    else (strstrCrlf s).next

def IsOpen (s : Bytes) : Prop := ∀ b ∈ s, b ≠ 0 ∧ b ≠ 10

theorem IsOpen.of_digits {s : Bytes} (hs : ∀ b ∈ s, isDigit b = true) : IsOpen s := fun b hb =>
  ⟨isDigit_ne (hs b hb) (by decide), isDigit_ne (hs b hb) (by decide)⟩

theorem IsOpen.lf_notMem {s : Bytes} (hs : IsOpen s) : 10 ∉ s := fun h => (hs 10 h).2 rfl

theorem crlf_infix_cons {b : UInt8} {s : Bytes} :
    crlf <:+: b :: s ↔ (b = 13 ∧ s.head? = some 10) ∨ crlf <:+: s := by
  rw [infix_cons_iff]
  refine or_congr ?_ Iff.rfl
  cases s <;> simp [crlf, cons_prefix_cons, eq_comm]

def IsOneLine (s : Bytes) : Prop := 0 ∉ s ∧ ¬ crlf <:+: s

instance (s : Bytes) : Decidable (IsOneLine s) := inferInstanceAs (Decidable (_ ∧ _))

theorem IsOneLine.of_isOpen {s : Bytes} (hs : IsOpen s) : IsOneLine s := by
  refine ⟨fun h => (hs 0 h).1 rfl, fun h => (hs 10 (h.subset ?_)).2 rfl⟩
  simp [crlf]

theorem isOneLine_of_found {mem : Bytes} {p : ℕ} (h : strstrCrlf mem = .found p) :
    IsOneLine (mem.take p) := by
  induction mem generalizing p with
  | nil => cases h
  | cons b mem ih =>
    rw [strstrCrlf] at h
    split at h
    · cases h
    · next hb =>
      split at h
      · obtain rfl := Search.found.inj h
        simp [IsOneLine, crlf]
      · next hcrlf =>
        cases hrest : strstrCrlf mem with
        | overrun => rw [hrest] at h; cases h
        | absent => rw [hrest] at h; cases h
        | found k =>
          rw [hrest] at h
          obtain rfl := Search.found.inj h
          obtain ⟨h0, hinfix⟩ := ih hrest
          rw [take_succ_cons]
          refine ⟨fun hmem => ?_, fun hmem => ?_⟩
          · rcases mem_cons.1 hmem with h | h
            · exact hb h.symm
            · exact h0 h
          · rcases crlf_infix_cons.1 hmem with ⟨hcr, hlf⟩ | h
            · cases k with
              | zero => simp at hlf
              | succ k => exact hcrlf ⟨hcr, by simpa [head?_take] using hlf⟩
            · exact hinfix h

theorem strstrCrlf_oneLine {s : Bytes} (hs : IsOneLine s) (t : Bytes) :
    strstrCrlf (s ++ (crlf ++ t)) = .found s.length := by
  induction s with
  | nil => simp [crlf, strstrCrlf]
  | cons b s ih =>
    obtain ⟨h0, hinfix⟩ := hs
    rw [crlf_infix_cons, not_or] at hinfix
    rw [mem_cons, not_or] at h0
    have hnext : ¬ (b = 13 ∧ (s ++ (crlf ++ t)).head? = some 10) := by
      rintro ⟨hcr, hlf⟩
      cases s with
      | nil => simp [crlf] at hlf
      | cons c s => exact hinfix.1 ⟨hcr, by simpa using hlf⟩
    rw [cons_append, strstrCrlf, if_neg (Ne.symm h0.1), if_neg hnext, ih ⟨h0.2, hinfix.2⟩]
    rfl

theorem strstrCrlf_absent {s : Bytes} (hs : ¬ crlf <:+: s) (pad : Bytes) :
    strstrCrlf (s ++ 0 :: pad) = .absent := by
  induction s with
  | nil => simp [strstrCrlf]
  | cons b s ih =>
    rw [crlf_infix_cons, not_or] at hs
    have hnext : ¬ (b = 13 ∧ (s ++ 0 :: pad).head? = some 10) := by
      rintro ⟨hcr, hlf⟩
      cases s with
      | nil => simp at hlf
      | cons c s => exact hs.1 ⟨hcr, by simpa using hlf⟩
    rw [cons_append, strstrCrlf, if_neg hnext, ih hs.2]
    split <;> rfl

theorem IsOneLine.unfinished {s q more : Bytes} (hs : IsOneLine s) (hmore : more ≠ [])
    (h : q ++ more = s ++ crlf) : ¬ crlf <:+: q := by
  obtain ⟨front, c, rfl⟩ := eq_nil_or_concat more |>.resolve_left hmore
  have hfront : q ++ front = s ++ [13] := by
    have h' : (q ++ front) ++ [c] = (s ++ [13]) ++ [10] := by simpa [crlf] using h
    exact (append_inj' h' rfl).1
  have hone : ¬ crlf <:+: s ++ [13] := by
    rw [infix_concat_iff]
    rintro (hsuffix | hinfix)
    · have hlast := hsuffix.getLast (by simp [crlf])
      simp [crlf] at hlast
    · exact hs.2 hinfix
  intro hq
  exact hone (hfront ▸ hq.trans (infix_append' [] q front))

theorem strstrCrlf_line {s : Bytes} (hs : IsOpen s) (t : Bytes) :
    strstrCrlf (s ++ (crlf ++ t)) = .found s.length :=
  strstrCrlf_oneLine (.of_isOpen hs) t

theorem strstrCrlf_open {s : Bytes} (hs : 10 ∉ s) (pad : Bytes) :
    strstrCrlf (s ++ 0 :: pad) = .absent :=
  strstrCrlf_absent (fun h => hs (h.subset (by simp [crlf]))) pad

theorem strstrCrlf_arrived {text later rest future : Bytes} (htext : IsOpen text)
    (h : rest ++ future = text ++ (crlf ++ later)) (pad : Bytes) :
    (∃ rest', rest = text ++ (crlf ++ rest') ∧ rest' ++ future = later ∧
      strstrCrlf (rest ++ 0 :: pad) = .found text.length) ∨
    (rest.length < text.length + 2 ∧ strstrCrlf (rest ++ 0 :: pad) = .absent) := by
  rw [← append_assoc] at h
  rcases append_eq_append_iff.1 h with ⟨as, hline, hfut⟩ | ⟨rest', rfl, hlater⟩
  · rcases eq_nil_or_concat as with rfl | ⟨bs, c, rfl⟩
    · left
      refine ⟨[], by simpa using hline.symm, by simpa using hfut, ?_⟩
      rw [append_nil] at hline
      rw [← hline, append_assoc, strstrCrlf_line htext]
    · right
      -- the last byte of the line end is missing, so no line feed has arrived
      have hlf : rest ++ bs = text ++ [13] := by
        have h' : (text ++ [13]) ++ [10] = (rest ++ bs) ++ [c] := by
          simpa [crlf, append_assoc] using hline
        exact (append_inj' h' rfl).1.symm
      refine ⟨?_, strstrCrlf_open (fun h10 => ?_) pad⟩
      · have := congrArg List.length hlf
        simp only [length_append, length_singleton] at this
        omega
      · have hmem : (10 : UInt8) ∈ text ++ [13] := hlf ▸ mem_append_left _ h10
        rcases mem_append.1 hmem with h' | h'
        · exact htext.lf_notMem h'
        · exact absurd (mem_singleton.1 h') (by decide)
  · left
    refine ⟨rest', by simp, by simpa using hlater.symm, ?_⟩
    rw [append_assoc, append_assoc, strstrCrlf_line htext]

end CText
