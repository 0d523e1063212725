/-
**Formatting of log lines (`LogStream.cpp`, `FixedBuffer.h`).**

`convert` puts the digits of a number down from the lowest one, takes the digit of a negative remainder from a
table that is mirrored at zero, and reverses the text; every store must be inside the array.
`FixedBuffer::append(const std::string&)` keeps the length in an `int`, and drops a string of `2 ^ 31` bytes.
-/

import BackendProgramming.AsyncLogging

set_option autoImplicit false

namespace ComponentsW

open CText List Option

/-! ### The buffer -/

def kSmallBuffer : ℕ := 4000

def kMaxNumericSize : ℕ := 32

structure RawBuffer where
  data : Bytes
  cur : ℕ

def store (data : Bytes) (p : ℕ) (b : UInt8) : Option Bytes :=
  if p < data.length then some (data.set p b) else none

def copy : Bytes → ℕ → Bytes → Option Bytes
  | data, _, [] => some data
  | data, p, b :: bs => (store data p b).bind fun data => copy data (p + 1) bs

def reverseRange (data : Bytes) (a b : ℕ) : Bytes :=
  data.take a ++ ((data.take b).drop a).reverse ++ data.drop b

namespace RawBuffer

def available (b : RawBuffer) : ℕ := b.data.length - b.cur

def append (b : RawBuffer) (buf : Bytes) : Option RawBuffer :=
  let len := if b.available < buf.length then b.available else buf.length
  (copy b.data b.cur (buf.take len)).map fun data => ⟨data, b.cur + len⟩

def appendString (b : RawBuffer) (str : Bytes) : Option RawBuffer :=
  let len := toInt32 str.length
  let len := if (b.available : ℤ) < len then (b.available : ℤ) else len
  (copy b.data b.cur (str.take len.toNat)).map fun data => ⟨data, b.cur + len.toNat⟩

end RawBuffer

/-! ### Numbers -/

def digitLoop (base : ℕ) (table : Bytes) (origin : ℤ) : ℕ → Bytes → ℕ → ℤ → Option (Bytes × ℕ)
  | 0, _, _, _ => none
  | fuel + 1, data, p, i => do
    let lsd := i.tmod base
    let i := i.tdiv base
    let digit ← table[(origin + lsd).toNat]?
    let data ← store data p digit
    if i ≠ 0 then digitLoop base table origin fuel data (p + 1) i else some (data, p + 1)

def convert (data : Bytes) (buf : ℕ) (value : ℤ) : Option (Bytes × ℕ) := do
  let (data, p) ← digitLoop 10 (ascii "9876543210123456789") 9 (value.natAbs + 1) data buf value
  let (data, p) ← if value < 0 then (store data p 45).map fun data => (data, p + 1) else some (data, p)
  let data ← store data p 0
  some (reverseRange data buf p, p - buf)

def convertHex (data : Bytes) (buf : ℕ) (value : UInt64) : Option (Bytes × ℕ) := do
  let (data, p) ← digitLoop 16 (ascii "0123456789ABCDEF") 0 (value.toNat + 1) data buf value.toNat
  some (reverseRange data buf p, p - buf)

inductive IntType where
  | short | unsignedShort | int | unsignedInt | long | unsignedLong | longLong | unsignedLongLong

def IntType.Holds : IntType → ℤ → Prop
  | .short, v => -2 ^ 15 ≤ v ∧ v < 2 ^ 15
  | .unsignedShort, v => 0 ≤ v ∧ v < 2 ^ 16
  | .int, v => -2 ^ 31 ≤ v ∧ v < 2 ^ 31
  | .unsignedInt, v => 0 ≤ v ∧ v < 2 ^ 32
  | .long, v | .longLong, v => -2 ^ 63 ≤ v ∧ v < 2 ^ 63
  | .unsignedLong, v | .unsignedLongLong, v => 0 ≤ v ∧ v < 2 ^ 64

inductive Item where
  | integer (t : IntType) (v : ℤ) (h : t.Holds v)
  | pointer (p : UInt64)
  | char (c : UInt8)
  | cString (p : Bytes)
  | string (str : Bytes)

namespace RawBuffer

def formatInteger (b : RawBuffer) (v : ℤ) : Option RawBuffer :=
  if kMaxNumericSize ≤ b.available then (convert b.data b.cur v).map fun x => ⟨x.1, b.cur + x.2⟩ else some b

def formatInt (b : RawBuffer) (v : ℤ) : Option RawBuffer :=
  if kMaxNumericSize ≤ b.available then
    (copy b.data b.cur ((intText v).take (kMaxNumericSize - 1) ++ [0])).map fun data =>
      ⟨data, b.cur + (intText v).length⟩
  else some b

def formatPointer (b : RawBuffer) (p : UInt64) : Option RawBuffer :=
  if kMaxNumericSize ≤ b.available then do
    let data ← store b.data b.cur 48
    let data ← store data (b.cur + 1) 120
    let (data, len) ← convertHex data (b.cur + 2) p
    some ⟨data, b.cur + (len + 2)⟩
  else some b

def insert (b : RawBuffer) : Item → Option RawBuffer
  | .integer .short v _ | .integer .int v _ => b.formatInt v
  | .integer _ v _ => b.formatInteger v
  | .pointer p => b.formatPointer p
  | .char c => b.append [c]
  | .cString p => b.append p
  | .string str => b.appendString str

def content (b : RawBuffer) : Bytes := b.data.take b.cur

end RawBuffer

def newStream : RawBuffer := ⟨replicate kSmallBuffer 0, 0⟩

/-! ### What it is for -/

def hexText (n : ℕ) : Bytes := (Nat.toDigits 16 n).map fun c => c.toUpper.toUInt8

def Item.text : Item → Bytes
  | .integer _ v _ => intText v
  | .pointer p => ascii "0x" ++ hexText p.toNat
  | .char c => [c]
  | .cString s | .string s => s

def rendered (out : Bytes) (x : Item) : Bytes :=
  match x with
  | .integer .. | .pointer _ =>
    if kMaxNumericSize ≤ kSmallBuffer - out.length then out ++ x.text else out
  | .char _ | .cString _ | .string _ => out ++ x.text.take (kSmallBuffer - out.length)

def Appends (b : RawBuffer) (x : Item) : Prop :=
  ∃ b', b.insert x = some b' ∧ b'.content = rendered b.content x

def LengthFits (b : RawBuffer) (x : Item) : Prop :=
  ∀ str, x = .string str → str.length < 2 ^ 31 ∨ (b.available : ℤ) ≤ toInt32 str.length ∨ b.available = 0

/-! ### Stores -/

structure Wrote (data : Bytes) (p : ℕ) (front : Bytes) : Prop where
  size : data.length = kSmallBuffer
  pos : p = front.length
  front : data.take p = front

section Wrote

variable {data front : Bytes} {p : ℕ}

theorem Wrote.store (h : Wrote data p front) (hp : p < kSmallBuffer) (b : UInt8) :
    ∃ data', store data p b = some data' ∧ Wrote data' (p + 1) (front ++ [b]) := by
  have hlt : p < data.length := by rw [h.size]; exact hp
  refine ⟨data.set p b, if_pos hlt, by rw [length_set, h.size], by simp [h.pos], ?_⟩
  rw [take_add_one, getElem?_set_self hlt, take_set_of_le le_rfl, h.front]
  rfl

theorem Wrote.copy (h : Wrote data p front) (bs : Bytes) (hp : p + bs.length ≤ kSmallBuffer) :
    ∃ data', copy data p bs = some data' ∧ Wrote data' (p + bs.length) (front ++ bs) := by
  induction bs generalizing data p front with
  | nil => exact ⟨data, rfl, by simpa using h⟩
  | cons b bs ih =>
    rw [length_cons] at hp ⊢
    obtain ⟨data₁, hstore, h₁⟩ := h.store (by omega) b
    obtain ⟨data₂, hcopy, h₂⟩ := ih h₁ (by omega)
    refine ⟨data₂, by rw [ComponentsW.copy, hstore, bind_some, hcopy], ?_⟩
    simpa [Nat.add_assoc, Nat.add_comm 1] using h₂

theorem Wrote.back {bs : Bytes} (h : Wrote data p (front ++ bs)) : Wrote data front.length front := by
  refine ⟨h.size, rfl, ?_⟩
  have := congrArg (take front.length) h.front
  rwa [take_take, take_left, h.pos, length_append, Nat.min_eq_left (by omega)] at this

theorem Wrote.reverse {bs : Bytes} (h : Wrote data p (front ++ bs)) :
    Wrote (reverseRange data front.length p) p (front ++ bs.reverse) := by
  have hle : p ≤ data.length := by
    have := congrArg length h.front
    rw [length_take, ← h.pos] at this
    omega
  have hdata : reverseRange data front.length p = front ++ bs.reverse ++ data.drop p := by
    rw [reverseRange, h.back.front, h.front, drop_left]
  refine ⟨?_, by simp [h.pos], ?_⟩
  · have hsize := h.size
    have hpos := h.pos
    rw [hdata]
    simp only [length_append, length_reverse, length_drop] at hpos ⊢
    omega
  · rw [hdata]
    exact take_left' (by simp [h.pos])

end Wrote

/-! ### Digits -/

theorem digitLoop_eq {base : ℕ} {table : Bytes} {origin : ℤ} {f : Char → UInt8} {signed : Bool}
    (hbase : 1 < base) (htable : ∀ d : ℤ, d.natAbs < base → (signed = true ∨ 0 ≤ d) →
      table[(origin + d).toNat]? = some (f (Nat.digitChar d.natAbs)))
    {fuel p : ℕ} {data front : Bytes} {i : ℤ} (hfuel : i.natAbs < fuel) (hsign : signed = true ∨ 0 ≤ i)
    (h : Wrote data p front) (hp : p + (Nat.toDigits base i.natAbs).length ≤ kSmallBuffer) :
    ∃ data', digitLoop base table origin fuel data p i =
        some (data', p + (Nat.toDigits base i.natAbs).length) ∧
      Wrote data' (p + (Nat.toDigits base i.natAbs).length)
        (front ++ ((Nat.toDigits base i.natAbs).map f).reverse) := by
  induction fuel generalizing p data front i with
  | zero => omega
  | succ fuel ih =>
    have hdiv : (i.tdiv base).natAbs = i.natAbs / base := by
      rw [Int.natAbs_tdiv, Int.natAbs_natCast]
      rfl
    have hmod : (i.tmod base).natAbs = i.natAbs % base := by rw [Int.natAbs_tmod, Int.natAbs_natCast]
    have hdigit := htable (i.tmod base) (by rw [hmod]; exact Nat.mod_lt _ (by omega))
      (hsign.imp_right (Int.tmod_nonneg _))
    rw [hmod] at hdigit
    have hmore := Int.natAbs_ne_zero (a := i.tdiv base)
    rw [hdiv] at hmore
    rw [Nat.toDigits_eq_if hbase] at hp ⊢
    simp only [digitLoop, hdigit, bind_eq_bind, bind_some]
    split at hp
    · next hlt =>
      obtain ⟨data', hstore, h'⟩ := h.store (Nat.lt_of_succ_le hp) (f (Nat.digitChar (i.natAbs % base)))
      rw [if_pos hlt, hstore, bind_some, if_neg fun hne => hmore.2 hne (Nat.div_eq_of_lt hlt)]
      rw [Nat.mod_eq_of_lt hlt] at h'
      exact ⟨data', rfl, h'⟩
    · next hge =>
      rw [length_append, length_singleton] at hp
      obtain ⟨data₁, hstore, h₁⟩ := h.store (by omega) (f (Nat.digitChar (i.natAbs % base)))
      have hpos : 0 < i.natAbs / base := Nat.div_pos (Nat.le_of_not_lt hge) (by omega)
      have hsmaller : i.natAbs / base < i.natAbs := Nat.div_lt_self (by omega) hbase
      obtain ⟨data₂, hloop, h₂⟩ := ih (i := i.tdiv base) (by rw [hdiv]; omega)
        (hsign.imp_right fun hi => Int.tdiv_nonneg hi (by omega)) h₁ (by rw [hdiv]; omega)
      rw [hdiv] at hloop h₂
      rw [if_neg hge, hstore, bind_some, if_pos (hmore.1 hpos.ne'), hloop]
      refine ⟨data₂, by simp [Nat.add_assoc, Nat.add_comm 1], ?_⟩
      simpa [Nat.add_assoc, Nat.add_comm 1] using h₂

theorem Wrote.finish {data front bs : Bytes} {p : ℕ} (h : Wrote data p (front ++ bs))
    (hp : p < kSmallBuffer) :
    ∃ data', ComponentsW.store data p 0 = some data' ∧
      Wrote (reverseRange data' front.length p) p (front ++ bs.reverse) := by
  obtain ⟨data', hstore, h'⟩ := h.store hp 0
  refine ⟨data', hstore, ?_⟩
  have hback := h'.back
  rw [← h.pos] at hback
  exact hback.reverse

theorem convert_eq {data front : Bytes} {p : ℕ} {v : ℤ} (h : Wrote data p front)
    (hp : p + kMaxNumericSize ≤ kSmallBuffer) (hv : v.natAbs < 10 ^ 20) :
    ∃ data', convert data p v = some (data', (intText v).length) ∧
      Wrote data' (p + (intText v).length) (front ++ intText v) := by
  have htable : ∀ d : ℤ, d.natAbs < 10 → (true = true ∨ 0 ≤ d) →
      (ascii "9876543210123456789")[(9 + d).toNat]? = some (Nat.digitChar d.natAbs).toUInt8 := by
    intro d hd _
    obtain ⟨hlo, hhi⟩ : -9 ≤ d ∧ d ≤ 9 := by omega
    interval_cases d <;> decide
  have hmax : kMaxNumericSize = 32 := rfl
  have hlen := length_decimal_le (by norm_num) hv
  have hdigits : (decimal v.natAbs).length = (Nat.toDigits 10 v.natAbs).length := length_map _
  obtain ⟨data₁, hloop, h₁⟩ := digitLoop_eq (i := v) (f := Char.toUInt8) (by norm_num) htable
    (Nat.lt_succ_self _) (.inl rfl) h (by omega)
  rw [← hdigits] at hloop h₁
  rw [convert, hloop, intText]
  by_cases hneg : v < 0
  · obtain ⟨data₂, hsign, h₂⟩ := h₁.store (by omega) 45
    rw [append_assoc] at h₂
    obtain ⟨data₃, hzero, h₃⟩ := h₂.finish (by omega)
    simp only [bind_eq_bind, bind_some, if_pos hneg, hsign, map_some, hzero]
    rw [← h.pos, reverse_append, reverse_reverse] at h₃
    refine ⟨_, ?_, h₃⟩
    rw [length_cons, Nat.add_assoc, Nat.add_sub_cancel_left]
  · obtain ⟨data₂, hzero, h₂⟩ := h₁.finish (by omega)
    simp only [bind_eq_bind, bind_some, if_neg hneg, hzero]
    rw [← h.pos, reverse_reverse] at h₂
    exact ⟨_, by rw [Nat.add_sub_cancel_left], h₂⟩

theorem convertHex_eq {data front : Bytes} {p : ℕ} (h : Wrote data p front) (hp : p + 16 ≤ kSmallBuffer)
    (v : UInt64) :
    ∃ data', convertHex data p v = some (data', (hexText v.toNat).length) ∧
      Wrote data' (p + (hexText v.toNat).length) (front ++ hexText v.toNat) := by
  have htable : ∀ d : ℤ, d.natAbs < 16 → (false = true ∨ 0 ≤ d) →
      (ascii "0123456789ABCDEF")[(0 + d).toNat]? = some (Nat.digitChar d.natAbs).toUpper.toUInt8 := by
    intro d hd hsign
    obtain ⟨hlo, hhi⟩ : 0 ≤ d ∧ d ≤ 15 := ⟨hsign.resolve_left Bool.false_ne_true, by omega⟩
    interval_cases d <;> decide
  have hlen : (Nat.toDigits 16 v.toNat).length ≤ 16 :=
    (Nat.length_toDigits_le_iff (by norm_num) (by norm_num)).2 v.toNat_lt
  have hdigits : (hexText v.toNat).length = (Nat.toDigits 16 v.toNat).length := length_map _
  obtain ⟨data₁, hloop, h₁⟩ := digitLoop_eq (i := v.toNat) (f := fun c => c.toUpper.toUInt8) (by norm_num) htable
    (Nat.lt_succ_self _) (.inr (Int.natCast_nonneg _)) h (by rw [Int.natAbs_natCast]; omega)
  rw [Int.natAbs_natCast, ← hdigits] at hloop h₁
  have h₂ := h₁.reverse
  rw [← h.pos, reverse_reverse] at h₂
  rw [convertHex, hloop]
  exact ⟨_, congrArg some (Prod.ext rfl (Nat.add_sub_cancel_left ..)), h₂⟩

/-! ### Insertions -/

def RawBuffer.Sound (b : RawBuffer) : Prop := b.data.length = kSmallBuffer ∧ b.cur ≤ kSmallBuffer

section Insert

variable {b : RawBuffer}

theorem RawBuffer.Sound.wrote (h : b.Sound) : Wrote b.data b.cur b.content := by
  refine ⟨h.1, ?_, rfl⟩
  rw [content, length_take, h.1, Nat.min_eq_left h.2]

theorem Wrote.sound {data front : Bytes} {p : ℕ} (h : Wrote data p front) :
    RawBuffer.Sound ⟨data, p⟩ ∧ RawBuffer.content ⟨data, p⟩ = front := by
  refine ⟨⟨h.size, ?_⟩, h.front⟩
  have := congrArg length h.front
  rw [length_take, h.size, ← h.pos] at this
  exact min_eq_left_iff.1 this

theorem RawBuffer.Sound.copy (h : b.Sound) {text : Bytes} (hlen : text.length ≤ b.available) :
    ∃ b', (ComponentsW.copy b.data b.cur text).map (fun data => (⟨data, b.cur + text.length⟩ : RawBuffer)) = some b' ∧
      b'.Sound ∧ b'.content = b.content ++ text := by
  obtain ⟨hsize, hcur⟩ := id h
  rw [available, hsize] at hlen
  obtain ⟨data, hcopy, hwrote⟩ := h.wrote.copy text (by omega)
  exact ⟨⟨data, _⟩, by rw [hcopy]; rfl, hwrote.sound⟩

theorem RawBuffer.Sound.available_eq (h : b.Sound) : b.available = kSmallBuffer - b.content.length := by
  rw [available, h.1, ← h.wrote.pos]

theorem IntType.Holds.natAbs_lt {t : IntType} {v : ℤ} (h : t.Holds v) : v.natAbs < 10 ^ 20 := by
  cases t <;> simp only [IntType.Holds] at h <;> omega

theorem formatInteger_eq (h : b.Sound) {v : ℤ} (hv : v.natAbs < 10 ^ 20) :
    ∃ b', b.formatInteger v = some b' ∧ b'.Sound ∧
      b'.content = if kMaxNumericSize ≤ b.available then b.content ++ intText v else b.content := by
  rw [RawBuffer.formatInteger]
  split
  · next hroom =>
    obtain ⟨hsize, hcur⟩ := id h
    rw [RawBuffer.available, hsize] at hroom
    obtain ⟨data, hconvert, hwrote⟩ := convert_eq h.wrote (by omega) hv
    exact ⟨⟨data, _⟩, by rw [hconvert]; rfl, hwrote.sound⟩
  · exact ⟨b, rfl, h, rfl⟩

theorem formatInt_eq (h : b.Sound) {v : ℤ} (hv : v.natAbs < 10 ^ 20) :
    ∃ b', b.formatInt v = some b' ∧ b'.Sound ∧
      b'.content = if kMaxNumericSize ≤ b.available then b.content ++ intText v else b.content := by
  rw [RawBuffer.formatInt]
  split
  · next hroom =>
    obtain ⟨hsize, hcur⟩ := id h
    have hlen : (intText v).length ≤ kMaxNumericSize - 1 := by
      have := length_decimal_le (by norm_num) hv
      rw [intText, kMaxNumericSize]
      split
      · rw [length_cons]
        omega
      · omega
    have hmax : kMaxNumericSize = 32 := rfl
    rw [RawBuffer.available, hsize] at hroom
    obtain ⟨data, hcopy, hwrote⟩ := h.wrote.copy (intText v ++ [0]) (by
      rw [length_append, length_singleton]
      omega)
    rw [← append_assoc] at hwrote
    have hback := hwrote.back
    rw [length_append, ← h.wrote.pos] at hback
    exact ⟨⟨data, _⟩, by rw [take_of_length_le hlen, hcopy]; rfl, hback.sound⟩
  · exact ⟨b, rfl, h, rfl⟩

theorem formatPointer_eq (h : b.Sound) (p : UInt64) :
    ∃ b', b.formatPointer p = some b' ∧ b'.Sound ∧ b'.content =
      if kMaxNumericSize ≤ b.available then b.content ++ (ascii "0x" ++ hexText p.toNat) else b.content := by
  rw [RawBuffer.formatPointer]
  split
  · next hroom =>
    have hmax : kMaxNumericSize = 32 := rfl
    obtain ⟨hsize, hcur⟩ := id h
    rw [RawBuffer.available, hsize] at hroom
    obtain ⟨data₁, hstore₁, h₁⟩ := h.wrote.store (by omega) 48
    obtain ⟨data₂, hstore₂, h₂⟩ := h₁.store (by omega) 120
    obtain ⟨data₃, hhex, h₃⟩ := convertHex_eq h₂ (by omega) p
    rw [Nat.add_assoc _ 1 1] at hhex h₃
    rw [Nat.add_assoc, Nat.add_comm 2] at h₃
    refine ⟨⟨data₃, b.cur + ((hexText p.toNat).length + 2)⟩, ?_, ?_⟩
    · simp only [bind_eq_bind, hstore₁, hstore₂, bind_some, hhex]
    · rw [append_assoc, append_assoc] at h₃
      exact h₃.sound
  · exact ⟨b, rfl, h, rfl⟩

theorem append_eq (h : b.Sound) (buf : Bytes) :
    ∃ b', b.append buf = some b' ∧ b'.Sound ∧ b'.content = b.content ++ buf.take b.available := by
  rw [RawBuffer.append]
  split
  · next hlt =>
    have hlen := length_take_of_le hlt.le
    obtain ⟨b', hcopy, hrest⟩ := h.copy hlen.le
    rw [hlen] at hcopy
    exact ⟨b', hcopy, hrest⟩
  · next hge =>
    rw [take_length, take_of_length_le (Nat.le_of_not_lt hge)]
    exact h.copy (Nat.le_of_not_lt hge)

def cutLength (b : RawBuffer) (str : Bytes) : ℕ :=
  (if (b.available : ℤ) < toInt32 str.length then (b.available : ℤ) else toInt32 str.length).toNat

theorem toInt32_bounds (n : ℕ) : toInt32 n ≤ n ∧ (n < 2 ^ 31 → toInt32 n = n) := by
  rw [toInt32, Int.bmod_def]
  split <;> omega

theorem appendString_eq (h : b.Sound) (str : Bytes) :
    ∃ b', b.appendString str = some b' ∧ b'.Sound ∧ b'.content = b.content ++ str.take (cutLength b str) := by
  have hle : cutLength b str ≤ b.available ∧ cutLength b str ≤ str.length := by
    have := (toInt32_bounds str.length).1
    rw [cutLength]
    split <;> omega
  have hlen := length_take_of_le hle.2
  obtain ⟨b', hcopy, hrest⟩ := h.copy (hlen.trans_le hle.1)
  rw [hlen] at hcopy
  exact ⟨b', hcopy, hrest⟩

theorem cutLength_right_iff (h : b.Sound) (str : Bytes) :
    str.take (cutLength b str) = str.take b.available ↔ LengthFits b (.string str) := by
  have hsmall : b.available ≤ 4000 := by
    rw [h.available_eq, kSmallBuffer]
    omega
  obtain ⟨hle, hint⟩ := toInt32_bounds str.length
  rw [take_eq_take_iff, cutLength]
  simp only [LengthFits, Item.string.injEq, forall_eq']
  split <;> omega

theorem insert_eq (h : b.Sound) (x : Item) :
    ∃ b', b.insert x = some b' ∧ b'.Sound ∧ (b'.content = rendered b.content x ↔ LengthFits b x) := by
  have hfits : (∀ str, x ≠ .string str) → LengthFits b x := fun hx str heq => absurd heq (hx str)
  cases x with
  | integer t v ht =>
    have hint := formatInt_eq h ht.natAbs_lt
    have hinteger := formatInteger_eq h ht.natAbs_lt
    rw [h.available_eq] at hint hinteger
    obtain ⟨b', hinsert, hsound, hcontent⟩ : ∃ b', b.insert (.integer t v ht) = some b' ∧ b'.Sound ∧
        b'.content = rendered b.content (.integer t v ht) := by
      cases t
      case short => exact hint
      case int => exact hint
      all_goals exact hinteger
    exact ⟨b', hinsert, hsound, iff_of_true hcontent (hfits (by simp))⟩
  | pointer p =>
    obtain ⟨b', hinsert, hsound, hcontent⟩ := formatPointer_eq h p
    rw [h.available_eq] at hcontent
    exact ⟨b', hinsert, hsound, iff_of_true hcontent (hfits (by simp))⟩
  | char c =>
    obtain ⟨b', hinsert, hsound, hcontent⟩ := append_eq h [c]
    rw [h.available_eq] at hcontent
    exact ⟨b', hinsert, hsound, iff_of_true hcontent (hfits (by simp))⟩
  | cString p =>
    obtain ⟨b', hinsert, hsound, hcontent⟩ := append_eq h p
    rw [h.available_eq] at hcontent
    exact ⟨b', hinsert, hsound, iff_of_true hcontent (hfits (by simp))⟩
  | string str =>
    obtain ⟨b', hinsert, hsound, hcontent⟩ := appendString_eq h str
    refine ⟨b', hinsert, hsound, ?_⟩
    rw [hcontent, ← cutLength_right_iff h, h.available_eq]
    exact append_right_inj _

end Insert

theorem logStream_right_iff (items : List Item) :
    (Lts.Along RawBuffer.insert Appends newStream items ↔
        Lts.Along RawBuffer.insert LengthFits newStream items) ∧
      (Lts.Along RawBuffer.insert LengthFits newStream items →
        ∃ b, Lts.run RawBuffer.insert newStream items = some b ∧ b.content = items.foldl rendered []) := by
  have hstart : newStream.Sound := ⟨length_replicate, Nat.zero_le _⟩
  constructor
  · refine Lts.Along.iff_of_invariant (G := fun _ _ => True) (fun b x hb _ => ?_) hstart
      (Lts.Along.of_true _ items)
    obtain ⟨b', hinsert, hsound, hiff⟩ := insert_eq hb x
    refine ⟨?_, fun _ b'' hb'' => ?_⟩
    · rw [Appends, hinsert, ← hiff]
      simp
    · rw [hinsert] at hb''
      exact some.inj hb'' ▸ hsound
  · rw [show ([] : Bytes) = newStream.content from rfl]
    generalize newStream = b at hstart
    induction items generalizing b with
    | nil => exact fun _ => ⟨b, rfl, rfl⟩
    | cons x items ih =>
      rintro ⟨hfits, hrest⟩
      obtain ⟨b', hinsert, hsound, hiff⟩ := insert_eq hstart x
      obtain ⟨b'', hrun, hcontent⟩ := ih b' hsound (hrest b' hinsert)
      refine ⟨b'', by rw [Lts.run, hinsert, bind_some, hrun], ?_⟩
      rw [foldl_cons, ← hiff.2 hfits, hcontent]

theorem long_string_dropped :
    ∃ b, newStream.insert (.string (replicate (2 ^ 31) 65)) = some b ∧ b.content = [] ∧
      rendered [] (.string (replicate (2 ^ 31) 65)) = replicate 4000 65 := by
  have hstart : newStream.Sound := ⟨length_replicate, Nat.zero_le _⟩
  obtain ⟨b, hinsert, -, hcontent⟩ := appendString_eq hstart (replicate (2 ^ 31) 65)
  refine ⟨b, hinsert, ?_, ?_⟩
  · have hcut : cutLength newStream (replicate (2 ^ 31) 65) = 0 := by
      rw [cutLength, length_replicate]
      decide +kernel
    rw [hcontent, hcut]
    rfl
  · rw [rendered, Item.text, take_replicate]
    rfl

end ComponentsW
