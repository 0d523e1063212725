/-
**The streams that records are written to and read from (`dbstream.cpp`).**

Fields are written one after the other, without tags or lengths: a number as its bytes, a string as its
characters and a zero byte.  The reader checks the bounds of a number, but a string it reads up to the next
zero byte, wherever that is.  A program is a state monad over the stream, in which `none` is undefined
behaviour; its rules are `Appends`, `Writes` and `Reads`.
-/

import Mathlib.Data.List.TakeWhile
import BackendProgramming.CText

set_option autoImplicit false

namespace GBDownLinker

open CText List

/-! ### Fields -/

inductive FieldType where
  | bool
  | char
  | unsignedShort
  | uint64
  | uint32
  | int8
  | uint8
  | int16
  | int32
  | int64
  | float
  | string
  deriving DecidableEq, Repr

def FieldType.size : FieldType → Option ℕ
  | .bool | .char | .int8 | .uint8 => some 1
  | .unsignedShort | .int16 => some 2
  | .uint32 | .int32 | .float => some 4
  | .uint64 | .int64 => some 8
  | .string => none

def FieldType.Fits (t : FieldType) (v : Bytes) : Prop :=
  match t.size with
  | some w => v.length = w
  | none => 0 ∉ v

instance (t : FieldType) (v : Bytes) : Decidable (t.Fits v) := by
  unfold FieldType.Fits
  split <;> infer_instance

@[ext] structure FieldType.Val (t : FieldType) where
  bytes : Bytes
  fits : t.Fits bytes
  deriving DecidableEq

instance (t : FieldType) : Inhabited t.Val where
  default := ⟨List.replicate (t.size.getD 0) 0, by
    unfold FieldType.Fits
    cases t.size <;> simp⟩

theorem FieldType.Val.length_eq {t : FieldType} (v : t.Val) {w : ℕ} (h : t.size = some w) :
    v.bytes.length = w := by
  have hfits := v.fits
  rwa [FieldType.Fits, h] at hfits

theorem FieldType.Val.zero_notMem {t : FieldType} (v : t.Val) (h : t.size = none) : 0 ∉ v.bytes := by
  have hfits := v.fits
  rwa [FieldType.Fits, h] at hfits

def FieldType.encode (t : FieldType) (v : t.Val) : Bytes :=
  match t.size with
  | some _ => v.bytes
  | none => v.bytes ++ [0]

/-! ### The writer -/

structure DBOutStream where
  data : Bytes := []
  capacity : ℕ := 4096
  deriving DecidableEq, Repr

def grow : ℕ → ℕ → ℕ → Option ℕ
  | 0, _, _ => none
  | fuel + 1, capacity, need =>
    if need ≤ capacity then some capacity
    else if 2 ^ 31 ≤ capacity * 2 then none
    else grow fuel (capacity * 2) need

def DBOutStream.save (out : DBOutStream) (p : Bytes) (size : ℤ) : Option DBOutStream :=
  if size < 0 then none
  else (grow 32 out.capacity (out.data.length + size.toNat)).map fun capacity =>
    ⟨out.data ++ p.take size.toNat, capacity⟩

abbrev Save := StateT DBOutStream Option

def write (t : FieldType) (v : t.Val) : Save Unit := fun out =>
  (match t.size with
    | some w => out.save v.bytes w
    | none => out.save (v.bytes ++ [0]) (toInt32 (v.bytes.length + 1))).map fun out => ((), out)

/-! ### The reader -/

structure DBInStream where
  mem : Bytes
  datalen : ℕ
  cursor : ℕ
  loadError : Bool
  datalen_le : datalen ≤ mem.length

def DBInStream.ofReply (value : Bytes) : DBInStream where
  mem := value ++ [0]
  datalen := value.length
  cursor := 0
  loadError := false
  datalen_le := by simp

def DBInStream.ahead (s : DBInStream) : Bytes := s.mem.drop s.cursor

abbrev Load := StateT DBInStream Option

def cstr (mem : Bytes) : Bytes := mem.takeWhile (· ≠ 0)

theorem zero_notMem_cstr (mem : Bytes) : 0 ∉ cstr mem := by
  intro h
  have hne := mem_takeWhile_imp h
  simp at hne

def read (t : FieldType) (old : t.Val) : Load t.Val := fun s =>
  match h : t.size with
  | some w =>
    if hw : s.cursor + w ≤ s.datalen then
      some (⟨s.ahead.take w, by
        have hmem := s.datalen_le
        rw [FieldType.Fits, h]
        simp only [DBInStream.ahead, length_take, length_drop]
        omega⟩, { s with cursor := s.cursor + w })
    else some (old, { s with loadError := true })
  | none =>
    if 0 ∈ s.ahead then
      some (⟨cstr s.ahead, by
        rw [FieldType.Fits, h]
        exact zero_notMem_cstr _⟩, { s with cursor := s.cursor + (cstr s.ahead).length + 1 })
    else none

/-! ### What a program writes -/

def DBOutStream.Ok (out : DBOutStream) : Prop :=
  (∃ k ≤ 30, out.capacity = 2 ^ k) ∧ out.data.length ≤ out.capacity

theorem DBOutStream.ok_default : DBOutStream.Ok {} := ⟨⟨12, by decide, rfl⟩, by decide⟩

theorem grow_eq_some {fuel k need : ℕ} (hk : k ≤ 30) (hfuel : 31 ≤ fuel + k)
    (hneed : need ≤ 2 ^ 30) : ∃ k' ≤ 30, need ≤ 2 ^ k' ∧ grow fuel (2 ^ k) need = some (2 ^ k') := by
  induction fuel generalizing k with
  | zero => omega
  | succ fuel ih =>
    rw [grow]
    by_cases hfit : need ≤ 2 ^ k
    · exact ⟨k, hk, hfit, if_pos hfit⟩
    · have hlt : k < 30 := by
        by_contra h
        obtain rfl : k = 30 := by omega
        exact hfit hneed
      obtain ⟨k', hk', hneed', heq⟩ := @ih (k + 1) hlt (by omega)
      refine ⟨k', hk', hneed', ?_⟩
      rw [if_neg hfit, ← pow_succ, if_neg (by omega), heq]

theorem grow_eq_none {fuel k need : ℕ} (hk : k ≤ 30) (hneed : 2 ^ 30 < need) :
    grow fuel (2 ^ k) need = none := by
  induction fuel generalizing k with
  | zero => rfl
  | succ fuel ih =>
    have hle : 2 ^ k ≤ 2 ^ 30 := Nat.pow_le_pow_right (by decide) hk
    rw [grow, if_neg (by omega), ← pow_succ]
    by_cases hlt : k < 30
    · have hsmall : 2 ^ (k + 1) ≤ 2 ^ 30 := Nat.pow_le_pow_right (by decide) hlt
      rw [if_neg (by omega)]
      exact ih hlt
    · obtain rfl : k = 30 := by omega
      rfl

def Appends (I : DBOutStream → Prop) (m : Save Unit) (bs : Bytes) : Prop :=
  ∀ out : DBOutStream, I out → out.data.length + bs.length ≤ 2 ^ 30 →
    ∃ out' : DBOutStream, m out = some ((), out') ∧ out'.data = out.data ++ bs ∧ I out'

section Appends

variable {I : DBOutStream → Prop}

theorem Appends.pure : Appends I (pure ()) [] := fun out hI _ => ⟨out, rfl, by simp, hI⟩

theorem Appends.bind {m m' : Save Unit} {bs bs' : Bytes} (h : Appends I m bs) (h' : Appends I m' bs') :
    Appends I (m >>= fun _ => m') (bs ++ bs') := by
  intro out hI hlen
  rw [length_append] at hlen
  obtain ⟨out₁, heq₁, hdata₁, hI₁⟩ := h out hI (by omega)
  obtain ⟨out₂, heq₂, hdata₂, hI₂⟩ := h' out₁ hI₁ (by rw [hdata₁, length_append]; omega)
  refine ⟨out₂, ?_, by rw [hdata₂, hdata₁, append_assoc], hI₂⟩
  show (m out).bind (fun x => m' x.2) = _
  rw [heq₁]
  exact heq₂

theorem appends_write
    (hsave : ∀ (out : DBOutStream) (p : Bytes), I out → out.data.length + p.length ≤ 2 ^ 30 →
      ∃ out' : DBOutStream, out.save p p.length = some out' ∧ out'.data = out.data ++ p ∧ I out')
    (t : FieldType) (v : t.Val) : Appends I (write t v) (t.encode v) := by
  intro out hI hlen
  rw [FieldType.encode] at hlen ⊢
  rw [write]
  cases ht : t.size with
  | some w =>
    simp only [ht] at hlen
    obtain ⟨out', heq, hdata, hI'⟩ := hsave out _ hI hlen
    rw [v.length_eq ht] at heq
    exact ⟨out', by dsimp only; rw [heq]; rfl, hdata, hI'⟩
  | none =>
    simp only [ht] at hlen
    obtain ⟨out', heq, hdata, hI'⟩ := hsave out _ hI hlen
    have hsize : toInt32 (v.bytes.length + 1) = ((v.bytes ++ [0] : Bytes).length : ℤ) := by
      simp only [length_append, length_singleton] at hlen
      rw [toInt32_eq (by omega) (by omega)]
      simp
    exact ⟨out', by dsimp only; rw [hsize, heq]; rfl, hdata, hI'⟩

end Appends

def Writes (m : Save Unit) (bs : Bytes) : Prop :=
  ∀ out : DBOutStream, out.Ok → out.data.length + bs.length ≤ 2 ^ 30 →
    ∃ out' : DBOutStream, m out = some ((), out') ∧ out'.data = out.data ++ bs ∧ out'.Ok

theorem Writes.pure : Writes (pure ()) [] := Appends.pure

theorem Writes.bind {m m' : Save Unit} {bs bs' : Bytes} (h : Writes m bs) (h' : Writes m' bs') :
    Writes (m >>= fun _ => m') (bs ++ bs') :=
  Appends.bind h h'

theorem save_eq_some {out : DBOutStream} (hok : out.Ok) {p : Bytes}
    (hlen : out.data.length + p.length ≤ 2 ^ 30) :
    ∃ out' : DBOutStream, out.save p p.length = some out' ∧ out'.data = out.data ++ p ∧ out'.Ok := by
  obtain ⟨⟨k, hk, hcap⟩, -⟩ := hok
  obtain ⟨k', hk', hneed, heq⟩ := @grow_eq_some 32 k _ hk (by omega) hlen
  refine ⟨⟨out.data ++ p, 2 ^ k'⟩, ?_, rfl, ⟨k', hk', rfl⟩, ?_⟩
  · rw [DBOutStream.save, if_neg (by omega), Int.toNat_natCast, hcap, heq]
    simp
  · simpa using hneed

theorem writes_write (t : FieldType) (v : t.Val) : Writes (write t v) (t.encode v) :=
  appends_write (fun _ _ hok hlen => save_eq_some hok hlen) t v

theorem bind_eq_none {m : Save Unit} {f : Unit → Save Unit} {out : DBOutStream} (h : m out = none) :
    (m >>= f) out = none := by
  show (m out).bind (fun x => f x.1 x.2) = none
  rw [h]
  rfl

theorem write_string_eq_none (v : FieldType.string.Val) (h₀ : 2 ^ 30 ≤ v.bytes.length)
    (h₁ : v.bytes.length + 1 < 2 ^ 31) : write .string v {} = none := by
  have hsize : toInt32 (v.bytes.length + 1) = ((v.bytes.length + 1 : ℕ) : ℤ) := by
    rw [toInt32_eq (by omega) (by omega)]
    simp
  have hgrow : grow 32 4096 (v.bytes.length + 1) = none :=
    @grow_eq_none 32 12 _ (by decide) (by omega)
  show ((DBOutStream.save {} (v.bytes ++ [0]) (toInt32 (v.bytes.length + 1))).map _) = none
  rw [hsize, DBOutStream.save, if_neg (by omega), Int.toNat_natCast, length_nil, Nat.zero_add,
    hgrow]
  rfl

/-! ### What a program reads -/

variable {α β : Type}

def Reads (m : Load α) (bs : Bytes) (a : α) : Prop :=
  ∀ s : DBInStream, bs <+: s.ahead → s.cursor + bs.length ≤ s.datalen →
    m s = some (a, { s with cursor := s.cursor + bs.length })

theorem Reads.pure (a : α) : Reads (pure a) [] a := fun _ _ _ => rfl

theorem Reads.bind {m : Load α} {f : α → Load β} {bs bs' : Bytes} {a : α} {b : β}
    (h : Reads m bs a) (h' : Reads (f a) bs' b) : Reads (m >>= f) (bs ++ bs') b := by
  intro s hahead hlen
  rw [length_append] at hlen
  obtain ⟨rest, hrest⟩ := hahead
  have heq := h s ⟨bs' ++ rest, by rw [← append_assoc, hrest]⟩ (by omega)
  have heq' := h' { s with cursor := s.cursor + bs.length }
    ⟨rest, by
      show bs' ++ rest = s.mem.drop (s.cursor + bs.length)
      rw [← drop_drop, ← DBInStream.ahead, ← hrest, append_assoc, drop_left]⟩
    (by dsimp only; omega)
  show (m s).bind (fun x => f x.1 x.2) = _
  rw [heq]
  simpa [Nat.add_assoc] using heq'

theorem Reads.result {m : Load α} {bs : Bytes} {a : α} (h : Reads m bs a) (g : α → β) :
    Reads (m >>= fun a => Pure.pure (g a)) bs (g a) := by
  have h' : Reads (m >>= fun a => Pure.pure (g a)) (bs ++ []) (g a) := h.bind (.pure (g a))
  rwa [append_nil] at h'

theorem cstr_append {v rest : Bytes} (h : 0 ∉ v) : cstr (v ++ 0 :: rest) = v := by
  rw [cstr, takeWhile_append_of_pos, takeWhile_cons_of_neg (by simp), append_nil]
  intro b hb
  simpa using fun h₀ : b = 0 => h (h₀ ▸ hb)

theorem reads_read (t : FieldType) (old v : t.Val) : Reads (read t old) (t.encode v) v := by
  intro s hahead hlen
  obtain ⟨rest, hrest⟩ := hahead
  rw [FieldType.encode] at hlen hrest ⊢
  rw [read]
  split
  · rename_i w ht
    have hv := v.length_eq ht
    simp only [ht] at hlen hrest ⊢
    rw [dif_pos (by omega)]
    have htake : s.ahead.take w = v.bytes := by rw [← hrest, ← hv, take_left]
    exact congrArg some (Prod.ext (FieldType.Val.ext htake) (by rw [hv]))
  · rename_i ht
    simp only [ht] at hlen hrest ⊢
    have hcstr : cstr s.ahead = v.bytes := by
      rw [← hrest, append_assoc]
      exact cstr_append (v.zero_notMem ht)
    have hmem : (0 : UInt8) ∈ s.ahead := by simp [← hrest]
    rw [if_pos hmem]
    refine congrArg some (Prod.ext (FieldType.Val.ext hcstr) ?_)
    simp [hcstr, Nat.add_assoc]

end GBDownLinker
