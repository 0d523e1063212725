/-
**The buffer of the writer, and the round trip of typed values.**

`DBOutStream` keeps what is written in a block of memory, which `save` doubles when the next value does not
fit.  The block, with each `memcpy` to it, refines the stream of `BackendProgramming/DbStream.lean`.
-/

import BackendProgramming.DbStream

set_option autoImplicit false

namespace GBDownLinker

open CText List Option

/-! ### The block -/

def memcpy (block : Bytes) (off : ℕ) (bs : Bytes) : Option Bytes :=
  if off + bs.length ≤ block.length then some (block.take off ++ bs ++ block.drop (off + bs.length)) else none

structure OutBuffer where
  data : Bytes
  cursor : ℕ
  deriving DecidableEq

namespace OutBuffer

def new (capacity : ℕ) : OutBuffer := ⟨replicate capacity 0, 0⟩

def double (b : OutBuffer) : Option OutBuffer :=
  let newBuf := replicate (b.data.length * 2) 0
  if 0 < b.cursor then (memcpy newBuf 0 (b.data.take b.cursor)).map fun data => ⟨data, b.cursor⟩
  else some ⟨newBuf, b.cursor⟩

def growLoop : ℕ → OutBuffer → ℕ → Option OutBuffer
  | 0, _, _ => none
  | fuel + 1, b, size =>
    if b.cursor + size ≤ b.data.length then some b
    else if 2 ^ 31 ≤ b.data.length * 2 then none
    else b.double.bind fun b' => growLoop fuel b' size

def save (b : OutBuffer) (p : Bytes) (size : ℤ) : Option OutBuffer :=
  if size < 0 then none
  else (growLoop 32 b size.toNat).bind fun b' =>
    (memcpy b'.data b'.cursor (p.take size.toNat)).map fun data => ⟨data, b'.cursor + size.toNat⟩

def put (t : FieldType) (v : t.Val) : StateT OutBuffer Option Unit := fun b =>
  (match t.size with
    | some w => b.save v.bytes w
    | none => b.save (v.bytes ++ [0]) (toInt32 (v.bytes.length + 1))).map fun b => ((), b)

def toStream (b : OutBuffer) : DBOutStream := ⟨b.data.take b.cursor, b.data.length⟩

theorem length_toStream {b : OutBuffer} (hb : b.cursor ≤ b.data.length) :
    b.toStream.data.length = b.cursor := by
  simpa [toStream] using hb

theorem memcpy_eq {block bs : Bytes} {off : ℕ} (h : off + bs.length ≤ block.length) :
    ∃ block', memcpy block off bs = some block' ∧ block'.length = block.length ∧
      block'.take (off + bs.length) = block.take off ++ bs := by
  have hoff : (block.take off).length = off := by simpa using (by omega : off ≤ block.length)
  refine ⟨_, if_pos h, ?_, ?_⟩
  · simp only [length_append, length_drop, hoff]
    omega
  · rw [take_left']
    rw [length_append, hoff]

theorem double_eq {b : OutBuffer} (hb : b.cursor ≤ b.data.length) :
    ∃ b', b.double = some b' ∧ b'.data.length = b.data.length * 2 ∧ b'.cursor = b.cursor ∧
      b'.data.take b'.cursor = b.data.take b.cursor := by
  have hwritten : (b.data.take b.cursor).length = b.cursor := by simpa using hb
  rw [double]
  by_cases hpos : 0 < b.cursor
  · obtain ⟨block, hcopy, hlen, htake⟩ := @memcpy_eq (replicate (b.data.length * 2) 0)
      (b.data.take b.cursor) 0 (by simp; omega)
    rw [hwritten, Nat.zero_add, take_zero, nil_append] at htake
    refine ⟨⟨block, b.cursor⟩, ?_, by simpa using hlen, rfl, htake⟩
    rw [if_pos hpos, hcopy, map_some]
  · refine ⟨_, if_neg hpos, by simp, rfl, ?_⟩
    simp [Nat.eq_zero_of_not_pos hpos]

theorem growLoop_refines {fuel size : ℕ} {b : OutBuffer} (hb : b.cursor ≤ b.data.length) :
    (grow fuel b.data.length (b.cursor + size) = none ∧ growLoop fuel b size = none) ∨
    ∃ b', growLoop fuel b size = some b' ∧ b'.cursor = b.cursor ∧
      grow fuel b.data.length (b.cursor + size) = some b'.data.length ∧
      b'.cursor + size ≤ b'.data.length ∧ b'.data.take b'.cursor = b.data.take b.cursor := by
  induction fuel generalizing b with
  | zero => exact Or.inl ⟨rfl, rfl⟩
  | succ fuel ih =>
    rw [grow, growLoop]
    by_cases hfit : b.cursor + size ≤ b.data.length
    · exact Or.inr ⟨b, if_pos hfit, rfl, if_pos hfit, hfit, rfl⟩
    · by_cases hover : 2 ^ 31 ≤ b.data.length * 2
      · exact Or.inl ⟨by rw [if_neg hfit, if_pos hover], by rw [if_neg hfit, if_pos hover]⟩
      · obtain ⟨b₁, hdouble, hlen, hcursor, htake⟩ := double_eq hb
        rw [if_neg hfit, if_neg hover, if_neg hfit, if_neg hover, hdouble, bind_some]
        rw [← htake, ← hlen, ← hcursor]
        exact ih (by omega)

theorem save_refines {b : OutBuffer} (hb : b.cursor ≤ b.data.length) {p : Bytes} {size : ℤ}
    (hsize : size.toNat ≤ p.length) :
    (b.save p size).map toStream = b.toStream.save p size ∧
      ∀ b', b.save p size = some b' → b'.cursor ≤ b'.data.length := by
  rw [save, DBOutStream.save, length_toStream hb]
  by_cases hneg : size < 0
  · simp [hneg]
  rw [if_neg hneg, if_neg hneg]
  rcases @growLoop_refines 32 size.toNat b hb with ⟨hnone, hloop⟩ | ⟨b₁, hloop, hcursor, hgrow, hfit, htake⟩
  · rw [hloop]
    simpa [toStream] using hnone
  · have hlen : (p.take size.toNat).length = size.toNat := by simpa using hsize
    obtain ⟨block, hcopy, hblock, hbytes⟩ := @memcpy_eq b₁.data (p.take size.toNat) b₁.cursor (by omega)
    rw [hlen] at hbytes
    rw [hloop, bind_some, hcopy, map_some, map_some]
    constructor
    · have hgrow' : grow 32 b.toStream.capacity (b.cursor + size.toNat) = some b₁.data.length := hgrow
      rw [hgrow', map_some]
      simp only [toStream, hbytes, hblock, htake]
    · intro b' hb'
      cases hb'
      simpa [hblock] using hfit

end OutBuffer

/-! ### Sequences of values -/

inductive Item where
  | field (t : FieldType) (v : t.Val)
  | strList (strs : List FieldType.string.Val)

inductive ItemType where
  | field (t : FieldType)
  | strList
  deriving DecidableEq, Repr

def Item.type : Item → ItemType
  | .field t _ => .field t
  | .strList _ => .strList

def ushortOf (n : ℕ) : FieldType.unsignedShort.Val := ⟨[.ofNat n, .ofNat (n / 256)], rfl⟩

def ushortVal (v : FieldType.unsignedShort.Val) : ℕ := v.bytes.foldr (fun b n => b.toNat + 256 * n) 0

section Put

variable {S : Type} (put : (t : FieldType) → t.Val → StateT S Option Unit)

def putStrings : List FieldType.string.Val → StateT S Option Unit
  | [] => pure ()
  | str :: rest => do
    put .string str
    putStrings rest

def putItem : Item → StateT S Option Unit
  | .field t v => put t v
  | .strList strs => do
    put .unsignedShort (ushortOf strs.length)
    putStrings put strs

def putItems : List Item → StateT S Option Unit
  | [] => pure ()
  | item :: rest => do
    putItem put item
    putItems rest

end Put

def readStrings : ℕ → Load (List FieldType.string.Val)
  | 0 => return []
  | num + 1 => do
    let s ← read .string ⟨[], by decide⟩
    let rest ← readStrings num
    return s :: rest

def readItem (old : (t : FieldType) → t.Val) : ItemType → Load Item
  | .field t => do
    let v ← read t (old t)
    return .field t v
  | .strList => do
    let num ← read .unsignedShort (old .unsignedShort)
    let strs ← readStrings (ushortVal num)
    return .strList strs

def readItems (old : (t : FieldType) → t.Val) : List ItemType → Load (List Item)
  | [] => return []
  | t :: rest => do
    let item ← readItem old t
    let items ← readItems old rest
    return item :: items

/-! ### What they are written as -/

def encodeStrings (strs : List FieldType.string.Val) : Bytes := strs.flatMap FieldType.string.encode

def Item.encode : Item → Bytes
  | .field t v => t.encode v
  | .strList strs =>
    FieldType.unsignedShort.encode (ushortOf strs.length) ++ encodeStrings strs

def encodeItems (items : List Item) : Bytes := items.flatMap Item.encode

def Item.Small : Item → Prop
  | .field _ _ => True
  | .strList strs => strs.length < 65536

instance Item.decidableSmall : (item : Item) → Decidable item.Small
  | .field _ _ => isTrue trivial
  | .strList strs => inferInstanceAs (Decidable (strs.length < 65536))

theorem ushortVal_ushortOf {n : ℕ} (h : n < 65536) : ushortVal (ushortOf n) = n := by
  simp only [ushortVal, ushortOf, foldr_cons, foldr_nil, UInt8.toNat_ofNat']
  omega

def DBOutStream.Fits (out : DBOutStream) : Prop :=
  0 < out.capacity ∧ out.capacity < 2 ^ 31 ∧ out.data.length ≤ out.capacity

theorem exists_grow {fuel capacity need : ℕ} (hfuel : 2 ^ 31 ≤ capacity * 2 ^ fuel) (hcap : capacity < 2 ^ 31)
    (hneed : need ≤ 2 ^ 30) :
    ∃ capacity', grow fuel capacity need = some capacity' ∧ need ≤ capacity' ∧ capacity ≤ capacity' ∧
      capacity' < 2 ^ 31 := by
  induction fuel generalizing capacity with
  | zero => exact absurd hfuel (by simpa using hcap)
  | succ fuel ih =>
    rw [grow]
    by_cases hfit : need ≤ capacity
    · exact ⟨capacity, if_pos hfit, hfit, le_rfl, hcap⟩
    · obtain ⟨capacity', heq, hneed', hle, hlt⟩ := @ih (capacity * 2)
        (by rw [Nat.mul_assoc, ← Nat.pow_succ']; exact hfuel) (by omega)
      exact ⟨capacity', by rw [if_neg hfit, if_neg (by omega), heq], hneed', by omega, hlt⟩

theorem DBOutStream.Fits.save (out : DBOutStream) (p : Bytes) (h : out.Fits)
    (hlen : out.data.length + p.length ≤ 2 ^ 30) :
    ∃ out' : DBOutStream, out.save p p.length = some out' ∧ out'.data = out.data ++ p ∧ out'.Fits := by
  obtain ⟨hpos, hcap, -⟩ := h
  obtain ⟨capacity', hgrow, hneed, hle, hlt⟩ := @exists_grow 32 out.capacity _ (by omega) hcap hlen
  refine ⟨⟨out.data ++ p, capacity'⟩, ?_, rfl, hpos.trans_le hle, hlt, ?_⟩
  · rw [DBOutStream.save, if_neg (by omega), Int.toNat_natCast, hgrow]
    simp
  · simpa using hneed

theorem appends_field (t : FieldType) (v : t.Val) : Appends DBOutStream.Fits (write t v) (t.encode v) :=
  appends_write DBOutStream.Fits.save t v

theorem appends_putStrings (strs : List FieldType.string.Val) :
    Appends DBOutStream.Fits (putStrings write strs) (encodeStrings strs) := by
  induction strs with
  | nil => exact .pure
  | cons str rest ih => exact (appends_field .string str).bind ih

theorem appends_putItem (item : Item) : Appends DBOutStream.Fits (putItem write item) item.encode := by
  cases item with
  | field t v => exact appends_field t v
  | strList strs => exact (appends_field .unsignedShort _).bind (appends_putStrings strs)

theorem appends_putItems (items : List Item) :
    Appends DBOutStream.Fits (putItems write items) (encodeItems items) := by
  induction items with
  | nil => exact .pure
  | cons item rest ih => exact (appends_putItem item).bind ih

/-! ### What they are read from -/

theorem reads_readStrings (strs : List FieldType.string.Val) :
    Reads (readStrings strs.length) (encodeStrings strs) strs := by
  induction strs with
  | nil => exact .pure []
  | cons str rest ih => exact (reads_read .string _ str).bind (ih.result (str :: ·))

theorem reads_readItem (old : (t : FieldType) → t.Val) (item : Item) (hsmall : item.Small) :
    Reads (readItem old item.type) item.encode item := by
  cases item with
  | field t v => exact (reads_read t _ v).result (Item.field t)
  | strList strs =>
    refine (reads_read .unsignedShort _ (ushortOf strs.length)).bind ?_
    rw [ushortVal_ushortOf hsmall]
    exact (reads_readStrings strs).result Item.strList

theorem reads_readItems (old : (t : FieldType) → t.Val) (items : List Item)
    (hsmall : ∀ item ∈ items, item.Small) :
    Reads (readItems old (items.map Item.type)) (encodeItems items) items := by
  induction items with
  | nil => exact .pure []
  | cons item rest ih =>
    have hfirst := reads_readItem old item (hsmall item (mem_cons_self ..))
    have hrest := ih fun item' h => hsmall item' (mem_cons_of_mem _ h)
    exact hfirst.bind (hrest.result (item :: ·))

/-! ### The round trip -/

def Refines (m : StateT OutBuffer Option Unit) (m' : Save Unit) : Prop :=
  ∀ b : OutBuffer, b.cursor ≤ b.data.length →
    (m b).map (fun r => r.2.toStream) = (m' b.toStream).map Prod.snd ∧
      ∀ r, m b = some r → r.2.cursor ≤ r.2.data.length

theorem Refines.pure : Refines (pure ()) (pure ()) := fun b hb =>
  ⟨rfl, fun r hr => by
    cases hr
    exact hb⟩

theorem Refines.bind {m n : StateT OutBuffer Option Unit} {m' n' : Save Unit} (h : Refines m m')
    (h' : Refines n n') : Refines (m >>= fun _ => n) (m' >>= fun _ => n') := by
  intro b hb
  obtain ⟨hmap, hcursor⟩ := h b hb
  show (((m b).bind fun r => n r.2).map _ = ((m' b.toStream).bind fun r => n' r.2).map _) ∧
    ∀ r, ((m b).bind fun r => n r.2) = some r → _
  cases hm : m b with
  | none =>
    rw [hm, map_none] at hmap
    rw [map_eq_none_iff.1 hmap.symm]
    exact ⟨rfl, fun r hr => by cases hr⟩
  | some r =>
    rw [hm, map_some] at hmap
    obtain ⟨r', hr', heq⟩ := map_eq_some_iff.1 hmap.symm
    rw [hr', bind_some, bind_some, heq]
    exact h' r.2 (hcursor r hm)

theorem refines_put (t : FieldType) (v : t.Val) : Refines (OutBuffer.put t v) (write t v) := by
  intro b hb
  have hsave : ∀ (p : Bytes) (size : ℤ), size.toNat ≤ p.length →
      ((b.save p size).map fun b => ((), b)).map (fun r => r.2.toStream) =
        ((b.toStream.save p size).map fun out => ((), out)).map Prod.snd ∧
      ∀ r, ((b.save p size).map fun b => ((), b)) = some r → r.2.cursor ≤ r.2.data.length := by
    intro p size hsize
    obtain ⟨hmap, hcursor⟩ := OutBuffer.save_refines hb hsize
    refine ⟨?_, fun r hr => ?_⟩
    · rw [Option.map_map, Option.map_map, ← hmap, Option.map_map]
      rfl
    · obtain ⟨b', hb', rfl⟩ := map_eq_some_iff.1 hr
      exact hcursor b' hb'
  rw [OutBuffer.put, write]
  cases ht : t.size with
  | some w => exact hsave v.bytes w (by rw [Int.toNat_natCast, v.length_eq ht])
  | none =>
    refine hsave (v.bytes ++ [0]) _ ?_
    -- the size is that of the string, or cut to less, or negative
    have hle : toInt32 (v.bytes.length + 1) ≤ v.bytes.length + 1 := by
      rw [toInt32, Int.bmod_def]
      split <;> omega
    rw [length_append, length_singleton]
    omega

theorem refines_putStrings (strs : List FieldType.string.Val) :
    Refines (putStrings OutBuffer.put strs) (putStrings write strs) := by
  induction strs with
  | nil => exact .pure
  | cons str rest ih => exact (refines_put .string str).bind ih

theorem refines_putItem (item : Item) : Refines (putItem OutBuffer.put item) (putItem write item) := by
  cases item with
  | field t v => exact refines_put t v
  | strList strs => exact (refines_put .unsignedShort _).bind (refines_putStrings strs)

theorem refines_putItems (items : List Item) :
    Refines (putItems OutBuffer.put items) (putItems write items) := by
  induction items with
  | nil => exact .pure
  | cons item rest ih => exact (refines_putItem item).bind ih

theorem readItems_putItems (items : List Item) (hsmall : ∀ item ∈ items, item.Small)
    (hlen : (encodeItems items).length < 2 ^ 30) (capacity : ℕ) (hpos : 1 ≤ capacity) (hcap : capacity < 2 ^ 31)
    (old : (t : FieldType) → t.Val) :
    ∃ (b : OutBuffer) (hb : b.cursor ≤ b.data.length),
      putItems OutBuffer.put items (OutBuffer.new capacity) = some ((), b) ∧
      readItems old (items.map Item.type) ⟨b.data, b.cursor, 0, false, hb⟩ =
        some (items, ⟨b.data, b.cursor, b.cursor, false, hb⟩) := by
  have hfits : (OutBuffer.new capacity).toStream.Fits := by
    simp only [DBOutStream.Fits, OutBuffer.toStream, OutBuffer.new, length_replicate, take_zero,
      length_nil]
    omega
  obtain ⟨out, hout, hdata, -⟩ := appends_putItems items _ hfits
    (by simpa [OutBuffer.toStream, OutBuffer.new] using hlen.le)
  obtain ⟨hmap, hcursor⟩ := refines_putItems items (OutBuffer.new capacity) (Nat.zero_le _)
  rw [hout, map_some] at hmap
  obtain ⟨⟨⟨⟩, b⟩, hput, hstream⟩ := map_eq_some_iff.1 hmap
  have hb : b.cursor ≤ b.data.length := hcursor _ hput
  -- what is in the block up to the cursor is what the stream holds
  have hwritten : b.data.take b.cursor = encodeItems items := by
    have hbytes : b.toStream.data = out.data := congrArg DBOutStream.data hstream
    rw [hdata] at hbytes
    simpa [OutBuffer.toStream, OutBuffer.new] using hbytes
  have hsize : b.cursor = (encodeItems items).length := by
    rw [← hwritten, length_take]
    omega
  refine ⟨b, hb, hput, ?_⟩
  have hread := reads_readItems old items hsmall ⟨b.data, b.cursor, 0, false, hb⟩
    (hwritten ▸ take_prefix _ _) (by show 0 + _ ≤ b.cursor; omega)
  rw [hread, Nat.zero_add, ← hsize]

theorem readItems_putItems_one :
    let items : List Item := [.field .int16 ⟨[1, 2], rfl⟩, .strList [⟨ascii "ab", by decide⟩, ⟨[], by decide⟩]]
    ∃ (b : OutBuffer) (hb : b.cursor ≤ b.data.length),
      putItems OutBuffer.put items (OutBuffer.new 1) = some ((), b) ∧
      readItems (fun _ => default) (items.map Item.type) ⟨b.data, b.cursor, 0, false, hb⟩ =
        some (items, ⟨b.data, b.cursor, b.cursor, false, hb⟩) := by
  intro items
  exact readItems_putItems items (by decide) (by decide) 1 (by decide) (by decide) fun _ => default

end GBDownLinker
