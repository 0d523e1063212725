/-
**The replies of the Redis protocol, as texts on the wire.**

The text of every number is kept as it stands on the wire, so that a leading zero or a plus sign is not lost.
`Reply.encode` is the wire format, and the functions on positions are what cut points are phrased with.
-/

import BackendProgramming.CText

set_option autoImplicit false

namespace Resp

open CText List

inductive Sign where
  | plus
  | minus
  | colon
  deriving DecidableEq, Repr

def Sign.byte : Sign → UInt8
  | .plus => 43
  | .minus => 45
  | .colon => 58

inductive Element where
  | line (σ : Sign) (text : Bytes)
  | bulk (len body : Bytes)
  | nil
  deriving DecidableEq, Repr

def Element.lenText : Element → Bytes
  | .line _ _ => []
  | .bulk len _ => len
  | .nil => [45, 49]

def Element.payload : Element → Bytes
  | .line _ _ => []
  | .bulk _ body => body ++ crlf
  | .nil => []

def Element.encode : Element → Bytes
  | .line σ text => σ.byte :: (text ++ crlf)
  | .bulk len body => 36 :: (len ++ (crlf ++ (body ++ crlf)))
  | .nil => 36 :: ([45, 49] ++ crlf)

def encodes (es : List Element) : Bytes := es.flatMap Element.encode

@[simp] theorem encodes_nil : encodes [] = [] := rfl

@[simp] theorem encodes_cons (e : Element) (es : List Element) :
    encodes (e :: es) = e.encode ++ encodes es := rfl

@[simp] theorem encodes_append (es fs : List Element) :
    encodes (es ++ fs) = encodes es ++ encodes fs := by simp [encodes]

inductive Reply where
  | status (text : Bytes)
  | error (text : Bytes)
  | int (text : Bytes)
  | single (e : Element)
  | array (num : Bytes) (elems : List Element)
  deriving DecidableEq, Repr

def Reply.encode : Reply → Bytes
  | .status text => 43 :: (text ++ crlf)
  | .error text => 45 :: (text ++ crlf)
  | .int text => 58 :: (text ++ crlf)
  | .single e => e.encode
  | .array num elems => 42 :: (num ++ (crlf ++ encodes elems))

def Reply.elements : Reply → List Element
  | .status _ => []
  | .error _ => []
  | .int _ => []
  | .single e => [e]
  | .array _ elems => elems

def Reply.text : Reply → Bytes
  | .status text => text
  | .error text => text
  | _ => []

def Reply.headLen : Reply → ℕ
  | .array num _ => num.length + 3
  | _ => 0

def IsLine (t : Bytes) : Prop := t.length < 4096 ∧ ∀ b ∈ t, b ≠ 10 ∧ b ≠ 13

structure IsLenText (t : Bytes) (n : ℕ) : Prop where
  short : t.length < 4096
  ne_nil : t ≠ []
  digits : ∀ b ∈ t, isDigit b = true
  val : natVal 0 t = n

theorem IsLenText.isOpen {t : Bytes} {n : ℕ} (h : IsLenText t n) : IsOpen t :=
  IsOpen.of_digits h.digits

theorem isLenText_decimal {n : ℕ} (h : n < 2 ^ 31) : IsLenText (decimal n) n where
  short := by
    have := length_decimal_le (k := 10) (by decide) (show n < 10 ^ 10 by omega)
    omega
  ne_nil := decimal_ne_nil n
  digits := isDigit_of_mem_decimal n
  val := natVal_decimal n

theorem isOpen_of_isIntText {t : Bytes} (h : IsIntText t) : IsOpen t := by
  obtain ⟨sign, digits, hs, -, hd, rfl, -⟩ := h
  intro b hb
  rcases mem_append.1 hb with hb | hb
  · rcases hs with rfl | rfl | rfl <;> simp_all
  · exact IsOpen.of_digits hd b hb

def Element.WellFormed : Element → Prop
  | .line _ text => IsLine text ∧ 0 ∉ text
  | .bulk len body => IsLenText len body.length
  | .nil => True

def Element.isBulk : Element → Bool
  | .line _ _ => false
  | .bulk _ _ => true
  | .nil => true

def Reply.WellFormed : Reply → Prop
  | .status text => IsLine text
  | .error text => IsLine text
  | .int text => IsLine text ∧ IsIntText text
  | .single e => e.WellFormed ∧ e.isBulk = true
  | .array num elems => IsLenText num elems.length ∧ ∀ e ∈ elems, e.WellFormed

def Reply.IntLines (r : Reply) : Prop :=
  ∀ σ text, .line σ text ∈ r.elements → σ = .colon ∧ IsIntText text

def Reply.ColonLines (r : Reply) : Prop := ∀ σ text, .line σ text ∈ r.elements → σ = .colon

theorem Reply.IntLines.colonLines {r : Reply} (h : r.IntLines) : r.ColonLines :=
  fun σ text hmem => (h σ text hmem).1

theorem Element.encode_of_isBulk {e : Element} (h : e.isBulk = true) :
    e.encode = 36 :: (e.lenText ++ (crlf ++ e.payload)) := by
  cases e with
  | line σ text => simp [isBulk] at h
  | bulk len body => rfl
  | nil => rfl

theorem Element.length_encode_line (σ : Sign) (text : Bytes) :
    (Element.line σ text).encode.length = text.length + 3 := by
  simp [encode]

theorem Element.length_encode_bulk (len b : Bytes) :
    (Element.bulk len b).encode.length = len.length + b.length + 5 := by
  simp only [encode, length_cons, length_append, length_crlf]
  omega

theorem Element.three_le_length_encode (e : Element) : 3 ≤ e.encode.length := by
  cases e <;> simp [encode]; omega

theorem Reply.length_encode {r : Reply} {pre es : List Element} {e : Element}
    (h : r.elements = pre ++ e :: es) : r.encode.length =
      r.headLen + (encodes pre).length + e.encode.length + (encodes es).length := by
  cases r with
  | status text => simp [elements] at h
  | error text => simp [elements] at h
  | int text => simp [elements] at h
  | single e' =>
    have hlen := congrArg (fun l => (encodes l).length) h
    simp only [elements, encodes_append, encodes_cons, encodes_nil, append_nil,
      length_append] at hlen
    simp only [encode, headLen]
    omega
  | array num elems =>
    have hlen := congrArg (fun l => (encodes l).length) h
    simp only [elements, encodes_append, encodes_cons, length_append] at hlen
    simp only [encode, headLen, length_cons, length_append, length_crlf]
    omega

theorem length_le_length_encodes (es : List Element) : es.length ≤ (encodes es).length := by
  induction es with
  | nil => rfl
  | cons e es ih =>
    have := e.three_le_length_encode
    simp only [encodes_cons, length_cons, length_append]
    omega

theorem Element.length_payload_le (e : Element) : e.payload.length + 3 ≤ e.encode.length := by
  cases e <;> simp [payload, encode]; omega

theorem Reply.WellFormed.element {r : Reply} (hr : r.WellFormed) {e : Element}
    (he : e ∈ r.elements) : e.WellFormed := by
  cases r with
  | status text => simp [elements] at he
  | error text => simp [elements] at he
  | int text => simp [elements] at he
  | single e' => simpa [elements] using (mem_singleton.1 he) ▸ hr.1
  | array num elems => exact hr.2 e he

end Resp
