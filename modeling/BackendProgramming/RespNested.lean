/-
**Replies with arrays of arrays.**

`Quiet` are the bytes in which a parser that has lost its place and goes on line by line does not meet a number.
-/

import BackendProgramming.Resp

set_option autoImplicit false

namespace Resp

open CText List

/-! ### The grammar -/

inductive Arr where
  | nil
  | elems (num : Bytes) (es : List Element)
  deriving DecidableEq, Repr

def Arr.elements : Arr → List Element
  | .nil => []
  | .elems _ es => es

def Arr.countText : Arr → Bytes
  | .nil => [45, 49]
  | .elems num _ => num

def Arr.encode (a : Arr) : Bytes := 42 :: (a.countText ++ (crlf ++ encodes a.elements))

def encodeArrs (l : List Arr) : Bytes := l.flatMap Arr.encode

@[simp] theorem encodeArrs_nil : encodeArrs [] = [] := rfl

@[simp] theorem encodeArrs_cons (a : Arr) (l : List Arr) :
    encodeArrs (a :: l) = a.encode ++ encodeArrs l := rfl

inductive NestedReply where
  | int (text : Bytes)
  | status (text : Bytes)
  | error (text : Bytes)
  | bulk (e : Element)
  | array (a : Arr)
  | nested (num : Bytes) (arrs : List Arr)
  deriving DecidableEq, Repr

def NestedReply.encode : NestedReply → Bytes
  | .int text => 58 :: (text ++ crlf)
  | .status text => 43 :: (text ++ crlf)
  | .error text => 45 :: (text ++ crlf)
  | .bulk e => e.encode
  | .array a => a.encode
  | .nested num arrs => 42 :: (num ++ (crlf ++ encodeArrs arrs))

def NestedReply.lists : NestedReply → List (List Element)
  | .bulk e => [[e]]
  | .array a => [a.elements]
  | .nested _ arrs => arrs.map Arr.elements
  | _ => []

/-! ### Well-formedness -/

def IsNumText (t : Bytes) : Prop :=
  ∃ sign digits, (sign = [] ∨ sign = [43] ∨ sign = [45]) ∧ digits ≠ [] ∧
    (∀ b ∈ digits, isDigit b = true) ∧ t = sign ++ digits

theorem IsNumText.isOpen {t : Bytes} (h : IsNumText t) : IsOpen t := by
  obtain ⟨sign, digits, hs, -, hd, rfl⟩ := h
  intro b hb
  rcases mem_append.1 hb with hb | hb
  · rcases hs with rfl | rfl | rfl <;> simp_all
  · exact IsOpen.of_digits hd b hb

def Element.IsBulkString (e : Element) : Prop := e.WellFormed ∧ e.isBulk = true

def Arr.WellFormed : Arr → Prop
  | .nil => True
  | .elems num es => IsLenText num es.length ∧ ∀ e ∈ es, e.IsBulkString

def NestedReply.WellFormed : NestedReply → Prop
  | .int text => IsNumText text
  | .status text => ∀ b ∈ text, b ≠ 10 ∧ b ≠ 13
  | .error text => ∀ b ∈ text, b ≠ 10 ∧ b ≠ 13
  | .bulk e => e.IsBulkString
  | .array a => a.WellFormed
  | .nested num arrs => IsLenText num arrs.length ∧ arrs ≠ [] ∧ ∀ a ∈ arrs, a.WellFormed

theorem Arr.WellFormed.countText_open {a : Arr} (h : a.WellFormed) : IsOpen a.countText := by
  cases a with
  | nil =>
    intro b hb
    rcases List.mem_pair.1 (show b ∈ [45, 49] from hb) with rfl | rfl <;> decide
  | elems num es => exact h.1.isOpen

/-! ### Bytes without a number -/

inductive Quiet : Bytes → Prop
  | nil : Quiet []
  | signed (b : UInt8) (t rest : Bytes) (hb : b = 36 ∨ b = 42) (ht : IsOpen t) (h : Quiet rest) :
      Quiet (b :: (t ++ (crlf ++ rest)))
  | free (t rest : Bytes) (ht : ∀ x ∈ t, isDigit x = false) (h : Quiet rest) :
      Quiet (t ++ (crlf ++ rest))

theorem line_unique {line line' rest rest' : Bytes} (h : IsOneLine line) (h' : IsOneLine line')
    (heq : line ++ (crlf ++ rest) = line' ++ (crlf ++ rest')) : line = line' ∧ rest = rest' := by
  have hlen : line.length = line'.length := by
    have hfound := strstrCrlf_oneLine h rest
    rw [heq, strstrCrlf_oneLine h'] at hfound
    exact (Search.found.inj hfound).symm
  obtain ⟨hline, htail⟩ := append_inj heq hlen
  exact ⟨hline, append_cancel_left htail⟩

theorem atoi_eq_zero {t : Bytes} (h : ∀ x ∈ t, isDigit x = false) : atoi t = 0 := by
  have hrun : ∀ s : Bytes, s ⊆ t → natVal 0 (s.takeWhile isDigit) = 0 := by
    intro s hs
    cases s with
    | nil => rfl
    | cons b s =>
      rw [takeWhile_cons_of_neg (by simp [h b (hs mem_cons_self)])]
      rfl
  have hdrop : t.dropWhile isSpace ⊆ t := (dropWhile_suffix _).subset
  have hzero : strtol t = 0 := by
    unfold strtol
    split
    · next s heq =>
      rw [hrun s fun x hx => hdrop (heq ▸ mem_cons_of_mem _ hx)]
      rfl
    · next s heq =>
      rw [hrun s fun x hx => hdrop (heq ▸ mem_cons_of_mem _ hx)]
      rfl
    · rw [hrun _ hdrop]
      rfl
  rw [atoi, hzero]
  rfl

theorem Quiet.line {line rest : Bytes} (h : Quiet (line ++ (crlf ++ rest))) (hline : IsOneLine line) :
    atoi line = 0 ∧ Quiet rest := by
  generalize hall : line ++ (crlf ++ rest) = all at h
  cases h with
  | nil => simp [crlf] at hall
  | signed b t rest' hb ht hrest =>
    have hopen : IsOpen (b :: t) := by
      intro x hx
      rcases mem_cons.1 hx with rfl | hx
      · rcases hb with rfl | rfl <;> decide
      · exact ht x hx
    obtain ⟨rfl, rfl⟩ := line_unique hline (.of_isOpen hopen) (hall.trans (cons_append ..).symm)
    refine ⟨?_, hrest⟩
    rcases hb with rfl | rfl <;> exact atoi_of_head (by decide) (by decide) (by decide) (by decide)
  | free t rest' ht hrest =>
    rcases append_eq_append_iff.1 hall with ⟨x, hx, hx'⟩ | ⟨y, hy, hy'⟩
    · -- the line is a part of the bytes without digits, and a line end of theirs follows, or the last one
      refine ⟨atoi_eq_zero fun z hz => ht z (hx ▸ mem_append_left _ hz), ?_⟩
      rcases x with _ | ⟨c, _ | ⟨c', x⟩⟩
      · obtain rfl : rest = rest' := append_cancel_left (show crlf ++ rest = crlf ++ rest' from hx')
        exact hrest
      · simp [crlf] at hx'
      · obtain rfl : rest = x ++ (crlf ++ rest') := (cons.inj (cons.inj hx').2).2
        refine .free x rest' (fun z hz => ht z ?_) hrest
        rw [hx]
        simp [hz]
    · rcases y with _ | ⟨c, _ | ⟨c', y⟩⟩
      · obtain rfl : line = t := by simpa using hy
        obtain rfl : rest' = rest := append_cancel_left (show crlf ++ rest' = crlf ++ rest from hy')
        exact ⟨atoi_eq_zero ht, hrest⟩
      · simp [crlf] at hy'
      · have hc : 13 = c ∧ 10 = c' :=
          ⟨(cons.inj hy').1, (cons.inj (cons.inj hy').2).1⟩
        refine absurd ⟨t, y, ?_⟩ hline.2
        rw [hy, ← hc.1, ← hc.2]
        simp [crlf]

def Element.DigitFree : Element → Prop
  | .bulk _ body => ∀ x ∈ body, isDigit x = false
  | _ => True

theorem quiet_encodes {es : List Element} {rest : Bytes} (hes : ∀ e ∈ es, e.IsBulkString)
    (hfree : ∀ e ∈ es, e.DigitFree) (h : Quiet rest) : Quiet (encodes es ++ rest) := by
  induction es with
  | nil => exact h
  | cons e es ih =>
    obtain ⟨⟨hwf, hbulk⟩, hes⟩ := forall_mem_cons.1 hes
    obtain ⟨hdigits, hfree⟩ := forall_mem_cons.1 hfree
    have ih := ih hes hfree
    cases e with
    | line σ text => simp [Element.isBulk] at hbulk
    | bulk len body =>
      have := Quiet.signed 36 len _ (Or.inl rfl) hwf.isOpen (.free body _ hdigits ih)
      simpa [Element.encode] using this
    | nil =>
      have := Quiet.signed 36 [45, 49] _ (Or.inl rfl) (Arr.WellFormed.countText_open (a := .nil) trivial) ih
      simpa [Element.encode] using this

theorem quiet_encodeArrs {l : List Arr} (hl : ∀ a ∈ l, a.WellFormed)
    (hfree : ∀ a ∈ l, ∀ e ∈ a.elements, e.DigitFree) : Quiet (encodeArrs l) := by
  induction l with
  | nil => exact .nil
  | cons a l ih =>
    obtain ⟨ha, hl⟩ := forall_mem_cons.1 hl
    obtain ⟨hdigits, hfree⟩ := forall_mem_cons.1 hfree
    have hes : ∀ e ∈ a.elements, e.IsBulkString := by
      cases a with
      | nil => simp [Arr.elements]
      | elems num es => exact ha.2
    have := Quiet.signed 42 a.countText _ (Or.inr rfl) ha.countText_open
      (quiet_encodes hes hdigits (ih hl hfree))
    simpa [Arr.encode] using this

end Resp
