/-
**The places of a reply with arrays of arrays.**

A `Spot` is a place in a reply where the parser can stand between two iterations, `Spot.At` says which parser
states belong to it, and `Spot.Fine` what still has to hold for the reply to be received from there on.  After a
step between inner arrays that fails, what is left of the reply is passed over line by line, and the result is
right exactly if the arrays that are left are empty, and all of them have come with the read at hand.
-/

import BackendProgramming.RedisEnhance
import BackendProgramming.RespNested

set_option autoImplicit false

namespace GBDownLinker

open CText Resp List Option

/-! ### The value of a reply -/

def infos (es : List Element) : List ReplyArrayInfo := es.map elementInfo

@[simp] theorem infos_nil : infos [] = [] := rfl

@[simp] theorem infos_append (es fs : List Element) : infos (es ++ fs) = infos es ++ infos fs :=
  map_append

@[simp] theorem infos_eq_nil {es : List Element} : infos es = [] ↔ es = [] := map_eq_nil_iff

def nestedType : NestedReply → RedisReplyType
  | .int _ => .integer
  | .status _ => .status
  | .error _ => .error
  | .bulk _ => .string
  | .array _ => .array
  | .nested _ _ => .multiArray

def NestedValue (info : CommonReplyInfo) : NestedReply → Prop
  | .int text => info.intValue = intVal text
  | .status text => info.resultString = text
  | .error text => info.resultString = text
  | r => info.arrays = r.lists.map infos

def Holds (r : NestedReply) (info : CommonReplyInfo) : Prop :=
  info.replyType = nestedType r ∧ NestedValue info r

instance (r : NestedReply) (info : CommonReplyInfo) : Decidable (Holds r info) := by
  unfold Holds NestedValue
  split <;> infer_instance

/-! ### The condition -/

def cutsLeft : List Bytes → List ℕ
  | [] => []
  | [_] => []
  | _ :: d :: ds => (d :: ds).flatten.length :: cutsLeft (d :: ds)

def Spare (cuts : List ℕ) (l : List Arr) : Prop :=
  (∀ a ∈ l, a.elements = []) ∧ ∀ m ∈ cuts, (encodeArrs l).length < m

instance (cuts : List ℕ) (l : List Arr) : Decidable (Spare cuts l) := inferInstanceAs (Decidable (_ ∧ _))

def Steps (cuts : List ℕ) (es : List Element) (next : Prop) : List Arr → Prop
  | [] => True
  | a :: l =>
    if es.getLast? = some .nil ∨ (encodeArrs (a :: l)).length ∈ cuts then
      a.elements = [] ∧ Spare cuts l
    else next

def Smooth (cuts : List ℕ) : List Arr → Prop
  | [] => True
  | a :: l => if a.elements = [] then Spare cuts l else Steps cuts a.elements (Smooth cuts l) l

def Shape (cuts : List ℕ) : NestedReply → Prop
  | .int text => intVal text = 0
  | .status _ => False
  | .error _ => True
  | .bulk _ => True
  | .array a => a.elements ≠ []
  | .nested _ arrs => Smooth cuts arrs

def elementInRange (e : Element) : Prop := e.payload.length ≤ 2 ^ 29 + 2

def arrInRange (a : Arr) : Prop :=
  a.countText.length < 4095 ∧ a.elements.length < 2 ^ 31 ∧ ∀ e ∈ a.elements, elementInRange e

def InRange : NestedReply → Prop
  | .int text => text.length < 4095
  | .status text => text.length < 4095 ∧ 0 ∉ text
  | .error text => text.length < 4095 ∧ 0 ∉ text
  | .bulk e => elementInRange e
  | .array a => arrInRange a
  | .nested _ arrs => arrs.length < 2 ^ 31 ∧ ∀ a ∈ arrs, arrInRange a

def DigitFree : NestedReply → Prop
  | .nested _ arrs => ∀ a ∈ arrs, ∀ e ∈ a.elements, e.DigitFree
  | _ => True

/-! ### Places in a reply -/

inductive Spot where
  | start
  | line (text : Bytes)
  | header
  | count (before : List (List Element)) (a : Arr) (after : List Arr)
  | elem (before : List (List Element)) (pre : List Element) (e : Element) (es : List Element)
      (after : List Arr)
  | lenLine (before : List (List Element)) (pre : List Element) (e : Element) (es : List Element)
      (after : List Arr)
  | body (before : List (List Element)) (pre : List Element) (len b : Bytes) (es : List Element)
      (after : List Arr)
  | lost (before : List (List Element)) (a : Arr) (after : List Arr)

def Spot.bytes (r : NestedReply) : Spot → Bytes
  | .start => r.encode
  | .line text => text ++ (crlf ++ [])
  | .header => r.encode.tail
  | .count _ a after => a.countText ++ (crlf ++ (encodes a.elements ++ encodeArrs after))
  | .elem _ _ e es after => e.encode ++ (encodes es ++ encodeArrs after)
  | .lenLine _ _ e es after => e.lenText ++ (crlf ++ (e.payload ++ (encodes es ++ encodeArrs after)))
  | .body _ _ _ b es after => b ++ (crlf ++ (encodes es ++ encodeArrs after))
  | .lost _ a after => (42 :: a.countText) ++ (crlf ++ (encodes a.elements ++ encodeArrs after))

def headerText : NestedReply → Bytes
  | .array a => a.countText
  | .nested num _ => num
  | _ => []

def nestedArrays : NestedReply → List Arr
  | .nested _ arrs => arrs
  | _ => []

def behindHeader : NestedReply → Bytes
  | .array a => encodes a.elements
  | .nested _ arrs => encodeArrs arrs
  | _ => []

def Spot.need (r : NestedReply) : Spot → ℕ
  | .start => 1
  | .line text => text.length + 2
  | .header => (headerText r).length + 3
  | .count _ a _ => a.countText.length + 2
  | .elem _ _ _ _ _ => 1
  | .lenLine _ _ e _ _ => e.lenText.length + 2
  | .body _ _ _ b _ _ => b.length + 2
  | .lost _ a _ => a.countText.length + 3

def Spot.Fine (r : NestedReply) (cuts : List ℕ) : Spot → Prop
  | .start => Shape cuts r
  | .line _ => Shape cuts r
  | .header => Shape cuts r
  | .count _ a after => Smooth cuts (a :: after)
  | .elem _ _ e es after => Steps cuts (e :: es) (Smooth cuts after) after
  | .lenLine _ _ e es after => Steps cuts (e :: es) (Smooth cuts after) after
  | .body _ _ len b es after => Steps cuts (.bulk len b :: es) (Smooth cuts after) after
  | .lost _ a after => a.elements = [] ∧ Spare cuts after

structure ElementOk (e : Element) : Prop where
  bulk : e.IsBulkString
  range : elementInRange e

structure ArrOk (a : Arr) : Prop where
  wellFormed : a.WellFormed
  range : arrInRange a

theorem ArrOk.element {a : Arr} (h : ArrOk a) {e : Element} (he : e ∈ a.elements) : ElementOk e := by
  cases a with
  | nil => simp [Arr.elements] at he
  | elems num es => exact ⟨h.wellFormed.2 e he, h.range.2.2 e he⟩

structure Filling (r : NestedReply) (s : Enhancer) (before : List (List Element)) (cur : List Element)
    (after : List Arr) : Prop where
  valid : s.conn.valid = false
  unparse : s.conn.unparseBuf = []
  replyType : s.info.replyType = nestedType r
  arraysSize : s.info.arraysSize = before.length + 1 + after.length
  curArrayPos : s.info.curArrayPos = before.length
  arrays : s.info.arrays = before.map infos ++ infos cur :: after.map fun _ => []
  afterOk : ∀ a ∈ after, ArrOk a

structure Enhancer.Reading (r : NestedReply) (s : Enhancer) (st : RedisParseState)
    (before : List (List Element)) (pre todo : List Element) (after : List Arr) : Prop
    extends Filling r s before pre after where
  parseState : s.conn.parseState = st
  value : ∀ info, NestedValue info r ↔
    info.arrays = before.map infos ++ infos (pre ++ todo) :: after.map fun a => infos a.elements
  todoOk : ∀ e ∈ todo, ElementOk e
  arrayNum : s.conn.arrayNum = (pre ++ todo).length
  doneNum : s.conn.doneNum = pre.length

structure Enhancer.Counting (r : NestedReply) (s : Enhancer) (before : List (List Element)) (a : Arr)
    (after : List Arr) : Prop extends Filling r s before [] after where
  parseState : s.conn.parseState = .arrayLength
  value : ∀ info, NestedValue info r ↔
    info.arrays = before.map infos ++ infos a.elements :: after.map fun a => infos a.elements
  arr : ArrOk a

inductive InLine : NestedReply → Bytes → Enhancer → Prop
  | int (text : Bytes) : InLine (.int text) (58 :: text)
      ⟨{ parseState := .integer }, { replyType := .integer }, false⟩
  | status (text : Bytes) : InLine (.status text) (43 :: text)
      ⟨{ parseState := .resultOk }, { replyType := .status }, false⟩
  | error (text : Bytes) : InLine (.error text) text
      ⟨{ parseState := .resultErr }, { replyType := .error }, false⟩

def Spot.At (r : NestedReply) (s : Enhancer) : Spot → Prop
  | .start => s = ⟨{ parseState := .type }, {}, false⟩
  | .line text => InLine r text s
  | .header => s = ⟨{ parseState := .checkArraysSize }, {}, false⟩ ∧
      r.encode = 42 :: (headerText r ++ (crlf ++ behindHeader r))
  | .count before a after => s.Counting r before a after
  | .elem before pre e es after => s.Reading r .length before pre (e :: es) after
  | .lenLine before pre e es after => s.Reading r .length before pre (e :: es) after ∧ s.haveArray = false
  | .body before pre len b es after =>
    s.Reading r .string before pre (.bulk len b :: es) after ∧ s.conn.arrayLen = b.length
  | .lost before a after => s.Counting r before a after

def Spot.extra : Spot → ℕ
  | .start => 1
  | _ => 0

def Spot.arrays (r : NestedReply) : Spot → List Arr
  | .start => nestedArrays r
  | .header => nestedArrays r
  | .count _ a after => a :: after
  | .elem _ _ _ _ after => after
  | .lenLine _ _ _ _ after => after
  | .body _ _ _ _ _ after => after
  | .lost _ a after => a :: after
  | .line _ => []

/-! ### A reply that is taken for complete -/

theorem line_of_found {rest pad : Bytes} {p : ℕ} (h : strstrCrlf (rest ++ 0 :: pad) = .found p) :
    ∃ line rest', rest = line ++ (crlf ++ rest') ∧ line.length = p ∧ IsOneLine line := by
  induction rest generalizing p with
  | nil => simp [strstrCrlf] at h
  | cons b rest ih =>
    have hone := isOneLine_of_found h
    rw [cons_append, strstrCrlf] at h
    split at h
    · cases h
    · split at h
      · next hcr =>
        obtain rfl := Search.found.inj h
        obtain ⟨rfl, hlf⟩ := hcr
        cases rest with
        | nil => simp at hlf
        | cons c rest =>
          obtain rfl : c = 10 := by simpa using hlf
          exact ⟨[], rest, rfl, rfl, by simp [IsOneLine, crlf]⟩
      · cases hrest : strstrCrlf (rest ++ 0 :: pad) with
        | overrun => rw [hrest] at h; cases h
        | absent => rw [hrest] at h; cases h
        | found q =>
          rw [hrest] at h
          obtain rfl := Search.found.inj h
          obtain ⟨line, rest', rfl, rfl, -⟩ := ih hrest
          refine ⟨b :: line, rest', rfl, rfl, ?_⟩
          simpa [take_append_of_le_length] using hone

structure Enhancer.Over (s : Enhancer) (type : RedisReplyType) (arrays : List (List ReplyArrayInfo)) :
    Prop where
  parseState : s.conn.parseState = .arrayLength
  valid : s.conn.valid = true
  replyType : s.info.replyType = type
  arrays : s.info.arrays = arrays

theorem enhanceIter_arrayLength {s : Enhancer} (h : s.conn.parseState = .arrayLength) (mem : Bytes)
    (n : ℕ) : enhanceIter s mem n = enhanceLine { s with conn := { s.conn with doneNum := 0 } } mem 0
      (Enhancer.readCount { s with conn := { s.conn with doneNum := 0 } }) := by
  rw [enhanceIter, h]

theorem Enhancer.readCount_ends (s : Enhancer) {line : Bytes} (h : atoi line = 0 ∨ atoi line = -1) (k : ℕ) :
    ∃ s', s.readCount line k = .next s' k ∧ s'.conn.parseState = s.conn.parseState ∧
      s'.conn.valid = true ∧ s'.info.replyType = s.info.replyType ∧ s'.info.arrays = s.info.arrays := by
  unfold Enhancer.readCount
  rcases h with h | h
  · rw [if_pos h]
    exact ⟨_, rfl, rfl, rfl, rfl, rfl⟩
  · rw [if_neg (by omega), if_pos h]
    exact ⟨_, rfl, rfl, rfl, rfl, rfl⟩

section Over

variable {s : Enhancer} {type : RedisReplyType} {arrays : List (List ReplyArrayInfo)}

theorem enhanceIter_noNumber (h : s.Over type arrays) {line : Bytes} (hone : IsOneLine line)
    (hzero : atoi line = 0) (rest pad : Bytes) (n : ℕ) :
    (readBuffSize ≤ line.length ∧ enhanceIter s (line ++ (crlf ++ rest) ++ 0 :: pad) n = .fault) ∨
    (line.length < readBuffSize ∧ ∃ s', s'.Over type arrays ∧
      enhanceIter s (line ++ (crlf ++ rest) ++ 0 :: pad) n = .next s' (line.length + 2)) := by
  rw [enhanceIter_arrayLength h.parseState, enhanceLine, append_assoc, append_assoc,
    strstrCrlf_oneLine hone]
  simp only [take_left, Nat.zero_add]
  by_cases hlong : readBuffSize ≤ line.length
  · exact Or.inl ⟨hlong, if_pos hlong⟩
  · obtain ⟨s', heq, hstate, hvalid, htype, harrays⟩ := Enhancer.readCount_ends
      { s with conn := { s.conn with doneNum := 0 } } (Or.inl hzero) (line.length + 2)
    refine Or.inr ⟨by omega, s', ?_, by rw [if_neg hlong, heq]⟩
    exact ⟨hstate.trans h.parseState, hvalid, htype.trans h.replyType, harrays.trans h.arrays⟩

theorem enhanceIter_quiet (h : s.Over type arrays) {rest future : Bytes} (hquiet : Quiet (rest ++ future))
    (pad : Bytes) (n : ℕ) :
    enhanceIter s (rest ++ 0 :: pad) n = .fault ∨
    (∃ s', s'.Over type arrays ∧ enhanceIter s (rest ++ 0 :: pad) n = .checkBuf s' 0) ∨
    ∃ s' line rest', s'.Over type arrays ∧ rest = line ++ (crlf ++ rest') ∧ Quiet (rest' ++ future) ∧
      enhanceIter s (rest ++ 0 :: pad) n = .next s' (line.length + 2) := by
  cases hsearch : strstrCrlf (rest ++ 0 :: pad) with
  | overrun =>
    rw [enhanceIter_arrayLength h.parseState, enhanceLine, hsearch]
    exact Or.inl rfl
  | absent =>
    rw [enhanceIter_arrayLength h.parseState, enhanceLine, hsearch]
    refine Or.inr (Or.inl ⟨{ s with conn := { s.conn with doneNum := 0 } }, ?_, rfl⟩)
    exact ⟨h.parseState, h.valid, h.replyType, h.arrays⟩
  | found p =>
    obtain ⟨line, rest', rfl, rfl, hone⟩ := line_of_found hsearch
    rw [append_assoc, append_assoc] at hquiet
    obtain ⟨hzero, hrest⟩ := hquiet.line hone
    rcases enhanceIter_noNumber h hone hzero rest' pad n with ⟨-, heq⟩ | ⟨-, s', hover, heq⟩
    · exact Or.inl heq
    · exact Or.inr (Or.inr ⟨s', line, rest', hover, rfl, hrest, heq⟩)

theorem Enhancer.saveTail_of_valid (h : s.conn.valid = true) (tail : Bytes) : s.saveTail tail = s := by
  simp [Enhancer.saveTail, h]

theorem enhanceLoop_quiet (pad : Bytes) (fuel : ℕ) {s' : Enhancer} {rest future : Bytes}
    (h : s.Over type arrays) (hquiet : Quiet (rest ++ future))
    (hs' : enhanceLoop fuel s (rest ++ 0 :: pad) rest.length = some s') : s'.Over type arrays := by
  induction fuel generalizing s rest with
  | zero =>
    cases rest with
    | nil => exact some.inj hs' ▸ h
    | cons b rest => cases hs'
  | succ fuel ih =>
    rcases eq_or_ne rest [] with rfl | hne
    · exact some.inj hs' ▸ h
    · rw [enhanceLoop_turn (by simpa using hne)] at hs'
      rcases enhanceIter_quiet h hquiet pad rest.length with
        heq | ⟨s₁, hover, heq⟩ | ⟨s₁, line, rest', hover, rfl, hrest, heq⟩
      · simp only [heq] at hs'
        cases hs'
      · simp only [heq] at hs'
        cases hs'
        rwa [Enhancer.saveTail_of_valid hover.valid]
      · simp only [heq] at hs'
        refine ih hover hrest ?_
        rw [← hs', append_assoc, append_assoc, drop_line]
        congr 1
        simp
        omega

theorem enhanceLoop_spare (pad : Bytes) {l : List Arr} (hl : ∀ a ∈ l, ArrOk a)
    (hempty : ∀ a ∈ l, a.elements = []) (fuel : ℕ) (h : s.Over type arrays)
    (hfuel : (encodeArrs l).length ≤ fuel) :
    (enhanceLoop fuel s (encodeArrs l ++ 0 :: pad) (encodeArrs l).length).isSome := by
  induction l generalizing s fuel with
  | nil => cases fuel <;> rfl
  | cons a l ih =>
    obtain ⟨ha, hl⟩ := forall_mem_cons.1 hl
    obtain ⟨hnil, hempty⟩ := forall_mem_cons.1 hempty
    have htext : encodeArrs (a :: l) = (42 :: a.countText) ++ (crlf ++ encodeArrs l) := by
      simp [Arr.encode, hnil]
    have hopen : IsOpen (42 :: a.countText) := by
      intro b hb
      rcases mem_cons.1 hb with rfl | hb
      · decide
      · exact ha.wellFormed.countText_open b hb
    have hzero : atoi (42 :: a.countText) = 0 :=
      atoi_of_head (by decide) (by decide) (by decide) (by decide)
    have hlen : (encodeArrs (a :: l)).length = a.countText.length + (encodeArrs l).length + 3 := by
      rw [htext, length_append, length_append, length_cons, length_crlf]
      omega
    obtain ⟨fuel, rfl⟩ := Nat.exists_eq_succ_of_ne_zero (n := fuel) (by omega)
    rcases enhanceIter_noNumber h (.of_isOpen hopen) hzero (encodeArrs l) pad
      (encodeArrs (a :: l)).length with ⟨hlong, -⟩ | ⟨-, s', hover, heq⟩
    · have hshort := ha.range.1
      rw [readBuffSize, length_cons] at hlong
      omega
    · rw [← htext] at heq
      rw [enhanceLoop_turn (by omega)]
      simp only [heq]
      have hrest : (encodeArrs (a :: l)).length - ((42 :: a.countText).length + 2) =
          (encodeArrs l).length := by
        rw [length_cons]
        omega
      rw [hrest, htext, append_assoc, append_assoc, drop_line]
      exact ih hl hempty fuel hover (by omega)

end Over

end GBDownLinker
