/-
**What one call of the reply parser does to a well-formed reply.**

A `Work` is a place in a reply where the parser can stand between two iterations of its loop, and `At r s w` says
that the parser state `s` belongs to the place `w` of the reply `r`.  A call that starts behind the header of an
array does not have the flag that lets an element be a line (`Lost`): it reads the line as a length, and from then
on the parser is `Derailed`.
-/

import BackendProgramming.RedisConnection
import BackendProgramming.Resp

set_option autoImplicit false

namespace GBDownLinker

open CText Resp List

/-! ### The value of a reply -/

def elementInfo : Element → ReplyArrayInfo
  | .line σ text => ⟨.string, some (σ.byte :: text), text.length + 1⟩
  | .bulk _ body => ⟨.string, some body, body.length⟩
  | .nil => ⟨.nil, none, -1⟩

def replyType : Reply → RedisReplyType
  | .status _ => .status
  | .error _ => .error
  | .int _ => .integer
  | .single _ => .string
  | .array _ _ => .array

def replyInfo : Reply → RedisReplyInfo
  | .status text => { replyType := .status, resultString := text }
  | .error text => { replyType := .error, resultString := text }
  | .int text => { replyType := .integer, intValue := intVal text }
  | .single e => { replyType := .string, arrayList := [elementInfo e] }
  | .array _ elems => { replyType := .array, arrayList := elems.map elementInfo }

theorem replyInfo_arrayList (r : Reply) : (replyInfo r).arrayList = r.elements.map elementInfo := by
  cases r <;> rfl

theorem replyInfo_of_elements {r : Reply} (h : r.elements ≠ []) :
    replyInfo r = { replyType := replyType r, arrayList := r.elements.map elementInfo } := by
  cases r <;> simp_all [Reply.elements, replyInfo, replyType]

/-! ### Places in a reply -/

inductive Work where
  | start
  | result (text : Bytes)
  | integer (text : Bytes)
  | count (num : Bytes)
  | elems (pre : List Element) (e : Element) (es : List Element)
  | lenLine (pre : List Element) (e : Element) (es : List Element)
  | body (pre : List Element) (len b : Bytes) (es : List Element)
  | done

def Work.bytes (r : Reply) : Work → Bytes
  | .start => r.encode
  | .result text => text ++ (crlf ++ [])
  | .integer text => text ++ (crlf ++ [])
  | .count num => num ++ (crlf ++ encodes r.elements)
  | .elems _ e es => e.encode ++ encodes es
  | .lenLine _ e es => e.lenText ++ (crlf ++ (e.payload ++ encodes es))
  | .body _ _ b es => b ++ (crlf ++ encodes es)
  | .done => []

def Work.need : Work → ℕ
  | .start => 1
  | .result text => text.length + 2
  | .integer text => text.length + 2
  | .count num => num.length + 2
  | .elems _ e _ => if e.isBulk then 1 else e.encode.length
  | .lenLine _ e _ => e.lenText.length + 2
  | .body _ _ b _ => b.length + 2
  | .done => 0

def Work.todo : Work → List Element
  | .elems _ e es => e :: es
  | .lenLine _ _ es => es
  | .body _ _ _ es => es
  | _ => []

def Work.after (pre : List Element) : List Element → Work
  | [] => .done
  | e :: es => .elems pre e es

structure Reading (r : Reply) (s : Parser) (st : RedisParseState) (pre : List Element) : Prop where
  parseState : s.conn.parseState = st
  valid : s.conn.valid = false
  unparse : s.conn.unparseBuf = []
  arrayNum : s.conn.arrayNum = r.elements.length
  doneNum : s.conn.doneNum = pre.length
  info : s.info = { replyType := replyType r, arrayList := pre.map elementInfo }

structure Header (r : Reply) (s : Parser) (st : RedisParseState) : Prop where
  conn : s.conn = { parseState := st }
  info : s.info = { replyType := replyType r }

def At (r : Reply) (s : Parser) : Work → Prop
  | .start => s = ⟨{ parseState := .type }, {}, false⟩
  | .result text => (r = .status text ∨ r = .error text) ∧ Header r s .result
  | .integer text => r = .int text ∧ Header r s .integer
  | .count num => (∃ elems, r = .array num elems) ∧ Header r s .arrayLength
  | .elems pre e es => r.elements = pre ++ e :: es ∧ Reading r s .length pre
  | .lenLine pre e es => r.elements = pre ++ e :: es ∧ e.isBulk = true ∧ s.haveArray = false ∧
      Reading r s .length pre
  | .body pre len b es => r.elements = pre ++ .bulk len b :: es ∧ s.conn.arrayLen = b.length ∧
      Reading r s .string pre
  | .done => s.conn.valid = true ∧ s.info = replyInfo r

def Work.Exposed (w : Work) : Prop := ∃ e ∈ w.todo, e.isBulk = false

def Lost (s : Parser) (w : Work) : Prop := s.haveArray = false ∧ w.Exposed

def Derailed (r : Reply) (c : Connection) (info : RedisReplyInfo) : Prop :=
  ∃ i x, (replyInfo r).arrayList[i]? = some x ∧ x ≠ ⟨.string, some [], 0⟩ ∧
    (info.arrayList[i]? = some ⟨.string, some [], 0⟩ ∨
      (info.arrayList.length = i ∧ c.parseState = .string ∧ c.arrayLen = 0 ∧ c.valid = false))

/-! ### The steps of the parser at a place -/

theorem Work.bytes_after (r : Reply) (pre es : List Element) :
    (Work.after pre es).bytes r = encodes es := by
  cases es <;> rfl

theorem Work.todo_after (pre es : List Element) : (Work.after pre es).todo = es := by
  cases es <;> rfl

variable {s' : Parser} {w : Work}

theorem Lost.congr {s : Parser} {w' : Work} (hf : s'.haveArray = s.haveArray)
    (h : w'.todo = w.todo) : Lost s' w' ↔ Lost s w := by
  simp [Lost, Work.Exposed, hf, h]

variable {pre es : List Element} {e : Element}

theorem Reading.pushElement {r : Reply} {s : Parser} {st : RedisParseState}
     (h : Reading r s st pre)
    (hr : r.elements = pre ++ e :: es) :
    At r (s.pushElement (elementInfo e)) (.after (pre ++ [e]) es) := by
  have hnum : s.conn.arrayNum = pre.length + 1 + es.length := by
    rw [h.arrayNum, hr]
    push_cast [length_append, length_cons]
    omega
  cases es with
  | nil =>
    have hlast : ¬ s.conn.doneNum + 1 < s.conn.arrayNum := by
      rw [hnum, h.doneNum]
      simp
    refine ⟨by simp [Parser.pushElement, hlast], ?_⟩
    rw [replyInfo_of_elements (by simp [hr]), hr]
    simp [Parser.pushElement, h.info]
  | cons e' es =>
    have hmore : s.conn.doneNum + 1 < s.conn.arrayNum := by
      rw [hnum, h.doneNum]
      push_cast [length_cons]
      omega
    refine ⟨by simp [hr], ?_⟩
    rw [Parser.pushElement, if_pos hmore]
    exact ⟨rfl, h.valid, h.unparse, h.arrayNum, by simp [h.doneNum], by simp [h.info]⟩

@[simp] theorem Parser.haveArray_pushElement (s : Parser) (a : ReplyArrayInfo) :
    (s.pushElement a).haveArray = s.haveArray := rfl

@[simp] theorem Parser.haveArray_readLength (s : Parser) (line : Bytes) :
    (s.readLength line).haveArray = s.haveArray := by
  unfold Parser.readLength
  split <;> rfl

def Work.afterLength (pre : List Element) (es : List Element) : Element → Work
  | .bulk len b => .body pre len b es
  | e => .after (pre ++ [e]) es

theorem Reading.readLength {r : Reply} {s : Parser}
    (h : Reading r s .length pre) (hr : r.elements = pre ++ e :: es) (he : e.isBulk = true)
    (hwf : e.WellFormed) (hlen : e.payload.length < 2 ^ 31) :
    At r (s.readLength e.lenText) (.afterLength pre es e) := by
  cases e with
  | line σ text => simp [Element.isBulk] at he
  | bulk len b =>
    have hb : b.length < 2 ^ 31 := by
      simp only [Element.payload, length_append] at hlen
      omega
    have hatoi : atoi len = b.length := by
      have := atoi_digits (t := []) hwf.ne_nil hwf.digits (by simp) (by rwa [hwf.val])
      rwa [append_nil, hwf.val] at this
    have hne : atoi len ≠ -1 := by omega
    rw [Element.lenText, Parser.readLength, if_pos hne]
    exact ⟨hr, hatoi, rfl, h.valid, h.unparse, h.arrayNum, h.doneNum, h.info⟩
  | nil =>
    have hatoi : atoi [45, 49] = -1 := by decide
    have hs : Reading r { s with conn := { s.conn with arrayLen := -1 } } .length pre :=
      ⟨h.parseState, h.valid, h.unparse, h.arrayNum, h.doneNum, h.info⟩
    rw [Element.lenText, Parser.readLength, if_neg (not_not.2 hatoi), hatoi]
    exact hs.pushElement hr

/-! ### One iteration -/

theorem At.forget {r : Reply} {s : Parser} (h : At r s w) :
    At r { s with haveArray := false } w := by
  cases w with
  | start =>
    have hs : s = ⟨{ parseState := .type }, {}, false⟩ := h
    subst hs
    rfl
  | result text => exact ⟨h.1, h.2.conn, h.2.info⟩
  | integer text => exact ⟨h.1, h.2.conn, h.2.info⟩
  | count num => exact ⟨h.1, h.2.conn, h.2.info⟩
  | elems pre e es =>
    obtain ⟨hr, h⟩ := h
    exact ⟨hr, h.parseState, h.valid, h.unparse, h.arrayNum, h.doneNum, h.info⟩
  | lenLine pre e es =>
    obtain ⟨hr, he, -, h⟩ := h
    exact ⟨hr, he, rfl, h.parseState, h.valid, h.unparse, h.arrayNum, h.doneNum, h.info⟩
  | body pre len b es =>
    obtain ⟨hr, hl, h⟩ := h
    exact ⟨hr, hl, h.parseState, h.valid, h.unparse, h.arrayNum, h.doneNum, h.info⟩
  | done => exact h

inductive Outcome (r : Reply) (s : Parser) (w : Work) (rest : Bytes) : Iter → Prop
  | moves (s' : Parser) (w' : Work) (k : ℕ) (hpos : 0 < k) (hle : k ≤ rest.length)
      (hat : At r s' w') (hbytes : w'.bytes r = (w.bytes r).drop k)
      (hlost : Lost s' w' ↔ Lost s w) : Outcome r s w rest (.next s' k)
  | waits (w' : Work) (k : ℕ) (hle : k ≤ rest.length) (hat : At r { s with haveArray := false } w')
      (hbytes : w'.bytes r = (w.bytes r).drop k) (hexp : w.Exposed → w'.Exposed)
      (hneed : rest.length - k < w'.need) : Outcome r s w rest (.checkBuf s k)
  | derails (s' : Parser) (k : ℕ) (hlost : Lost s w) (hpos : 0 < k) (hle : k ≤ rest.length)
      (h : Derailed r s'.conn s'.info) : Outcome r s w rest (.next s' k)
  | faults (hlost : Lost s w) : Outcome r s w rest .fault

theorem withLine_arrived {text later rest future : Bytes} (htext : IsOpen text)
    (hshort : text.length < 4096) (h : rest ++ future = text ++ (crlf ++ later)) (pad : Bytes)
    (s : Parser) (k : ℕ) (f : Bytes → Parser) :
    (withLine s (rest ++ 0 :: pad) k f = .next (f text) (k + text.length + 2) ∧
      text.length + 2 ≤ rest.length) ∨
    (withLine s (rest ++ 0 :: pad) k f = .checkBuf s k ∧ rest.length < text.length + 2) := by
  rcases strstrCrlf_arrived htext h pad with ⟨rest', rfl, -, hfound⟩ | ⟨hlt, habsent⟩
  · left
    refine ⟨?_, by simp⟩
    rw [withLine, hfound]
    simp [readBuffSize, hshort]
  · right
    refine ⟨?_, hlt⟩
    rw [withLine, habsent]

theorem drop_line (text later : Bytes) :
    (text ++ (crlf ++ later)).drop (text.length + 2) = later := by
  rw [← append_assoc, drop_left' (by simp)]

theorem outcome_withLine {r : Reply} {s : Parser} {text later rest future : Bytes}
    {f : Bytes → Parser} (w' : Work) (htext : IsOpen text) (hshort : text.length < 4096)
    (hw : w.bytes r = text ++ (crlf ++ later)) (hneed : w.need = text.length + 2)
    (hat : At r s w) (hat' : At r (f text) w') (hbytes : w'.bytes r = later)
    (hlost : Lost (f text) w' ↔ Lost s w) (h : rest ++ future = w.bytes r) (pad : Bytes) :
    Outcome r s w rest (withLine s (rest ++ 0 :: pad) 0 f) := by
  rcases withLine_arrived htext hshort (h.trans hw) pad s 0 f with ⟨heq, hle⟩ | ⟨heq, hlt⟩
  · rw [heq, Nat.zero_add]
    exact .moves _ w' _ (by omega) hle hat' (by rw [hbytes, hw, drop_line]) hlost
  · rw [heq]
    exact .waits w 0 (by omega) hat.forget (by simp) id (by omega)

section Step

variable {r : Reply} {s : Parser} {rest future : Bytes}

theorem parseIter_start (hr : r.WellFormed) (hs : At r s .start)
    (h : rest ++ future = r.encode) (hne : rest ≠ []) (pad : Bytes) (n : ℕ) :
    Outcome r s .start rest (parseIter s (rest ++ 0 :: pad) n) := by
  obtain ⟨b, rest', rfl⟩ := exists_cons_of_ne_nil hne
  have hlost : ∀ {s' w'}, w'.todo = [] → (Lost s' w' ↔ Lost s .start) := by
    intro s' w' hw
    unfold Lost Work.Exposed
    simp [hw, show Work.start.todo = [] from rfl]
  have hs' : s = ⟨{ parseState := .type }, {}, false⟩ := hs
  subst hs'
  cases r with
  | status text =>
    obtain ⟨rfl, -⟩ := cons.inj h
    refine .moves _ (.result text) 1 (by decide) (by simp) ?_ (by simp [Work.bytes, Reply.encode])
      (hlost rfl)
    exact ⟨Or.inl rfl, rfl, rfl⟩
  | error text =>
    obtain ⟨rfl, -⟩ := cons.inj h
    refine .moves _ (.result text) 1 (by decide) (by simp) ?_ (by simp [Work.bytes, Reply.encode])
      (hlost rfl)
    exact ⟨Or.inr rfl, rfl, rfl⟩
  | int text =>
    obtain ⟨rfl, -⟩ := cons.inj h
    refine .moves _ (.integer text) 1 (by decide) (by simp) ?_
      (by simp [Work.bytes, Reply.encode]) (hlost rfl)
    exact ⟨rfl, rfl, rfl⟩
  | single e =>
    have he := Element.encode_of_isBulk hr.2
    obtain ⟨rfl, -⟩ := cons.inj (h.trans he)
    refine .moves _ (.lenLine [] e []) 1 (by decide) (by simp) ?_
      (by simp [Work.bytes, Reply.encode, he]) (hlost rfl)
    exact ⟨rfl, hr.2, rfl, rfl, rfl, rfl, rfl, rfl, rfl⟩
  | array num elems =>
    obtain ⟨rfl, -⟩ := cons.inj h
    refine .moves _ (.count num) 1 (by decide) (by simp) ?_
      (by simp [Work.bytes, Reply.encode, Reply.elements]) (hlost rfl)
    exact ⟨⟨elems, rfl⟩, rfl, rfl⟩

theorem parseIter_result {text : Bytes} (hr : r.WellFormed) (hnul : 0 ∉ r.text)
    (hs : At r s (.result text)) (h : rest ++ future = (Work.result text).bytes r) (pad : Bytes)
    (n : ℕ) : Outcome r s (.result text) rest (parseIter s (rest ++ 0 :: pad) n) := by
  have ⟨hrt, hconn, hinfo⟩ := hs
  have hline : IsLine text := by rcases hrt with rfl | rfl <;> exact hr
  have hopen : IsOpen text := fun b hb =>
    ⟨fun h0 => hnul (by rcases hrt with rfl | rfl <;> exact h0 ▸ hb), (hline.2 b hb).1⟩
  have hit : parseIter s (rest ++ 0 :: pad) n = withLine s (rest ++ 0 :: pad) 0 fun line =>
      { s with conn := { s.conn with valid := true }, info := { s.info with resultString := line } } := by
    simp [parseIter, hconn]
  rw [hit]
  refine outcome_withLine .done hopen hline.1 rfl rfl hs ?_ rfl
    (Lost.congr rfl rfl) h pad
  refine ⟨rfl, ?_⟩
  rcases hrt with rfl | rfl <;> simp [hinfo, replyInfo, replyType]

theorem parseIter_integer {text : Bytes} (hr : r.WellFormed)
    (hs : At r s (.integer text)) (h : rest ++ future = (Work.integer text).bytes r) (pad : Bytes)
    (n : ℕ) : Outcome r s (.integer text) rest (parseIter s (rest ++ 0 :: pad) n) := by
  obtain ⟨rfl, hconn, hinfo⟩ := id hs
  have hit : parseIter s (rest ++ 0 :: pad) n = withLine s (rest ++ 0 :: pad) 0 fun line =>
      { s with conn := { s.conn with valid := true },
               info := { s.info with intValue := atoi line } } := by
    simp [parseIter, hconn]
  rw [hit]
  refine outcome_withLine .done (isOpen_of_isIntText hr.2) hr.1.1 rfl rfl hs
    ⟨rfl, ?_⟩ rfl (Lost.congr rfl rfl) h pad
  simp [hinfo, replyInfo, replyType, atoi_intText hr.2]

theorem parseIter_count {num : Bytes} (hr : r.WellFormed) (hlen : r.encode.length < 2 ^ 31)
    (hs : At r s (.count num)) (h : rest ++ future = (Work.count num).bytes r) (pad : Bytes)
    (n : ℕ) : Outcome r s (.count num) rest (parseIter s (rest ++ 0 :: pad) n) := by
  obtain ⟨⟨elems, rfl⟩, hconn, hinfo⟩ := id hs
  obtain ⟨hnum, -⟩ := hr
  have hlt : elems.length < 2 ^ 31 := by
    have := length_le_length_encodes elems
    simp only [Reply.encode, length_cons, length_append] at hlen
    omega
  have hatoi : atoi num = elems.length := by
    have := atoi_digits (t := []) hnum.ne_nil hnum.digits (by simp) (by rwa [hnum.val])
    rwa [append_nil, hnum.val] at this
  have hit : parseIter s (rest ++ 0 :: pad) n = withLine s (rest ++ 0 :: pad) 0 s.readCount := by
    simp [parseIter, hconn]
  rw [hit]
  refine outcome_withLine (.after [] elems) hnum.isOpen hnum.short rfl rfl hs ?_
    (Work.bytes_after _ _ _) ?_ h pad
  · cases elems with
    | nil =>
      have h0 : atoi num = 0 := by simpa using hatoi
      rw [Parser.readCount, if_pos h0]
      exact ⟨rfl, hinfo⟩
    | cons e es =>
      have h0 : atoi num ≠ 0 := by
        rw [hatoi]
        exact_mod_cast Nat.succ_ne_zero es.length
      rw [Parser.readCount, if_neg h0, if_neg (by omega)]
      exact ⟨rfl, rfl, by simp [hconn], by simp [hconn], hatoi, by simp [hconn], hinfo⟩
  · cases elems with
    | nil => simp [Lost, Work.Exposed, Work.todo, Work.after]
    | cons e es =>
      have h0 : atoi num ≠ 0 := by
        rw [hatoi]
        exact_mod_cast Nat.succ_ne_zero es.length
      rw [Parser.readCount, if_neg h0, if_neg (by omega)]
      simp [Lost, Work.Exposed, Work.todo]

theorem parseIter_body {len b : Bytes} (hlen : r.encode.length < 2 ^ 31)
    (hs : At r s (.body pre len b es)) (h : rest ++ future = (Work.body pre len b es).bytes r)
    (pad : Bytes) :
    Outcome r s (.body pre len b es) rest (parseIter s (rest ++ 0 :: pad) rest.length) := by
  obtain ⟨hel, hal, hs'⟩ := id hs
  have hfit : b.length + 2 < 2 ^ 31 := by
    have := Reply.length_encode hel
    have := Element.length_payload_le (.bulk len b)
    simp only [Element.payload, length_append, length_crlf] at this
    omega
  have hit : parseIter s (rest ++ 0 :: pad) rest.length =
      parseString s (rest ++ 0 :: pad) rest.length := by
    simp [parseIter, hs'.parseState]
  rw [hit, parseString, hal, if_neg (by omega)]
  by_cases hall : b.length + 2 ≤ rest.length
  · rw [if_pos (by omega), if_neg (by omega)]
    -- the body has arrived, so the bytes taken are the body
    have htake : (rest ++ 0 :: pad).take b.length = b := by
      have h' : (rest ++ future).take b.length = b := by
        rw [h, Work.bytes, take_left' rfl]
      rw [take_append_of_le_length (by omega)] at h' ⊢
      exact h'
    simp only [Int.toNat_natCast, htake]
    refine .moves _ (.after (pre ++ [.bulk len b]) es) _ (by omega) hall ?_ ?_ ?_
    · have := hs'.pushElement hel
      simpa [elementInfo] using this
    · rw [Work.bytes_after, Work.bytes, drop_line]
    · exact Lost.congr rfl (Work.todo_after _ _)
  · rw [if_neg (by omega)]
    exact .waits _ 0 (by omega) hs.forget (by simp) id (by simp only [Work.need]; omega)

theorem outcome_readLength {rest₁ : Bytes} {k : ℕ}
    (hr : r.WellFormed) (hlen : r.encode.length < 2 ^ 31) (hel : r.elements = pre ++ e :: es)
    (he : e.isBulk = true) (hs : Reading r s .length pre)
    (hw : (w.bytes r).drop k = (Work.lenLine pre e es).bytes r)
    (hrest : rest.length = k + rest₁.length)
    (hexp : w.Exposed ↔ ∃ e ∈ es, e.isBulk = false)
    (h : rest₁ ++ future = (Work.lenLine pre e es).bytes r) (pad : Bytes) :
    Outcome r s w rest (withLine s (rest₁ ++ 0 :: pad) k s.readLength) := by
  have hwf : e.WellFormed := hr.element (by simp [hel])
  have hopen : IsOpen e.lenText ∧ e.lenText.length < 4096 := by
    cases e with
    | line σ text => simp [Element.isBulk] at he
    | bulk len b => exact ⟨hwf.isOpen, hwf.short⟩
    | nil =>
      refine ⟨?_, by decide⟩
      intro b hb
      rcases mem_pair.1 (show b ∈ [45, 49] from hb) with rfl | rfl <;> decide
  have hpay : e.payload.length < 2 ^ 31 := by
    have := Reply.length_encode hel
    have := e.length_payload_le
    omega
  rcases withLine_arrived hopen.1 hopen.2 h pad s k s.readLength with ⟨heq, hle⟩ | ⟨heq, hlt⟩
  · rw [heq]
    have hat := hs.readLength hel he hwf hpay
    have hbytes : (Work.afterLength pre es e).bytes r = e.payload ++ encodes es := by
      cases e with
      | line σ text => simp [Element.isBulk] at he
      | bulk len b => simp [Work.afterLength, Work.bytes, Element.payload]
      | nil => simp [Work.afterLength, Work.bytes_after, Element.payload]
    have htodo : (Work.afterLength pre es e).todo = es := by
      cases e with
      | bulk len b => rfl
      | line σ text => exact Work.todo_after _ _
      | nil => exact Work.todo_after _ _
    refine .moves _ _ _ (by omega) (by omega) hat ?_ ?_
    · rw [hbytes, Nat.add_assoc, ← drop_drop, hw, Work.bytes, drop_line]
    · unfold Lost
      rw [Parser.haveArray_readLength, hexp, Work.Exposed, htodo]
  · rw [heq]
    refine .waits (.lenLine pre e es) k (by omega) ?_ hw.symm hexp.1
      (by simp only [Work.need]; omega)
    exact ⟨hel, he, rfl, hs.parseState, hs.valid, hs.unparse, hs.arrayNum, hs.doneNum, hs.info⟩

theorem parseIter_lenLine (hr : r.WellFormed)
    (hlen : r.encode.length < 2 ^ 31) (hs : At r s (.lenLine pre e es))
    (h : rest ++ future = (Work.lenLine pre e es).bytes r) (hne : rest ≠ []) (pad : Bytes) (n : ℕ) :
    Outcome r s (.lenLine pre e es) rest (parseIter s (rest ++ 0 :: pad) n) := by
  obtain ⟨hel, he, hflag, hs'⟩ := hs
  have hhead : (rest ++ 0 :: pad).head? ≠ some 36 := by
    obtain ⟨b, rest', rfl⟩ := exists_cons_of_ne_nil hne
    have hwf : e.WellFormed := hr.element (by simp [hel])
    cases e with
    | line σ text => simp [Element.isBulk] at he
    | bulk len b' =>
      obtain ⟨c, len', rfl⟩ := exists_cons_of_ne_nil hwf.ne_nil
      obtain ⟨rfl, -⟩ := cons.inj h
      simpa using isDigit_ne (hwf.digits b (by simp)) (by decide)
    | nil =>
      obtain ⟨rfl, -⟩ := cons.inj h
      simp
  have hit : parseIter s (rest ++ 0 :: pad) n =
      withLine s (rest ++ 0 :: pad) 0 s.readLength := by
    simp only [parseIter, hs'.parseState, parseLength, hflag, hhead, if_false, drop_zero,
      Bool.false_eq_true, false_and]
  rw [hit]
  exact outcome_readLength hr hlen hel he hs' rfl (by simp) Iff.rfl h pad

theorem parseIter_elems_bulk (hr : r.WellFormed)
    (hlen : r.encode.length < 2 ^ 31) (he : e.isBulk = true) (hs : At r s (.elems pre e es))
    (h : rest ++ future = (Work.elems pre e es).bytes r) (hne : rest ≠ []) (pad : Bytes) (n : ℕ) :
    Outcome r s (.elems pre e es) rest (parseIter s (rest ++ 0 :: pad) n) := by
  obtain ⟨hel, hs'⟩ := hs
  obtain ⟨b, rest₁, rfl⟩ := exists_cons_of_ne_nil hne
  rw [Work.bytes, Element.encode_of_isBulk he] at h
  obtain ⟨rfl, h₁⟩ := cons.inj h
  have hit : parseIter s (36 :: rest₁ ++ 0 :: pad) n =
      withLine s (rest₁ ++ 0 :: pad) 1 s.readLength := by
    simp [parseIter, hs'.parseState, parseLength]
  rw [hit]
  have h₂ : rest₁ ++ future = (Work.lenLine pre e es).bytes r := h₁.trans (by simp [Work.bytes])
  refine outcome_readLength hr hlen hel he hs' ?_ (by simp [Nat.add_comm]) ?_ h₂ pad
  · rw [Work.bytes, Element.encode_of_isBulk he]
    simp [Work.bytes]
  · simp [Work.Exposed, Work.todo, he]

theorem parseIter_elems_line {σ : Sign} {text : Bytes} (hr : r.WellFormed)
    (hcolon : r.ColonLines) (hs : At r s (.elems pre (.line σ text) es))
    (h : rest ++ future = (Work.elems pre (.line σ text) es).bytes r) (pad : Bytes) (hne : rest ≠ [])
    (n : ℕ) :
    Outcome r s (.elems pre (.line σ text) es) rest (parseIter s (rest ++ 0 :: pad) n) := by
  obtain ⟨hel, hs'⟩ := id hs
  have hwf : IsLine text ∧ 0 ∉ text := hr.element (e := .line σ text) (by simp [hel])
  have hopen : IsOpen (σ.byte :: text) := by
    intro b hb
    rcases mem_cons.1 hb with rfl | hb
    · cases σ <;> decide
    · exact ⟨fun h0 => hwf.2 (h0 ▸ hb), (hwf.1.2 b hb).1⟩
  have hbytes : (Work.elems pre (.line σ text) es).bytes r =
      (σ.byte :: text) ++ (crlf ++ encodes es) := by
    simp [Work.bytes, Element.encode]
  have hhead : (rest ++ 0 :: pad).head? = some σ.byte := by
    obtain ⟨b, rest', rfl⟩ := exists_cons_of_ne_nil hne
    obtain ⟨rfl, -⟩ := cons.inj h
    rfl
  have hneed : (Work.elems pre (.line σ text) es).need = text.length + 3 := by
    simp [Work.need, Element.isBulk, Element.encode]
  have hit : parseIter s (rest ++ 0 :: pad) n = parseLength s (rest ++ 0 :: pad) := by
    simp [parseIter, hs'.parseState]
  rw [hit, parseLength, hhead]
  by_cases hflag : s.haveArray = true
  · rw [if_pos ⟨hflag, by cases σ <;> decide⟩]
    rcases strstrCrlf_arrived hopen (h.trans hbytes) pad with ⟨rest', rfl, -, hf⟩ | ⟨hlt, ha⟩
    · simp only [hf]
      rw [if_neg (by simp)]
      have htake : ((σ.byte :: text) ++ (crlf ++ rest') ++ 0 :: pad).take (σ.byte :: text).length =
          σ.byte :: text := by
        rw [append_assoc, take_left' rfl]
      rw [htake]
      refine .moves _ (.after (pre ++ [.line σ text]) es) _ (by omega) (by simp) ?_ ?_ ?_
      · have := hs'.pushElement hel
        simpa [elementInfo] using this
      · rw [hbytes, drop_line, Work.bytes_after]
      · simp [Lost, hflag]
    · simp only [ha]
      exact .waits _ 0 (by omega) hs.forget (by simp) id
        (by rw [hneed]; simp only [length_cons] at hlt; omega)
  · rw [if_neg fun hc => hflag hc.1]
    have hlost : Lost s (.elems pre (.line σ text) es) :=
      ⟨by simpa using hflag, .line σ text, by simp [Work.todo], rfl⟩
    obtain rfl := hcolon σ text (by simp [hel])
    rw [if_neg (by decide)]
    simp only [drop_zero, withLine]
    rcases strstrCrlf_arrived hopen (h.trans hbytes) pad with ⟨rest', rfl, -, hf⟩ | ⟨hlt, ha⟩
    · simp only [hf]
      split
      · exact .faults hlost
      · -- the colon is not a number, so the line counts as the length zero
        have hatoi : atoi (Sign.colon.byte :: text) = 0 :=
          atoi_of_head (by decide) (by decide) (by decide) (by decide)
        rw [append_assoc, take_left' rfl]
        refine .derails _ _ hlost (by omega) (by simp) ?_
        rw [Parser.readLength, if_pos (by omega)]
        refine ⟨pre.length, elementInfo (.line .colon text), ?_, by simp [elementInfo], Or.inr ?_⟩
        · rw [replyInfo_arrayList, hel]
          simp
        · refine ⟨by simp [hs'.info], rfl, ?_, hs'.valid⟩
          simpa using hatoi
    · simp only [ha]
      exact .waits _ 0 (by omega) hs.forget (by simp) id
        (by rw [hneed]; simp only [length_cons] at hlt; omega)

theorem parseIter_at (hr : r.WellFormed) (hcolon : r.ColonLines) (hnul : 0 ∉ r.text)
    (hlen : r.encode.length < 2 ^ 31) (hs : At r s w) (h : rest ++ future = w.bytes r)
    (hne : rest ≠ []) (pad : Bytes) :
    Outcome r s w rest (parseIter s (rest ++ 0 :: pad) rest.length) := by
  cases w with
  | start => exact parseIter_start hr hs h hne pad _
  | result text => exact parseIter_result hr hnul hs h pad _
  | integer text => exact parseIter_integer hr hs h pad _
  | count num => exact parseIter_count hr hlen hs h pad _
  | elems pre e es =>
    by_cases he : e.isBulk = true
    · exact parseIter_elems_bulk hr hlen he hs h hne pad _
    · cases e with
      | line σ text => exact parseIter_elems_line hr hcolon hs h pad hne _
      | bulk len b => simp [Element.isBulk] at he
      | nil => simp [Element.isBulk] at he
  | lenLine pre e es => exact parseIter_lenLine hr hlen hs h hne pad _
  | body pre len b es => exact parseIter_body hlen hs h pad
  | done =>
    rw [Work.bytes, append_eq_nil_iff] at h
    exact absurd h.1 hne

end Step

/-! ### A derailed parser -/

def Iter.parser? : Iter → Option Parser
  | .next s _ => some s
  | .checkBuf s _ => some s
  | .returnFalse s => some s
  | .fault => none

theorem Parser.arrayList_readLength (s : Parser) (line : Bytes) :
    ∃ l, (s.readLength line).info.arrayList = s.info.arrayList ++ l := by
  unfold Parser.readLength
  split
  · exact ⟨[], by simp⟩
  · exact ⟨_, rfl⟩

theorem arrayList_withLine {s : Parser} {mem : Bytes} {k : ℕ} {f : Bytes → Parser}
    (hf : ∀ line, ∃ l, (f line).info.arrayList = s.info.arrayList ++ l)
    (h : (withLine s mem k f).parser? = some s') :
    ∃ l, s'.info.arrayList = s.info.arrayList ++ l := by
  unfold withLine at h
  split at h
  · cases h
  · cases h
    exact ⟨[], by simp⟩
  · split at h
    · cases h
    · cases h
      exact hf _

theorem arrayList_parseIter {s : Parser} {mem : Bytes} {n : ℕ}
    (h : (parseIter s mem n).parser? = some s') :
    ∃ l, s'.info.arrayList = s.info.arrayList ++ l := by
  have hsame : ∃ l, s.info.arrayList = s.info.arrayList ++ l := ⟨[], by simp⟩
  unfold parseIter at h
  split at h
  · unfold parseType at h
    split at h <;> cases h <;> exact hsame
  · refine arrayList_withLine (fun line => ?_) h
    exact hsame
  · refine arrayList_withLine (fun line => ?_) h
    exact hsame
  · unfold parseLength at h
    split at h
    · split at h
      · cases h
      · cases h
        exact hsame
      · split at h <;> cases h
        · exact hsame
        · exact ⟨_, rfl⟩
    · exact arrayList_withLine s.arrayList_readLength h
  · unfold parseString at h
    split at h
    · cases h
    · split at h
      · split at h <;> cases h
        exact ⟨_, rfl⟩
      · cases h
        exact hsame
  · refine arrayList_withLine (fun line => ?_) h
    unfold Parser.readCount
    split
    · exact hsame
    · split <;> exact hsame
  · cases h
    exact hsame

theorem parseIter_derailed {r : Reply} {s : Parser} {mem : Bytes} {n : ℕ}
    (hs : Derailed r s.conn s.info) (h : (parseIter s mem n).parser? = some s') :
    Derailed r s'.conn s'.info := by
  obtain ⟨i, x, hx, hne, hread | ⟨hi, hstate, hlen, hvalid⟩⟩ := hs
  · obtain ⟨l, hl⟩ := arrayList_parseIter h
    refine ⟨i, x, hx, hne, Or.inl ?_⟩
    rw [hl, getElem?_append_left (List.getElem?_eq_some_iff.1 hread).1, hread]
  · simp only [parseIter, hstate, parseString, hlen] at h
    rw [if_neg (by decide)] at h
    split at h
    · rw [if_neg (by decide)] at h
      cases h
      refine ⟨i, x, hx, hne, Or.inl ?_⟩
      simp [Parser.pushElement, ← hi]
    · cases h
      exact ⟨i, x, hx, hne, Or.inr ⟨hi, hstate, hlen, hvalid⟩⟩

theorem parseLoop_invariant {I : Parser → Prop}
    (hiter : ∀ {s s' mem n}, I s → (parseIter s mem n).parser? = some s' → I s')
    (hsave : ∀ {s} tail, I s → I (s.saveTail tail)) (fuel : ℕ) {s : Parser} {mem : Bytes} {n : ℕ}
    (hs : I s) (h : parseLoop fuel s mem n = some s') : I s' := by
  induction fuel generalizing s mem n with
  | zero =>
    cases n with
    | zero => cases h; exact hs
    | succ n => cases h
  | succ fuel ih =>
    cases n with
    | zero => cases h; exact hs
    | succ n =>
      rw [parseLoop] at h
      split at h
      · next s₁ k hit => exact ih (hiter hs (by rw [hit]; rfl)) h
      · next s₁ k hit =>
        cases h
        exact hsave _ (hiter hs (by rw [hit]; rfl))
      · next s₁ hit =>
        cases h
        exact hiter hs (by rw [hit]; rfl)
      · cases h

theorem parseLoop_derailed {r : Reply} (fuel : ℕ) {s : Parser} {mem : Bytes} {n : ℕ}
    (hs : Derailed r s.conn s.info) (h : parseLoop fuel s mem n = some s') :
    Derailed r s'.conn s'.info := by
  refine parseLoop_invariant (I := fun s => Derailed r s.conn s.info) parseIter_derailed ?_ fuel hs h
  intro s tail hs
  unfold Parser.saveTail
  split <;> exact hs

/-! ### One call -/

theorem Work.need_pos (h : w ≠ .done) : 0 < w.need := by
  cases w with
  | elems pre e es =>
    have := e.three_le_length_encode
    simp only [Work.need]
    split <;> omega
  | done => exact absurd rfl h
  | _ => simp [Work.need]

theorem At.not_done {r : Reply} {s : Parser} (h : At r s w) (hw : w ≠ .done) :
    s.conn.unparseBuf = [] ∧ s.conn.valid = false := by
  cases w with
  | start =>
    have hs : s = ⟨{ parseState := .type }, {}, false⟩ := h
    simp [hs]
  | result text => simp [h.2.conn]
  | integer text => simp [h.2.conn]
  | count num => simp [h.2.conn]
  | elems pre e es => exact ⟨h.2.unparse, h.2.valid⟩
  | lenLine pre e es => exact ⟨h.2.2.2.unparse, h.2.2.2.valid⟩
  | body pre len b es => exact ⟨h.2.2.unparse, h.2.2.valid⟩
  | done => exact absurd rfl hw

structure Rests (r : Reply) (c : Connection) (info : RedisReplyInfo) (w : Work) (tail : Bytes) :
    Prop where
  place : At r ⟨{ c with unparseBuf := [] }, info, false⟩ w
  unparse : w ≠ .done → c.unparseBuf = tail
  need : w ≠ .done → tail.length < w.need

inductive CallOutcome (r : Reply) (s : Parser) (w : Work) (n : ℕ) (future : Bytes) :
    Option Parser → Prop
  | rests (s' : Parser) (w' : Work) (tail : Bytes) (h : Rests r s'.conn s'.info w' tail)
      (hle : tail.length ≤ n) (hbytes : tail ++ future = w'.bytes r)
      (hexp : Lost s w → w'.Exposed) : CallOutcome r s w n future (some s')
  | derails (s' : Parser) (hlost : Lost s w) (h : Derailed r s'.conn s'.info) :
      CallOutcome r s w n future (some s')
  | faults (hlost : Lost s w) : CallOutcome r s w n future none

theorem Parser.saveTail_nil (s : Parser) : s.saveTail [] = s := by
  simp [Parser.saveTail]

theorem At.rests {r : Reply} {s : Parser} (h : At r { s with haveArray := false } w)
    (tail : Bytes) (hneed : w ≠ .done → tail.length < w.need)
    (htail : w = .done → tail = []) :
    Rests r (s.saveTail tail).conn (s.saveTail tail).info w tail := by
  by_cases hw : w = .done
  · subst hw
    rw [htail rfl, Parser.saveTail_nil]
    exact ⟨⟨h.1, h.2⟩, fun hne => absurd rfl hne, fun hne => absurd rfl hne⟩
  · obtain ⟨hun, hvalid⟩ := h.not_done hw
    refine ⟨?_, fun _ => ?_, hneed⟩
    · have hconn : ({ (s.saveTail tail).conn with unparseBuf := [] } : Connection) = s.conn := by
        unfold Parser.saveTail
        split
        · exact congrArg (fun u => { s.conn with unparseBuf := u }) hun.symm
        · exact congrArg (fun u => { s.conn with unparseBuf := u }) hun.symm
      have hinfo : (s.saveTail tail).info = s.info := by
        unfold Parser.saveTail
        split <;> rfl
      rw [hconn, hinfo]
      exact h
    · unfold Parser.saveTail
      split
      · rfl
      · rename_i hcond
        rw [not_and, not_not] at hcond
        rw [hcond hvalid]
        exact hun

theorem parseLoop_at {r : Reply} (hr : r.WellFormed) (hcolon : r.ColonLines) (hnul : 0 ∉ r.text)
    (hlen : r.encode.length < 2 ^ 31) (pad : Bytes) (fuel : ℕ) {s : Parser}
    {rest future : Bytes} (hs : At r s w) (h : rest ++ future = w.bytes r)
    (hfuel : rest.length ≤ fuel) :
    CallOutcome r s w rest.length future
      (parseLoop fuel s (rest ++ 0 :: pad) rest.length) := by
  have hempty : ∀ {s w} fuel, At r s w → [] ++ future = w.bytes r →
      CallOutcome r s w 0 future (parseLoop fuel s ([] ++ 0 :: pad) 0) := by
    intro s w fuel hs h
    have hrests := hs.forget.rests [] (fun hw => Work.need_pos hw) fun _ => rfl
    rw [Parser.saveTail_nil] at hrests
    cases fuel <;> exact .rests s w [] hrests le_rfl h fun hl => hl.2
  induction fuel generalizing s w rest with
  | zero =>
    obtain rfl : rest = [] := length_eq_zero_iff.1 (by omega)
    exact hempty 0 hs h
  | succ fuel ih =>
    rcases eq_or_ne rest [] with rfl | hne
    · exact hempty _ hs h
    · obtain ⟨n, hn⟩ : ∃ n, rest.length = n + 1 :=
        Nat.exists_eq_succ_of_ne_zero (by simpa using hne)
      have hout := parseIter_at hr hcolon hnul hlen hs h hne pad
      rw [hn] at hout ⊢
      rw [parseLoop]
      have hdrop : ∀ k, k ≤ rest.length → (rest ++ 0 :: pad).drop k = rest.drop k ++ 0 :: pad :=
        fun k hk => drop_append_of_le_length hk
      have hcut : ∀ k, k ≤ rest.length → rest.drop k ++ future = (w.bytes r).drop k :=
        fun k hk => by rw [← h, drop_append_of_le_length hk]
      generalize parseIter s (rest ++ 0 :: pad) (n + 1) = it at hout
      cases hout with
      | moves s' w' k hpos hle hat hbytes hlost =>
        have hlen' : n + 1 - k = (rest.drop k).length := by simp [hn]
        simp only [hdrop k hle, hlen']
        have hcall := ih hat ((hcut k hle).trans hbytes.symm) (by simp; omega)
        generalize parseLoop fuel s' (rest.drop k ++ 0 :: pad) (rest.drop k).length = o at hcall
        cases hcall with
        | rests s₁ w₁ tail h₁ hle hb he =>
          exact .rests s₁ w₁ tail h₁ (by simp at hle; omega) hb fun hl => he (hlost.2 hl)
        | derails s₁ hl hd => exact .derails s₁ (hlost.1 hl) hd
        | faults hl => exact .faults (hlost.1 hl)
      | waits w' k hle hat hbytes hexp hneed =>
        have htail : ((rest ++ 0 :: pad).drop k).take (n + 1 - k) = rest.drop k := by
          rw [hdrop k hle, take_left' (by simp [hn])]
        simp only [htail]
        have hne' : w' ≠ .done := by
          rintro rfl
          simp [Work.need] at hneed
        refine .rests _ w' (rest.drop k) (hat.rests _ (fun _ => by simpa using hneed) ?_)
          (by simp [hn]) ((hcut k hle).trans hbytes.symm) fun hl => hexp hl.2
        exact fun hd => absurd hd hne'
      | derails s' k hlost hpos hle hd =>
        cases hres : parseLoop fuel s' ((rest ++ 0 :: pad).drop k) (n + 1 - k) with
        | none => simpa [hres] using CallOutcome.faults hlost
        | some s₁ => simpa [hres] using CallOutcome.derails s₁ hlost (parseLoop_derailed _ hd hres)
      | faults hlost => exact .faults hlost

theorem Derailed.info_ne {r : Reply} {c : Connection} {info : RedisReplyInfo}
    (h : Derailed r c info) : info ≠ replyInfo r := by
  rintro rfl
  obtain ⟨i, x, hx, hne, hread | ⟨hi, -⟩⟩ := h
  · exact hne (Option.some.inj (hx.symm.trans hread))
  · have := (List.getElem?_eq_some_iff.1 hx).1
    omega

end GBDownLinker
