/-
**The resumable parser for arrays of arrays (`redisconnection.cpp`).**

`RedisConnection::parseEnhance` decides on the first byte behind the header of an array whether its elements are
arrays again, so the header waits for that byte, and takes it.  Behind the last element of an inner array it
steps over the star of the next one, but only if that element is a bulk string and not nil.
-/

import BackendProgramming.RedisRecv

set_option autoImplicit false

namespace GBDownLinker

open CText

/-! ### The reply -/

structure CommonReplyInfo where
  replyType : RedisReplyType := .unknown
  resultString : Bytes := []
  intValue : ℤ := 0
  arrays : List (List ReplyArrayInfo) := []
  arraysSize : ℕ := 0
  curArrayPos : ℕ := 0
  curArraySize : ℤ := 0
  deriving DecidableEq, Repr

def CommonReplyInfo.resize (info : CommonReplyInfo) (n : ℕ) : CommonReplyInfo :=
  { info with arrays := info.arrays.take n ++ List.replicate (n - info.arrays.length) [] }

structure Enhancer where
  conn : Connection
  info : CommonReplyInfo
  haveArray : Bool := false
  deriving DecidableEq, Repr

inductive EnhanceIter where
  | next (s : Enhancer) (k : ℕ)
  | checkBuf (s : Enhancer) (k : ℕ)
  | ret (s : Enhancer)
  | fault
  deriving DecidableEq, Repr

/-! ### One iteration -/

def Enhancer.enter (s : Enhancer) (st : RedisParseState) : Enhancer :=
  { s with conn := { s.conn with parseState := st } }

def Enhancer.finish (s : Enhancer) : Enhancer := { s with conn := { s.conn with valid := true } }

def headerEnd : Bytes → Option ℕ
  | [] => none
  | b :: s =>
    if 2 ≤ s.length ∧ b = 13 ∧ s.head? = some 10 then some 0 else (headerEnd s).map (· + 1)

def readHeader (s : Enhancer) (mem : Bytes) (n k : ℕ) : EnhanceIter :=
  match headerEnd (mem.take n) with
  | none => .checkBuf { s with conn := { s.conn with parseState := .checkArraysSize, valid := false } } k
  | some t =>
    let num := atoi (mem.take t)
    if (mem.drop (t + 2)).head? = some 42 then
      if num < 0 then .fault
      else
        let info := { s.info with replyType := .multiArray, arraysSize := num.toNat, curArrayPos := 0 }
        .next ({ s with info := info.resize num.toNat }.enter .arrayLength) (k + t + 3)
    else
      let info := { s.info with replyType := .array, arraysSize := 1, curArraySize := num, curArrayPos := 0 }
      .next ({ s with conn := { s.conn with arrayNum := num }, info := info.resize 1 }.enter .length)
        (k + t + 3)

def enhanceType (s : Enhancer) (mem : Bytes) (n : ℕ) : EnhanceIter :=
  match mem.headD 0 with
  | 45 => .next ({ s with info := { s.info with replyType := .error } }.enter .resultErr) 1
  | 43 => .next ({ s with info := { s.info with replyType := .status } }.enter .resultOk) 0
  | 58 => .next ({ s with info := { s.info with replyType := .integer } }.enter .integer) 0
  | 36 =>
    let info := { s.info with
      replyType := .string, curArraySize := 1, curArrayPos := 0, arraysSize := 1 }
    .next ({ s with conn := { s.conn with arrayNum := 1 }, info := info.resize 1 }.enter .length) 0
  | 42 => readHeader s (mem.drop 1) (n - 1) 1
  | _ => .ret { s with info := { s.info with replyType := .unknown } }.finish

def enhanceLine (s : Enhancer) (mem : Bytes) (k : ℕ) (f : Bytes → ℕ → EnhanceIter) : EnhanceIter :=
  match strstrCrlf mem with
  | .overrun => .fault
  | .absent => .checkBuf s k
  | .found p => if readBuffSize ≤ p then .fault else f (mem.take p) (k + p + 2)

def Enhancer.push (s : Enhancer) (a : ReplyArrayInfo) : Enhancer :=
  { s with
    conn := { s.conn with doneNum := s.conn.doneNum + 1 }
    info := { s.info with arrays := s.info.arrays.modify s.info.curArrayPos (· ++ [a]) } }

def Enhancer.handsOver (s : Enhancer) : Bool :=
  decide (¬ s.conn.doneNum < s.conn.arrayNum ∧ s.info.curArrayPos + 1 < s.info.arraysSize)

def Enhancer.advance (s : Enhancer) : Enhancer :=
  if s.conn.doneNum < s.conn.arrayNum then s.enter .length
  else if s.info.curArrayPos + 1 < s.info.arraysSize then
    { s with
      conn := { s.conn with parseState := .arrayLength, doneNum := 0, arrayNum := 0 }
      info := { s.info with curArrayPos := s.info.curArrayPos + 1 } }
  else s.finish

def Enhancer.element (s : Enhancer) (a : ReplyArrayInfo) (f : Enhancer → EnhanceIter) : EnhanceIter :=
  if s.info.curArrayPos < s.info.arrays.length then f (s.push a) else .fault

def Enhancer.readCount (s : Enhancer) (line : Bytes) (k : ℕ) : EnhanceIter :=
  let num := atoi line
  let s' : Enhancer := { s with
    conn := { s.conn with arrayNum := num }, info := { s.info with curArraySize := num } }
  if num = 0 then .next s'.finish k
  else if num = -1 then .next { s'.finish with info := { s'.info with intValue := -1 } } k
  else .next { s'.enter .length with haveArray := true } k

def Enhancer.readLength (s : Enhancer) (line : Bytes) (k : ℕ) : EnhanceIter :=
  let s' : Enhancer := { s with conn := { s.conn with arrayLen := atoi line } }
  if atoi line ≠ -1 then .next (s'.enter .string) k
  else s'.element ⟨.nil, none, -1⟩ fun s => .next s.advance k

def enhanceLength (s : Enhancer) (mem : Bytes) : EnhanceIter :=
  if s.haveArray = true ∧ (mem.head? = some 45 ∨ mem.head? = some 43 ∨ mem.head? = some 58) then
    match strstrCrlf mem with
    | .overrun => .fault
    | .absent => .checkBuf s 0
    | .found p =>
      if p = 0 then .checkBuf s 0
      else s.element ⟨.string, some (mem.take p), p⟩ fun s => .checkBuf s.advance (p + 1)
  else
    let k := if mem.head? = some 36 then 1 else 0
    enhanceLine s (mem.drop k) k s.readLength

def enhanceString (s : Enhancer) (mem : Bytes) (n : ℕ) : EnhanceIter :=
  if 2 ^ 31 ≤ s.conn.arrayLen + 2 then .fault
  else if s.conn.arrayLen + 2 ≤ n then
    if s.conn.arrayLen < 0 then .fault
    else
      let len := s.conn.arrayLen.toNat
      s.element ⟨.string, some (mem.take len), s.conn.arrayLen⟩ fun s =>
        .next s.advance (if s.handsOver then len + 3 else len + 2)
  else .checkBuf s 0

def enhanceIter (s : Enhancer) (mem : Bytes) (n : ℕ) : EnhanceIter :=
  match s.conn.parseState with
  | .type => enhanceType s mem n
  | .integer => enhanceLine s mem 0 fun line k =>
    let s' : Enhancer := { s with info := { s.info with intValue := atoi line } }
    .next (if s.info.arraysSize ≤ s.info.curArrayPos then s'.finish else s'.enter .arrayLength) k
  | .checkArraysSize => readHeader s mem n 0
  | .resultOk => enhanceLine s mem 0 fun line _ =>
    .ret { s with info := { s.info with resultString := line } }.finish
  | .resultErr => enhanceLine s mem 0 fun line _ =>
    .ret { s with info := { s.info with resultString := line } }.finish
  | .arrayLength =>
    let s' : Enhancer := { s with conn := { s.conn with doneNum := 0 } }
    enhanceLine s' mem 0 s'.readCount
  | .length => enhanceLength s mem
  | .string => enhanceString s mem n
  | _ => .ret s.finish

/-! ### One call -/

def Enhancer.saveTail (s : Enhancer) (tail : Bytes) : Enhancer :=
  if s.conn.valid = false ∧ tail ≠ [] then { s with conn := { s.conn with unparseBuf := tail } }
  else s

def enhanceLoop : ℕ → Enhancer → Bytes → ℕ → Option Enhancer
  | _, s, _, 0 => some s
  | 0, _, _, _ + 1 => none
  | fuel + 1, s, mem, n + 1 =>
    match enhanceIter s mem (n + 1) with
    | .next s' k => enhanceLoop fuel s' (mem.drop k) (n + 1 - k)
    | .checkBuf s' k => some (s'.saveTail ((mem.drop k).take (n + 1 - k)))
    | .ret s' => some s'
    | .fault => none

theorem enhanceLoop_turn {n : ℕ} (hn : n ≠ 0) (fuel : ℕ) (s : Enhancer) (mem : Bytes) :
    enhanceLoop (fuel + 1) s mem n =
      match enhanceIter s mem n with
      | .next s' k => enhanceLoop fuel s' (mem.drop k) (n - k)
      | .checkBuf s' k => some (s'.saveTail ((mem.drop k).take (n - k)))
      | .ret s' => some s'
      | .fault => none := by
  obtain ⟨n, rfl⟩ := Nat.exists_eq_succ_of_ne_zero hn
  rfl

theorem enhanceLoop_zero (fuel : ℕ) (s : Enhancer) (mem : Bytes) : enhanceLoop fuel s mem 0 = some s := by
  cases fuel <;> rfl

def enhanceStart (c : Connection) (info : CommonReplyInfo) : Enhancer :=
  if c.parseState = .unknownState then
    ⟨{ c with parseState := .type },
      { info with arraysSize := 0, curArrayPos := 0, curArraySize := 0 }, false⟩
  else ⟨c, info, false⟩

def parseEnhance (c : Connection) (info : CommonReplyInfo) (parseBuf : Bytes) (parseLen : ℕ) :
    Option (Connection × CommonReplyInfo) :=
  (enhanceLoop (parseLen + 1) (enhanceStart c info) parseBuf parseLen).map fun s => (s.conn, s.info)

/-! ### The receive loop -/

structure ReceiverOf (ι : Type) where
  conn : Connection := {}
  info : ι
  mallocLen : ℕ := readBuffSize
  deriving DecidableEq, Repr

def ReceiverOf.bufLen {ι : Type} (r : ReceiverOf ι) (recvLen : ℕ) : ℕ :=
  Receiver.bufLen { conn := r.conn, mallocLen := r.mallocLen } recvLen

section Loop

variable {ι : Type} (parser : Connection → ι → Bytes → ℕ → Option (Connection × ι))

def recvStepOf (r : ReceiverOf ι) (d : Bytes) : Option (ReceiverOf ι) :=
  let toParseLen := r.conn.unparseBuf.length + d.length
  let mallocLen := r.bufLen d.length
  if 2 ^ 31 ≤ mallocLen ∨ mallocLen < toParseLen then none
  else
    let toParseBuf := r.conn.unparseBuf ++ d ++ List.replicate (mallocLen - toParseLen) 0
    (parser { r.conn with unparseBuf := [] } r.info toParseBuf toParseLen).map
      fun x => ⟨x.1, x.2, mallocLen⟩

def recvLoopOf : ReceiverOf ι → List Bytes → Option (Bool × ι × List Bytes)
  | r, [] => some (r.conn.valid, r.info, [])
  | r, d :: ds =>
    if r.conn.valid then some (true, r.info, d :: ds)
    else (recvStepOf parser r d).bind fun r' => recvLoopOf r' ds

theorem recvStepOf_eq {rc : ReceiverOf ι} {d : Bytes} (hfits : Fits rc.mallocLen rc.conn.unparseBuf)
    (hd : d.length < readBuffSize)
    (hsmall : rc.conn.unparseBuf ≠ [] → rc.conn.unparseBuf.length + d.length < 2 ^ 30) :
    ∃ m pad, (∀ tail : Bytes, tail.length ≤ (rc.conn.unparseBuf ++ d).length → Fits m tail) ∧
      recvStepOf parser rc d = (parser { rc.conn with unparseBuf := [] } rc.info
        ((rc.conn.unparseBuf ++ d) ++ 0 :: pad) (rc.conn.unparseBuf ++ d).length).map
          fun x => ⟨x.1, x.2, m⟩ := by
  obtain ⟨hsize, ⟨pad, hpad⟩, hm⟩ := Fits.buffer { conn := rc.conn, mallocLen := rc.mallocLen } d hfits hd
    hsmall
  have hsize : ¬ (2 ^ 31 ≤ rc.bufLen d.length ∨
      rc.bufLen d.length < rc.conn.unparseBuf.length + d.length) := hsize
  have hpad : List.replicate (rc.bufLen d.length - (rc.conn.unparseBuf.length + d.length)) 0 =
      (0 : UInt8) :: pad := hpad
  refine ⟨rc.bufLen d.length, pad, hm, ?_⟩
  rw [recvStepOf, if_neg hsize, hpad, List.length_append]

theorem recvLoopOf_valid {rc : ReceiverOf ι} (h : rc.conn.valid = true) (reads : List Bytes) :
    recvLoopOf parser rc reads = some (true, rc.info, reads) := by
  cases reads with
  | nil => rw [recvLoopOf, h]
  | cons d ds => rw [recvLoopOf, if_pos h]

end Loop

def recvWithParseEnhance (reads : List Bytes) : Option (Bool × CommonReplyInfo × List Bytes) :=
  recvLoopOf parseEnhance { info := {} } reads

end GBDownLinker
