/-
**The resumable reply parser of a Redis connection (`redisconnection.cpp`).**

`RedisConnection::recv` puts what the parser has left unparsed in front of the bytes of a read, zero-fills the
rest of the buffer and calls `parse`, which continues from the parse state in the connection.  The members that
survive a call are `Connection`; the local flag `haveArray` is a field of `Parser`.  The memory from `parseBuf`
on is a list of bytes, of which `n` are before `end`.  Whatever C leaves undefined is the outcome `none`.
-/

import BackendProgramming.RedisBase

set_option autoImplicit false

namespace GBDownLinker

open CText

def readBuffSize : ℕ := 4096

inductive RedisParseState where
  | unknownState
  | type
  | length
  | arrayLength
  | integer
  | result
  | string
  | cursorLen
  | cursor
  | keysLen
  | keyLen
  | key
  | checkArraysSize
  | resultOk
  | resultErr
  deriving DecidableEq, Repr

structure Connection where
  unparseBuf : Bytes := []
  parseState : RedisParseState := .unknownState
  valid : Bool := false
  arrayNum : ℤ := 0
  doneNum : ℤ := 0
  arrayLen : ℤ := 0
  deriving DecidableEq, Repr

structure Parser where
  conn : Connection
  info : RedisReplyInfo
  haveArray : Bool := false
  deriving DecidableEq, Repr

inductive Iter where
  | next (s : Parser) (k : ℕ)
  | checkBuf (s : Parser) (k : ℕ)
  | returnFalse (s : Parser)
  | fault
  deriving DecidableEq, Repr

def Parser.pushElement (s : Parser) (a : ReplyArrayInfo) : Parser :=
  { s with
    info := { s.info with arrayList := s.info.arrayList ++ [a] }
    conn :=
      if s.conn.doneNum + 1 < s.conn.arrayNum then
        { s.conn with doneNum := s.conn.doneNum + 1, parseState := .length }
      else { s.conn with doneNum := s.conn.doneNum + 1, valid := true } }

def parseType (s : Parser) (b : UInt8) : Iter :=
  match b with
  | 45 => .next { s with conn := { s.conn with parseState := .result },
                         info := { s.info with replyType := .error } } 1
  | 43 => .next { s with conn := { s.conn with parseState := .result },
                         info := { s.info with replyType := .status } } 1
  | 58 => .next { s with conn := { s.conn with parseState := .integer },
                         info := { s.info with replyType := .integer } } 1
  | 36 => .next { s with conn := { s.conn with parseState := .length, arrayNum := 1 },
                         info := { s.info with replyType := .string } } 1
  | 42 => .next { s with conn := { s.conn with parseState := .arrayLength },
                         info := { s.info with replyType := .array } } 1
  | _ => .returnFalse { s with info := { s.info with replyType := .unknown } }

def withLine (s : Parser) (mem : Bytes) (k : ℕ) (f : Bytes → Parser) : Iter :=
  match strstrCrlf mem with
  | .overrun => .fault
  | .absent => .checkBuf s k
  | .found p => if readBuffSize ≤ p then .fault else .next (f (mem.take p)) (k + p + 2)

def Parser.readLength (s : Parser) (line : Bytes) : Parser :=
  let s' := { s with conn := { s.conn with arrayLen := atoi line } }
  if atoi line ≠ -1 then { s' with conn := { s'.conn with parseState := .string } }
  else s'.pushElement ⟨.nil, none, -1⟩

def parseLength (s : Parser) (mem : Bytes) : Iter :=
  if s.haveArray = true ∧ (mem.head? = some 45 ∨ mem.head? = some 43 ∨ mem.head? = some 58) then
    match strstrCrlf mem with
    | .overrun => .fault
    | .absent => .checkBuf s 0
    | .found p =>
      if p = 0 then .checkBuf s 0
      else .next (s.pushElement ⟨.string, some (mem.take p), p⟩) (p + 2)
  else
    let k := if mem.head? = some 36 then 1 else 0
    withLine s (mem.drop k) k s.readLength

def parseString (s : Parser) (mem : Bytes) (n : ℕ) : Iter :=
  if 2 ^ 31 ≤ s.conn.arrayLen + 2 then .fault
  else if s.conn.arrayLen + 2 ≤ n then
    if s.conn.arrayLen < 0 then .fault
    else
      let len := s.conn.arrayLen.toNat
      .next (s.pushElement ⟨.string, some (mem.take len), s.conn.arrayLen⟩) (len + 2)
  else .checkBuf s 0

def Parser.readCount (s : Parser) (line : Bytes) : Parser :=
  let s' := { s with conn := { s.conn with arrayNum := atoi line } }
  if atoi line = 0 then { s' with conn := { s'.conn with valid := true } }
  else if atoi line = -1 then
    { s' with conn := { s'.conn with valid := true }, info := { s.info with intValue := -1 } }
  else { s' with conn := { s'.conn with parseState := .length }, haveArray := true }

def parseIter (s : Parser) (mem : Bytes) (n : ℕ) : Iter :=
  match s.conn.parseState with
  | .type => parseType s (mem.headD 0)
  | .integer => withLine s mem 0 fun line =>
    { s with conn := { s.conn with valid := true }, info := { s.info with intValue := atoi line } }
  | .result => withLine s mem 0 fun line =>
    { s with conn := { s.conn with valid := true }, info := { s.info with resultString := line } }
  | .length => parseLength s mem
  | .string => parseString s mem n
  | .arrayLength => withLine s mem 0 s.readCount
  | _ => .next s 1

def Parser.saveTail (s : Parser) (tail : Bytes) : Parser :=
  if s.conn.valid = false ∧ tail ≠ [] then { s with conn := { s.conn with unparseBuf := tail } }
  else s

def parseLoop : ℕ → Parser → Bytes → ℕ → Option Parser
  | _, s, _, 0 => some s
  | 0, _, _, _ + 1 => none
  | fuel + 1, s, mem, n + 1 =>
    match parseIter s mem (n + 1) with
    | .next s' k => parseLoop fuel s' (mem.drop k) (n + 1 - k)
    | .checkBuf s' k => some (s'.saveTail ((mem.drop k).take (n + 1 - k)))
    | .returnFalse s' => some s'
    | .fault => none

def parse (c : Connection) (info : RedisReplyInfo) (parseBuf : Bytes) (parseLen : ℕ) :
    Option (Connection × RedisReplyInfo) :=
  let c := if c.parseState = .unknownState then { c with parseState := .type } else c
  (parseLoop parseLen ⟨c, info, false⟩ parseBuf parseLen).map fun s => (s.conn, s.info)

structure Receiver where
  conn : Connection := {}
  info : RedisReplyInfo := {}
  mallocLen : ℕ := readBuffSize
  deriving DecidableEq, Repr

def Receiver.bufLen (r : Receiver) (recvLen : ℕ) : ℕ :=
  if r.conn.unparseBuf ≠ [] ∧ r.mallocLen ≤ r.conn.unparseBuf.length + recvLen then r.mallocLen * 2
  else r.mallocLen

def recvStep (r : Receiver) (d : Bytes) : Option Receiver :=
  let toParseLen := r.conn.unparseBuf.length + d.length
  let mallocLen := r.bufLen d.length
  if 2 ^ 31 ≤ mallocLen ∨ mallocLen < toParseLen then none
  else
    let toParseBuf := r.conn.unparseBuf ++ d ++ List.replicate (mallocLen - toParseLen) 0
    (parse { r.conn with unparseBuf := [] } r.info toParseBuf toParseLen).map
      fun x => ⟨x.1, x.2, mallocLen⟩

def recvLoop : Receiver → List Bytes → Option (Bool × RedisReplyInfo × List Bytes)
  | r, [] => some (r.conn.valid, r.info, [])
  | r, d :: ds =>
    if r.conn.valid then some (true, r.info, d :: ds)
    else (recvStep r d).bind fun r' => recvLoop r' ds

def recv (reads : List Bytes) : Option (Bool × RedisReplyInfo × List Bytes) :=
  recvLoop {} reads

end GBDownLinker
