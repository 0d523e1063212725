/-
**The data types of the Redis client, and the encoding of a command (`redisbase.h`, `redisbase.cpp`).**

A `char*` together with its length is a list of bytes; a pointer that may be `NULL` is an `Option`.
`createRedisCommand` returns the bytes it has written, or `none` where it returns `false`.
-/

import BackendProgramming.CText

set_option autoImplicit false

namespace GBDownLinker

open CText

inductive RedisReplyType where
  | unknown
  | nil
  | error
  | status
  | integer
  | string
  | array
  | multiArray
  deriving DecidableEq, Repr

structure ReplyArrayInfo where
  replyType : RedisReplyType := .unknown
  arrayValue : Option Bytes := none
  arrayLen : ℤ := 0
  deriving DecidableEq, Repr

structure RedisReplyInfo where
  replyType : RedisReplyType := .unknown
  resultString : Bytes := []
  intValue : ℤ := 0
  arrayList : List ReplyArrayInfo := []
  deriving DecidableEq, Repr

def encodePara (para : Bytes) : Bytes :=
  36 :: (intText (toInt32 para.length) ++ crlf ++ para ++ crlf)

def createRedisCommand (paraList : List Bytes) : Option Bytes :=
  if paraList.isEmpty then none
  else some (42 :: (intText (toInt32 paraList.length) ++ crlf) ++ paraList.flatMap encodePara)

end GBDownLinker
