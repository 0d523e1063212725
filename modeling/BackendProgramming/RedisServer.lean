/-
**What the client receives from a transactional server.**

Whether `RedisConnection::doRedisCommand` returns true, and the `RedisReplyInfo` it leaves.  How the results of the
commands themselves are sent is a parameter.
-/

import BackendProgramming.RedisBase
import BackendProgramming.TxServer

set_option autoImplicit false

namespace GBDownLinker

open CText TxServer

structure Replies (R : Type) where
  single : R → RedisReplyInfo
  element : R → ReplyArrayInfo

variable {R : Type}

def okElement : ReplyArrayInfo := ⟨.string, some (ascii "+OK"), 3⟩

def errorInfo (text : Bytes) : RedisReplyInfo := { replyType := .error, resultString := text }

def answerInfo (rep : Replies R) : Answer R → RedisReplyInfo
  | .ok => { replyType := .status, resultString := ascii "OK" }
  | .queued => { replyType := .status, resultString := ascii "QUEUED" }
  | .result r => rep.single r
  | .results rs => { replyType := .array, arrayList := rs.map fun r => r.elim okElement rep.element }
  | .nil => { replyType := .array, intValue := -1 }
  | .nested => errorInfo (ascii "ERR MULTI calls can not be nested")
  | .execWithoutMulti => errorInfo (ascii "ERR EXEC without MULTI")
  | .watchInMulti => errorInfo (ascii "ERR WATCH inside MULTI is not allowed")
  | .execAbort => errorInfo (ascii "EXECABORT Transaction discarded because of previous errors.")

def received (rep : Replies R) : Delivery R Bytes RedisReplyType → Bool × RedisReplyInfo
  | .answered ans => (true, answerInfo rep ans)
  | .refused text => (true, errorInfo text)
  | .lost type => (false, { replyType := type })
  | .notConnected => (false, {})

end GBDownLinker
