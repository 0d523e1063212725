/-
**The optimistic lock of the Redis client.**

`getSerialWithLock` watches a key and reads it; `setSerialWithLock` writes it in a transaction.  Both send their
commands through `doRedisCommandWithLock`.  A system has the server of `TxServer` and any number of clients; an
event is one move of one client or of the network.  A command may be answered, refused, or lost before or after
its execution, and a closed connection is opened again without a word to the caller.
-/

import BackendProgramming.Lts
import BackendProgramming.RedisServer

set_option autoImplicit false

namespace Norah

open CText GBDownLinker TxServer

/-! ### The key -/

inductive KeyOp where
  | get
  | set (value : Bytes)
  deriving DecidableEq, Repr

inductive KeyResult where
  | value (v : Option Bytes)
  | stored
  deriving DecidableEq, Repr

def keyMachine : Machine Unit KeyOp (Option Bytes) KeyResult where
  run := fun
    | .get, v => (v, .value v)
    | .set w, _ => (some w, .stored)
  isWrite := fun
    | .get => false
    | .set _ => true
  touches := fun
    | .get, _ => false
    | .set _, _ => true

def keyReplies : Replies KeyResult where
  single := fun
    | .stored => { replyType := .status, resultString := ascii "OK" }
    | .value (some v) => { replyType := .string, arrayList := [⟨.string, some v, v.length⟩] }
    | .value none => { replyType := .string, arrayList := [⟨.nil, none, -1⟩] }
  element := fun
    | .stored => okElement
    | .value (some v) => ⟨.string, some v, v.length⟩
    | .value none => ⟨.nil, none, -1⟩

/-! ### Interpreting a reply -/

inductive Parsed where
  | failed
  | accepted
  | redirect (clusterId : Bytes)
  deriving DecidableEq, Repr

def toLower (b : UInt8) : UInt8 := if 65 ≤ b && b ≤ 90 then b + 32 else b

def checkIfNeedRedirect (info : RedisReplyInfo) : Option Bytes :=
  if info.replyType = .error ∧ (info.resultString.take 5).map toLower = ascii "moved" then
    if 32 ∈ info.resultString then some (info.resultString.reverse.takeWhile (· ≠ 32)).reverse
    else none
  else none

def parseReply (ok : RedisReplyInfo → Bool) (info : RedisReplyInfo) : Parsed :=
  match checkIfNeedRedirect info with
  | some target => .redirect target
  | none => if ok info then .accepted else .failed

def isLoaded (load : Bytes → Bool) (info : RedisReplyInfo) : Bool :=
  info.replyType = .string &&
    match info.arrayList with
    | [] => false
    | e :: _ => e.replyType ≠ .nil && load (e.arrayValue.getD [])

def parseGetSerialReply (load : Bytes → Bool) : RedisReplyInfo → Parsed := parseReply (isLoaded load)

def isStatus (info : RedisReplyInfo) : Bool := info.replyType = .status

def parseSetSerialReply : RedisReplyInfo → Parsed := parseReply isStatus

def parseStatusResponseReply : RedisReplyInfo → Parsed := parseReply isStatus

def isFailedElement (e : ReplyArrayInfo) : Bool :=
  e.replyType = .string &&
    match e.arrayValue with
    | none => false
    | some v => v.take 1 = ascii "-" || v.take 2 = ascii ":0"

def isExecuted (info : RedisReplyInfo) : Bool :=
  info.replyType = .array && info.intValue ≠ -1 && !info.arrayList.any isFailedElement

def parseExecReply : RedisReplyInfo → Parsed := parseReply isExecuted

/-! ### One command of a lock session -/

inductive Phase where
  | watch
  | get
  | getUnwatch
  | multi
  | set
  | exec
  | setUnwatch
  | releaseUnwatch
  deriving DecidableEq, Repr

def Phase.request (value : Bytes) : Phase → Request Unit KeyOp
  | .watch => .watch ()
  | .get => .op .get
  | .multi => .multi
  | .set => .op (.set value)
  | .exec => .exec
  | .getUnwatch | .setUnwatch | .releaseUnwatch => .unwatch

def Phase.parse (load : Bytes → Bool) : Phase → RedisReplyInfo → Parsed
  | .get => parseGetSerialReply load
  | .set => parseSetSerialReply
  | .exec => parseExecReply
  | .watch | .multi | .getUnwatch | .setUnwatch | .releaseUnwatch => parseStatusResponseReply

structure ClusterMap where
  bySlot : Option Bytes
  find : Bytes → Option (List Bytes)
  find_nil : find [] = none

structure Call where
  clusterId : Option Bytes
  redirects : List Bytes := []
  deriving DecidableEq, Repr

def beginCall (cm : ClusterMap) (lock : Bytes) : Call :=
  { clusterId := if lock = [] then cm.bySlot else some lock }

inductive CallStep where
  | again (call : Call) (free : Bool)
  | ret (ok : Bool) (lock : Bytes) (free : Bool)
  deriving DecidableEq, Repr

def afterParse (lock : Bytes) (call : Call) (clusterId : Bytes) (free : Bool) : Parsed → CallStep
  | .failed => .ret false lock false
  | .accepted => .ret true (if lock = [] then clusterId else lock) free
  | .redirect target =>
    if lock ≠ [] then .ret false lock free
    else if target ∈ call.redirects then .ret true target free
    else .again ⟨some target, call.redirects ++ [target]⟩ free

def afterSend (load : Bytes → Bool) (lock : Bytes) (call : Call) (clusterId : Bytes)
    (baks : List Bytes) (p : Phase) (ok : Bool) (info : RedisReplyInfo) : CallStep :=
  let free := decide (p.request [] = .unwatch) && decide (info.resultString ≠ ascii "OK")
  if ok then afterParse lock call clusterId free (p.parse load info)
  else if lock ≠ [] then .ret false lock false
  else
    match baks with
    | b :: _ => .again { call with clusterId := some b } false
    | [] => afterParse lock call clusterId free (p.parse load { info with arrayList := [] })

/-! ### The clients -/

inductive Pc where
  | idle
  | sending (p : Phase) (call : Call)
  | held
  | returned (ok : Bool)
  deriving DecidableEq, Repr

structure Client where
  pc : Pc := .idle
  lock : Bytes := []
  conn : ℕ := 0
  value : Bytes := []
  readAt : ℕ := 0
  commitAt : ℕ := 0
  deriving DecidableEq, Repr

def Client.inSession (cl : Client) : Bool :=
  match cl.pc with
  | .sending _ _ => true
  | .held => true
  | _ => false

def Client.enter (cm : ClusterMap) (p : Phase) (cl : Client) : Client :=
  { cl with pc := .sending p (beginCall cm cl.lock) }

def onReturn (cm : ClusterMap) (cl : Client) : Phase → Bool → Client
  | .watch, true => cl.enter cm .get
  | .watch, false => { cl with pc := .idle }
  | .get, true => { cl with pc := .held }
  | .get, false => cl.enter cm .getUnwatch
  | .getUnwatch, _ => { cl with pc := .idle }
  | .multi, true => cl.enter cm .set
  | .multi, false => cl.enter cm .setUnwatch
  | .set, true => cl.enter cm .exec
  | .set, false => cl.enter cm .setUnwatch
  | .exec, ok => { cl with pc := .returned ok }
  | .setUnwatch, _ => { cl with pc := .returned false }
  | .releaseUnwatch, _ => { cl with pc := .idle }

/-! ### The system -/

abbrev Fate := TxServer.Fate Bytes RedisReplyType

inductive Event (ι : Type) where
  | start (i : ι) (c : ℕ)
  | send (i : ι) (fate : Fate)
  | lookupFails (i : ι)
  | setSerialWithLock (i : ι) (value : Bytes)
  | releaseLock (i : ι)
  | pickUp (i : ι)
  | drop (c : ℕ)
  deriving DecidableEq, Repr

structure System (ι : Type) where
  net : Net ι ℕ Unit KeyOp (Option Bytes)
  client : ι → Client

variable {ι : Type} [DecidableEq ι]

def System.setClient (σ : System ι) (i : ι) (cl : Client) : System ι :=
  { σ with client := Function.update σ.client i cl }

def Client.mark (cl : Client) (p : Phase) (fate : Fate) (n : ℕ) : Client :=
  match p, fate with
  | .get, .delivered => { cl with readAt := n }
  | .exec, .delivered => { cl with commitAt := n }
  | _, _ => cl

def System.settle (cm : ClusterMap) (σ : System ι) (i : ι) (cl : Client) (p : Phase) :
    CallStep → System ι
  | .again call free =>
    (if free then { σ with net := σ.net.drop cl.conn } else σ).setClient i
      { cl with pc := .sending p call }
  | .ret ok lock free =>
    (if free then { σ with net := σ.net.drop cl.conn } else σ).setClient i
      (onReturn cm { cl with lock := lock } p ok)

variable [Fintype ι]

def step (cm : ClusterMap) (load : Bytes → Bool) (σ : System ι) : Event ι → Option (System ι)
  | .start i c =>
    if (σ.client i).pc = .idle ∧ ∀ j, (σ.client j).inSession = true → (σ.client j).conn ≠ c then
      some (σ.setClient i (Client.enter cm .watch { conn := c }))
    else none
  | .send i fate =>
    match (σ.client i).pc with
    | .sending p call =>
      match call.clusterId with
      | none => none
      | some clusterId =>
        match cm.find clusterId with
        | none => none
        | some baks =>
          (σ.net.send keyMachine i (σ.client i).conn (p.request (σ.client i).value) fate).map
            fun (net, d) =>
              System.settle cm { σ with net := net } i
                ((σ.client i).mark p fate σ.net.server.log.length) p
                (afterSend load (σ.client i).lock call clusterId baks p
                  (received keyReplies d).1 (received keyReplies d).2)
    | _ => none
  | .lookupFails i =>
    match (σ.client i).pc with
    | .sending p call =>
      if call.clusterId.bind cm.find = none then
        some (σ.setClient i (onReturn cm (σ.client i) p false))
      else none
    | _ => none
  | .setSerialWithLock i value =>
    if (σ.client i).pc = .held then
      some (σ.setClient i (Client.enter cm .multi { σ.client i with value := value }))
    else none
  | .releaseLock i =>
    if (σ.client i).pc = .held then
      if (σ.client i).lock = [] then some σ
      else some (σ.setClient i (Client.enter cm .releaseUnwatch (σ.client i)))
    else none
  | .pickUp i =>
    match (σ.client i).pc with
    | .returned _ => some (σ.setClient i { σ.client i with pc := .idle })
    | _ => none
  | .drop c => some { σ with net := σ.net.drop c }

def initial (v : Option Bytes) : System ι where
  net := { server := { store := v, conns := fun _ => {}, log := [] }, opened := fun _ => false }
  client := fun _ => {}

end Norah
