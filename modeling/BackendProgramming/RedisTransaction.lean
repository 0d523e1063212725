/-
**Transactions of the Redis client.**

A caller takes a connection with `PrepareTransaction`, opens a transaction on it, issues write commands and calls
`ExecTransaction`; each command goes through `doTransactionCommandInConnection`, which judges the reply by the type
of the command.  The server is the one of `TxServer`, with an arbitrary semantics of the write commands.
-/

import Mathlib.Data.List.ReduceOption
import BackendProgramming.Lts
import BackendProgramming.RedisParse
import BackendProgramming.RedisServer

set_option autoImplicit false

namespace GBDownLinker

open CText Resp TxServer List Option Function

/-! ### Commands and replies -/

inductive WriteCommand where
  | set (key value : Bytes)
  | del (key : Bytes)
  | sadd (setKey member : Bytes)
  | srem (setKey member : Bytes)
  deriving DecidableEq, Repr

def WriteCommand.key : WriteCommand → Bytes
  | .set key _ => key
  | .del key => key
  | .sadd setKey _ => setKey
  | .srem setKey _ => setKey

structure Line where
  sign : Sign
  text : Bytes
  deriving DecidableEq, Repr

def lineReplies : Replies Line where
  single := fun l =>
    match l.sign with
    | .plus => replyInfo (.status l.text)
    | .minus => replyInfo (.error l.text)
    | .colon => replyInfo (.int l.text)
  element := fun l => elementInfo (.line l.sign l.text)

variable {C S : Type}

def writeMachine (exec : WriteCommand → S → S × Line) : Machine Bytes WriteCommand S Line where
  run := exec
  isWrite := fun _ => true
  touches := fun w key => w.key = key

inductive RedisCommandType where
  | set
  | del
  | sadd
  | srem
  | watch
  | unwatch
  | multi
  | discard
  | exec
  deriving DecidableEq, Repr

def WriteCommand.type : WriteCommand → RedisCommandType
  | .set _ _ => .set
  | .del _ => .del
  | .sadd _ _ => .sadd
  | .srem _ _ => .srem

def parseStatusResponseReply (replyInfo : RedisReplyInfo) : Bool := replyInfo.replyType = .status

def parseQueuedResponseReply (replyInfo : RedisReplyInfo) : Bool := replyInfo.replyType = .status

def execScan : List ReplyArrayInfo → Bool
  | [] => true
  | e :: es =>
    if e.replyType = .string then
      let v := e.arrayValue.getD []
      if v.take 1 = ascii "-" then false
      else if v.take 2 = ascii ":0" then true
      else if v.take 3 = ascii "$-1" then false
      else if v.take 3 = ascii "*-1" then false
      else execScan es
    else execScan es

def parseExecReply (replyInfo : RedisReplyInfo) : Bool :=
  if replyInfo.replyType = .nil then false
  else if replyInfo.replyType ≠ .array then false
  else if replyInfo.intValue = -1 then false
  else execScan replyInfo.arrayList

def doTransactionCommandInConnection (commandType : RedisCommandType)
    (d : Delivery Line Bytes RedisReplyType) : Bool :=
  if (received lineReplies d).1 then
    match commandType with
    | .set | .del | .sadd | .srem => parseQueuedResponseReply (received lineReplies d).2
    | .watch | .unwatch | .multi | .discard => parseStatusResponseReply (received lineReplies d).2
    | .exec => parseExecReply (received lineReplies d).2
  else false

namespace Transaction

/-! ### The system -/

inductive Pc where
  | start (todo : List WriteCommand)
  | writing (todo : List WriteCommand)
  | finished (ret : Option Bool)
  deriving DecidableEq, Repr

structure Session (C S : Type) where
  net : Net C C Bytes WriteCommand S
  pc : Pc
  execReply : Option (List Line) := none

abbrev Fate := TxServer.Fate Bytes RedisReplyType

inductive Event (C : Type) where
  | command (fate : Fate) (stop : Bool)
  | other (c : C) (req : Request Bytes WriteCommand) (fate : Fate)
  | drop (c : C)
  deriving DecidableEq, Repr

def linesOf : Answer Line → Option (List Line)
  | .results rs => some rs.reduceOption
  | _ => none

variable [DecidableEq C]

def execReplyOf (exec : WriteCommand → S → S × Line) (c : C) (net : Net C C Bytes WriteCommand S) :
    Fate → Option (List Line)
  | .delivered => linesOf (net.server.serve (writeMachine exec) c c .exec).2
  | .lostAfter _ => linesOf (net.server.serve (writeMachine exec) c c .exec).2
  | _ => none

def step (exec : WriteCommand → S → S × Line) (c : C) (σ : Session C S) :
    Event C → Option (Session C S)
  | .command fate stop =>
    match σ.pc with
    | .start ws =>
      (σ.net.send (writeMachine exec) c c .multi fate).map fun (net, d) =>
        { σ with
          net := net
          pc := if doTransactionCommandInConnection .multi d then .writing ws else .finished none }
    | .writing (w :: ws) =>
      (σ.net.send (writeMachine exec) c c (.op w) fate).map fun (net, d) =>
        { σ with
          net := net
          pc := if doTransactionCommandInConnection w.type d || !stop then .writing ws
            else .finished none }
    | .writing [] =>
      (σ.net.send (writeMachine exec) c c .exec fate).map fun (net, d) =>
        { net := net
          pc := .finished (some (doTransactionCommandInConnection .exec d))
          execReply := execReplyOf exec c σ.net fate }
    | .finished _ => none
  | .other c' req fate =>
    if c' = c then none
    else (σ.net.send (writeMachine exec) c' c' req fate).map fun (net, _) => { σ with net := net }
  | .drop c' => some { σ with net := σ.net.drop c' }

/-! ### The condition -/

def isZero (l : Line) : Bool := l.sign = .colon && l.text.take 1 = ascii "0"

def isError (l : Line) : Bool := l.sign = .minus

def noErrorBehindZero : List Line → Bool
  | [] => true
  | l :: ls => if isZero l then !ls.any isError else noErrorBehindZero ls

def isLostAfter : Fate → Bool
  | .lostAfter _ => true
  | _ => false

def Steady (exec : WriteCommand → S → S × Line) (c : C) (σ : Session C S) : Event C → Prop
  | .command fate _ =>
    match σ.pc with
    | .writing (_ :: _) => σ.net.opened c = true ∨ fate = .connectFailed
    | .writing [] => isLostAfter fate = false ∧
        (execReplyOf exec c σ.net fate).all noErrorBehindZero = true
    | _ => True
  | _ => True

instance (exec : WriteCommand → S → S × Line) (c : C) (σ : Session C S) (e : Event C) :
    Decidable (Steady exec c σ e) := by
  unfold Steady
  cases e with
  | command fate stop => dsimp only; split <;> infer_instance
  | _ => exact inferInstanceAs (Decidable True)

/-! ### The verdict on a reply -/

theorem execScan_line (l : Line) (es : List ReplyArrayInfo) :
    execScan (lineReplies.element l :: es) =
      if isError l then false else if isZero l then true else execScan es := by
  obtain ⟨sign, text⟩ := l
  have htype : (lineReplies.element ⟨sign, text⟩).replyType = .string := rfl
  have hval : (lineReplies.element ⟨sign, text⟩).arrayValue.getD [] = sign.byte :: text := rfl
  rw [execScan, if_pos htype, hval]
  cases sign <;>
    simp [Sign.byte, isError, isZero, show ascii "-" = [45] by decide,
      show ascii ":0" = [58, 48] by decide, show ascii "$-1" = [36, 45, 49] by decide,
      show ascii "*-1" = [42, 45, 49] by decide, show ascii "0" = [48] by decide]

theorem okElement_eq : okElement = lineReplies.element ⟨.plus, ascii "OK"⟩ := by decide

theorem execScan_results (rs : List (Option Line)) (h : noErrorBehindZero rs.reduceOption = true) :
    execScan (rs.map fun r => r.elim okElement lineReplies.element) =
      !rs.reduceOption.any isError := by
  induction rs with
  | nil => rfl
  | cons r rs ih =>
    cases r with
    | none =>
      rw [reduceOption_cons_of_none] at h ⊢
      rw [map_cons, elim_none, okElement_eq, execScan_line]
      exact ih h
    | some l =>
      rw [reduceOption_cons_of_some] at h ⊢
      rw [map_cons, elim_some, execScan_line, any_cons]
      rw [noErrorBehindZero] at h
      cases herr : isError l with
      | true => rfl
      | false =>
        cases hzero : isZero l with
        | true =>
          rw [hzero, if_pos rfl] at h
          simpa using h
        | false =>
          rw [hzero, if_neg Bool.false_ne_true] at h
          simpa using ih h

theorem parseExecReply_results {rs : List (Option Line)}
    (h : noErrorBehindZero rs.reduceOption = true) :
    doTransactionCommandInConnection .exec (.answered (.results rs)) =
      !rs.reduceOption.any isError := by
  rw [← execScan_results rs h]
  rfl

theorem refused_fails (commandType : RedisCommandType) (text : Bytes) :
    doTransactionCommandInConnection commandType (.refused text) = false := by
  cases commandType <;> rfl

theorem lost_fails {d : Delivery Line Bytes RedisReplyType}
    (h : d = .notConnected ∨ ∃ type, d = .lost type) (commandType : RedisCommandType) :
    doTransactionCommandInConnection commandType d = false := by
  rcases h with rfl | ⟨type, rfl⟩ <;> rfl

/-! ### The invariant -/

def TookEffect (c : C) (log₀ log : List (C × WriteCommand)) (ws : List WriteCommand) : Prop :=
  ∃ before after, log = log₀ ++ before ++ ws.map (Prod.mk c) ++ after ∧
    ∀ x ∈ before ++ after, x.1 ≠ c

omit [DecidableEq C] in
theorem TookEffect.refl (c : C) (log : List (C × WriteCommand)) : TookEffect c log log [] :=
  ⟨[], [], by simp, by simp⟩

variable {log₀ : List (C × WriteCommand)} {ws : List WriteCommand}

omit [DecidableEq C] in
theorem TookEffect.append {c : C} {log l : List (C × WriteCommand)}
    (h : TookEffect c log₀ log ws) (hl : ∀ x ∈ l, x.1 ≠ c) : TookEffect c log₀ (log ++ l) ws := by
  obtain ⟨before, after, rfl, hne⟩ := h
  refine ⟨before, after ++ l, by simp, fun x hx => ?_⟩
  rw [← append_assoc] at hx
  exact (mem_append.1 hx).elim (hne x) (hl x)

omit [DecidableEq C] in
theorem TookEffect.block {c : C} {log : List (C × WriteCommand)}
    (h : TookEffect c log₀ log []) (ws : List WriteCommand) :
    TookEffect c log₀ (log ++ ws.map (Prod.mk c)) ws := by
  obtain ⟨before, after, rfl, hne⟩ := h
  exact ⟨before ++ after, [], by simp, by simpa using hne⟩

def Settled (c : C) (log₀ log : List (C × WriteCommand)) (ws : List WriteCommand)
    (execReply : Option (List Line)) (ret : Option Bool) : Prop :=
  (TookEffect c log₀ log ws ∧ ∃ ls, execReply = some ls ∧ ret = some (!ls.any isError)) ∨
    (TookEffect c log₀ log [] ∧ execReply = none ∧ ret ≠ some true)

def Holds (κ : Conn Bytes WriteCommand) (done : List WriteCommand) : Prop :=
  ∃ q, κ.queue = some q ∧ (κ.dirtyExec = false → q = done.map .op)

structure Inv (c : C) (log₀ : List (C × WriteCommand)) (ws : List WriteCommand) (σ : Session C S) :
    Prop where
  closed : σ.net.opened c = false → (σ.net.server.conns c).queue = none
  progress :
    match σ.pc with
    | .start todo => todo = ws ∧ TookEffect c log₀ σ.net.server.log [] ∧ σ.execReply = none
    | .writing todo => TookEffect c log₀ σ.net.server.log [] ∧ σ.execReply = none ∧
        ∃ done, ws = done ++ todo ∧
          (σ.net.opened c = true → Holds (σ.net.server.conns c) done)
    | .finished ret => Settled c log₀ σ.net.server.log ws σ.execReply ret

section Send

variable {exec : WriteCommand → S → S × Line} {c : C} {net net' : Net C C Bytes WriteCommand S}
  {req : Request Bytes WriteCommand} {fate : Fate} {d : Delivery Line Bytes RedisReplyType}

theorem silent_send (hclosed : net.opened c = false → (net.server.conns c).queue = none)
    (hopen : net'.opened c = false)
    (h : net' = net ∨ net'.server = net.server.close c ∨
      (∃ l, fate = .lostAfter l) ∧
        net'.server = (net.server.serve (writeMachine exec) c c req).1.close c)
    (hlog : isLostAfter fate = true →
      (net.server.serve (writeMachine exec) c c req).1.log = net.server.log) :
    (net'.server.conns c).queue = none ∧ net'.server.log = net.server.log := by
  rcases h with rfl | hst | ⟨⟨l, rfl⟩, hst⟩
  · exact ⟨hclosed hopen, rfl⟩
  · exact ⟨by simp [hst, Server.close], by simp [hst, Server.close]⟩
  · exact ⟨by simp [hst, Server.close], by simpa [hst, Server.close] using hlog rfl⟩

theorem serve_multi_log (st : Server C C Bytes WriteCommand S) :
    (st.serve (writeMachine exec) c c .multi).1.log = st.log := by
  simp only [Server.serve]
  split <;> rfl

theorem start_inv {σ : Session C S}
    (hinv : Inv c log₀ ws σ) (hpc : σ.pc = .start ws)
    (h : σ.net.send (writeMachine exec) c c .multi fate = some (net', d)) :
    Inv c log₀ ws { σ with
      net := net'
      pc := if doTransactionCommandInConnection .multi d then .writing ws else .finished none } := by
  have hprogress := hinv.progress
  simp only [hpc] at hprogress
  obtain ⟨-, heffect, hreply⟩ := hprogress
  -- every failure leaves the caller done with nothing executed
  have hfail : doTransactionCommandInConnection .multi d = false →
      net'.server.log = σ.net.server.log →
      (net'.opened c = false → (net'.server.conns c).queue = none) →
      Inv c log₀ ws { σ with
        net := net'
        pc := if doTransactionCommandInConnection .multi d then .writing ws else .finished none } := by
    intro hd hlog hclosed
    rw [hd]
    exact ⟨hclosed, .inr ⟨by simpa [hlog] using heffect, hreply, by simp⟩⟩
  rcases Net.send_cases h with
    ⟨rfl, hst, hopen, rfl⟩ | ⟨text, rfl, hst, hopen, rfl⟩ | ⟨-, hopen, hd, hst⟩
  · cases hq : (σ.net.server.conns c).queue with
    | some q =>
      have hserve : σ.net.server.serve (writeMachine exec) c c .multi =
          (σ.net.server, .nested) := by simp [Server.serve, hq]
      rw [hserve] at hst hfail ⊢
      exact hfail rfl (by rw [hst]) fun ho => absurd (ho.symm.trans hopen) (by decide)
    | none =>
      have hserve : σ.net.server.serve (writeMachine exec) c c .multi =
          (σ.net.server.setConn c { σ.net.server.conns c with queue := some [] }, .ok) := by
        simp [Server.serve, hq]
      rw [hserve] at hst ⊢
      refine ⟨fun ho => absurd (ho.symm.trans hopen) (by decide), ?_, hreply, [], rfl, fun _ => ?_⟩
      · simpa [hst] using heffect
      · exact ⟨[], by simp [hst], fun _ => rfl⟩
  · exact hfail (refused_fails .multi text) (by rw [hst]; rfl)
      fun ho => absurd (ho.symm.trans hopen) (by decide)
  · obtain ⟨hq, hlog⟩ := silent_send hinv.closed hopen hst fun _ => serve_multi_log _
    exact hfail (lost_fails hd .multi) hlog fun _ => hq

omit [DecidableEq C] in
theorem write_inv_of {w : WriteCommand}
    {done todo : List WriteCommand} {σ : Session C S} {ok : Bool}
    (heffect : TookEffect c log₀ σ.net.server.log []) (hreply : σ.execReply = none)
    (hlog : net'.server.log = σ.net.server.log)
    (hclosed : net'.opened c = false → (net'.server.conns c).queue = none)
    (hholds : net'.opened c = true → Holds (net'.server.conns c) (done ++ [w])) :
    Inv c log₀ (done ++ w :: todo)
      { σ with net := net', pc := if ok then .writing todo else .finished none } := by
  refine ⟨hclosed, ?_⟩
  cases ok with
  | true => exact ⟨by simpa [hlog] using heffect, hreply, done ++ [w], by simp, hholds⟩
  | false => exact .inr ⟨by simpa [hlog] using heffect, hreply, by simp⟩

theorem write_inv {w : WriteCommand}
    {todo : List WriteCommand} {stop : Bool} {σ : Session C S} (hinv : Inv c log₀ ws σ)
    (hpc : σ.pc = .writing (w :: todo)) (hsteady : σ.net.opened c = true ∨ fate = .connectFailed)
    (h : σ.net.send (writeMachine exec) c c (.op w) fate = some (net', d)) :
    Inv c log₀ ws { σ with
      net := net'
      pc := if doTransactionCommandInConnection w.type d || !stop then .writing todo
        else .finished none } := by
  have hprogress := hinv.progress
  simp only [hpc] at hprogress
  obtain ⟨heffect, hreply, done, rfl, hholds⟩ := hprogress
  rcases Net.send_cases h with
    ⟨rfl, hst, hopen, rfl⟩ | ⟨text, rfl, hst, hopen, rfl⟩ | ⟨-, hopen, hd, hst⟩
  · -- the connection was open, so the write has joined the transaction
    obtain ⟨q, hq, hdone⟩ := hholds (hsteady.resolve_right (by simp))
    have hserve : σ.net.server.serve (writeMachine exec) c c (.op w) =
        (σ.net.server.setConn c { σ.net.server.conns c with queue := some (q ++ [.op w]) },
          .queued) := by
      simp [Server.serve, hq]
    rw [hserve] at hst ⊢
    refine write_inv_of heffect hreply (by rw [hst]; rfl)
      (fun ho => absurd (ho.symm.trans hopen) (by decide)) fun _ => ⟨q ++ [.op w], by simp [hst], ?_⟩
    intro hclean
    rw [hdone (by simpa [hst] using hclean), map_append, map_singleton]
  · obtain ⟨q, hq, hdone⟩ := hholds (hsteady.resolve_right (by simp))
    have hrefuse : σ.net.server.refuse c (.op w) =
        σ.net.server.setConn c { σ.net.server.conns c with dirtyExec := true } := by
      simp [Server.refuse, hq]
    rw [hrefuse] at hst
    refine write_inv_of heffect hreply (by rw [hst]; rfl)
      (fun ho => absurd (ho.symm.trans hopen) (by decide)) fun _ => ⟨q, by simp [hst, hq], ?_⟩
    intro hclean
    simp [hst] at hclean
  · have hlog : isLostAfter fate = true →
        (σ.net.server.serve (writeMachine exec) c c (.op w)).1.log = σ.net.server.log := by
      intro hlost
      obtain ⟨q, hq, -⟩ := hholds (hsteady.resolve_right (by rintro rfl; cases hlost))
      simp [Server.serve, hq]
    obtain ⟨hq, hlog'⟩ := silent_send hinv.closed hopen hst hlog
    exact write_inv_of heffect hreply hlog' (fun _ => hq)
      fun ho => absurd (ho.symm.trans hopen) (by decide)

theorem exec_inv {σ : Session C S}
    (hinv : Inv c log₀ ws σ) (hpc : σ.pc = .writing []) (hlost : isLostAfter fate = false)
    (hzero : (execReplyOf exec c σ.net fate).all noErrorBehindZero = true)
    (h : σ.net.send (writeMachine exec) c c .exec fate = some (net', d)) :
    Inv c log₀ ws
      { net := net'
        pc := .finished (some (doTransactionCommandInConnection .exec d))
        execReply := execReplyOf exec c σ.net fate } := by
  have hprogress := hinv.progress
  simp only [hpc, append_nil] at hprogress
  obtain ⟨heffect, hreply, done, rfl, hholds⟩ := hprogress
  -- a transaction that is not executed
  have hfail : doTransactionCommandInConnection .exec d = false →
      net'.server.log = σ.net.server.log → execReplyOf exec c σ.net fate = none →
      (net'.opened c = false → (net'.server.conns c).queue = none) →
      Inv c log₀ ws
        { net := net'
          pc := .finished (some (doTransactionCommandInConnection .exec d))
          execReply := execReplyOf exec c σ.net fate } := by
    intro hd hlog hnone hclosed
    exact ⟨hclosed, .inr ⟨by simpa [hlog] using heffect, hnone, by simp [hd]⟩⟩
  rcases Net.send_cases h with
    ⟨rfl, hst, hopen, rfl⟩ | ⟨text, rfl, hst, hopen, rfl⟩ | ⟨hfate, hopen, hd, hst⟩
  · have hclosed : net'.opened c = false → (net'.server.conns c).queue = none :=
      fun ho => absurd (ho.symm.trans hopen) (by decide)
    rw [execReplyOf] at hfail hzero ⊢
    rcases Server.serve_exec (writeMachine exec) c c σ.net.server with
      ⟨hlog, hans⟩ | ⟨q, hq, hexec, -, hserve⟩
    · rw [← hst] at hlog
      rcases hans with hans | hans | hans <;> rw [hans] at hfail ⊢ <;>
        exact hfail rfl hlog rfl hclosed
    · -- the queue is what the caller has written
      have hwas : σ.net.opened c = true := by
        by_contra ho
        rw [hinv.closed (by simpa using ho)] at hq
        cases hq
      obtain ⟨q', hq', hdone⟩ := hholds hwas
      obtain rfl : q = ws.map .op := by
        rw [← hdone hexec]
        exact some.inj (hq.symm.trans hq')
      rw [hserve] at hst hzero ⊢
      have hlog : net'.server.log = σ.net.server.log ++ ws.map (Prod.mk c) := by
        rw [hst, Server.setConn_log, Server.runQueue_op_log]
        simp [writeMachine]
      refine ⟨hclosed, .inl ⟨?_, _, rfl, ?_⟩⟩
      · dsimp only
        rw [hlog]
        exact heffect.block ws
      · rw [parseExecReply_results (by simpa [linesOf] using hzero)]
  · exact hfail (refused_fails .exec text) (by rw [hst]; rfl) rfl
      fun ho => absurd (ho.symm.trans hopen) (by decide)
  · have hnot : isLostAfter fate = true →
        (σ.net.server.serve (writeMachine exec) c c .exec).1.log = σ.net.server.log := by
      intro htrue
      rw [hlost] at htrue
      cases htrue
    obtain ⟨hq, hlog⟩ := silent_send hinv.closed hopen hst hnot
    refine hfail (lost_fails hd .exec) hlog ?_ fun _ => hq
    cases fate with
    | delivered => exact absurd rfl hfate
    | lostAfter l => cases hlost
    | _ => rfl

end Send

/-! ### Runs -/

omit [DecidableEq C] in
theorem Inv.frame {exec : WriteCommand → S → S × Line} {c : C} {l : List (C × WriteCommand)}
    {σ : Session C S} {net : Net C C Bytes WriteCommand S}
    (h : Inv c log₀ ws σ) (hframe : Net.Frame (writeMachine exec) σ.net net c)
    (hlog : net.server.log = σ.net.server.log ++ l) (hl : ∀ x ∈ l, x.1 ≠ c) :
    Inv c log₀ ws { σ with net := net } := by
  obtain ⟨hconn, hopen⟩ := hframe
  obtain ⟨net₀, pc, execReply⟩ := σ
  have hprogress := h.progress
  refine ⟨fun ho => by rw [hconn.queue]; exact h.closed (hopen ▸ ho), ?_⟩
  cases pc with
  | start todo =>
    obtain ⟨htodo, heffect, hreply⟩ := hprogress
    exact ⟨htodo, hlog ▸ heffect.append hl, hreply⟩
  | writing todo =>
    obtain ⟨heffect, hreply, done, hws, hholds⟩ := hprogress
    refine ⟨hlog ▸ heffect.append hl, hreply, done, hws, fun ho => ?_⟩
    obtain ⟨q, hq, hdone⟩ := hholds (hopen ▸ ho)
    exact ⟨q, hconn.queue.trans hq, fun hclean => hdone (hconn.dirtyExec ▸ hclean)⟩
  | finished ret =>
    rcases hprogress with ⟨heffect, hret⟩ | ⟨heffect, hret⟩
    · exact .inl ⟨hlog ▸ heffect.append hl, hret⟩
    · exact .inr ⟨hlog ▸ heffect.append hl, hret⟩

theorem Inv.dropOwn {c : C}
    {σ : Session C S} (h : Inv c log₀ ws σ) : Inv c log₀ ws { σ with net := σ.net.drop c } := by
  obtain ⟨net₀, pc, execReply⟩ := σ
  have hprogress := h.progress
  refine ⟨fun _ => by simp [Net.drop, Server.close], ?_⟩
  cases pc with
  | start todo => exact hprogress
  | writing todo =>
    obtain ⟨heffect, hreply, done, hws, -⟩ := hprogress
    exact ⟨heffect, hreply, done, hws, fun ho => by simp [Net.drop] at ho⟩
  | finished ret => exact hprogress

theorem step_inv {exec : WriteCommand → S → S × Line} {c : C}
    (σ : Session C S) (e : Event C) (σ' : Session C S)
    (h : Inv c log₀ ws σ) (hsteady : Steady exec c σ e) (hstep : step exec c σ e = some σ') :
    Inv c log₀ ws σ' := by
  cases e with
  | command fate stop =>
    simp only [step] at hstep
    simp only [Steady] at hsteady
    split at hstep
    · rename_i todo hpc
      have htodo := h.progress
      simp only [hpc] at htodo
      obtain ⟨rfl, -⟩ := htodo
      obtain ⟨⟨net, d⟩, hsend, rfl⟩ := map_eq_some_iff.1 hstep
      exact start_inv h hpc hsend
    · rename_i w todo hpc
      rw [hpc] at hsteady
      obtain ⟨⟨net, d⟩, hsend, rfl⟩ := map_eq_some_iff.1 hstep
      exact write_inv h hpc hsteady hsend
    · rename_i hpc
      rw [hpc] at hsteady
      obtain ⟨⟨net, d⟩, hsend, rfl⟩ := map_eq_some_iff.1 hstep
      exact exec_inv h hpc hsteady.1 hsteady.2 hsend
    · cases hstep
  | other c' req fate =>
    simp only [step] at hstep
    split at hstep
    · cases hstep
    · rename_i hne
      obtain ⟨⟨net, d⟩, hsend, rfl⟩ := map_eq_some_iff.1 hstep
      obtain ⟨l, hl, hactor⟩ := Net.send_log hsend
      exact h.frame (Net.send_frame hsend (Ne.symm hne)) hl fun x hx => by rw [hactor x hx]; exact hne
  | drop c' =>
    cases hstep
    rcases eq_or_ne c' c with rfl | hne
    · exact h.dropOwn
    · exact h.frame (l := []) (Net.drop_frame (writeMachine exec) hne.symm _)
        (by simp [Net.drop, Server.close]) (by simp)

theorem transaction_atomic (exec : WriteCommand → S → S × Line) (c : C)
    (net₀ : Net C C Bytes WriteCommand S)
    (hclosed : net₀.opened c = false → (net₀.server.conns c).queue = none)
    (ws : List WriteCommand) (es : List (Event C)) (σ : Session C S) (ret : Option Bool)
    (hrun : Lts.run (step exec c) { net := net₀, pc := .start ws } es = some σ)
    (hsteady : Lts.Along (step exec c) (Steady exec c) { net := net₀, pc := .start ws } es)
    (hfinished : σ.pc = .finished ret) :
    (TookEffect c net₀.server.log σ.net.server.log ws ∨
      TookEffect c net₀.server.log σ.net.server.log []) ∧
    (ret = some true ↔ TookEffect c net₀.server.log σ.net.server.log ws ∧
      ∃ ls, σ.execReply = some ls ∧ ∀ l ∈ ls, isError l = false) := by
  have hinit : Inv c net₀.server.log ws ({ net := net₀, pc := .start ws } : Session C S) :=
    ⟨hclosed, rfl, .refl c _, rfl⟩
  have hprogress := (Lts.run_invariant step_inv hinit hsteady hrun).progress
  simp only [hfinished] at hprogress
  rcases hprogress with ⟨heffect, ls, hreply, rfl⟩ | ⟨heffect, hreply, hret⟩
  · refine ⟨.inl heffect, ?_⟩
    simp [hreply, heffect]
  · refine ⟨.inr heffect, ?_⟩
    simp [hreply, hret]

/-! ### A server with strings and sets -/

inductive Value where
  | str (value : Bytes)
  | set (members : List Bytes)
  deriving DecidableEq, Repr

def wrongType : Line :=
  ⟨.minus, ascii "WRONGTYPE Operation against a key holding the wrong kind of value"⟩

def redisExec (w : WriteCommand) (store : Bytes → Option Value) : (Bytes → Option Value) × Line :=
  match w with
  | .set key value => (update store key (some (.str value)), ⟨.plus, ascii "OK"⟩)
  | .del key =>
    (update store key none, ⟨.colon, if (store key).isSome then ascii "1" else ascii "0"⟩)
  | .sadd setKey member =>
    match store setKey with
    | none => (update store setKey (some (.set [member])), ⟨.colon, ascii "1"⟩)
    | some (.set ms) =>
      if ms.contains member then (store, ⟨.colon, ascii "0"⟩)
      else (update store setKey (some (.set (member :: ms))), ⟨.colon, ascii "1"⟩)
    | some (.str _) => (store, wrongType)
  | .srem setKey member =>
    match store setKey with
    | none => (store, ⟨.colon, ascii "0"⟩)
    | some (.set ms) =>
      if ms.contains member then
        let rest := ms.erase member
        (update store setKey (if rest.isEmpty then none else some (.set rest)),
          ⟨.colon, ascii "1"⟩)
      else (store, ⟨.colon, ascii "0"⟩)
    | some (.str _) => (store, wrongType)

def session (ws : List WriteCommand) : Session Bool (Bytes → Option Value) where
  net :=
    { server :=
        { store := fun key => if key = ascii "s" then some (.str []) else none
          conns := fun _ => {}
          log := [] }
      opened := fun _ => false }
  pc := .start ws

def answered : Event Bool := .command .delivered true

theorem transaction_atomic_interleaved :
    ∃ σ, Lts.run (step redisExec true)
        (session [.set (ascii "k") (ascii "v"), .sadd (ascii "m") (ascii "k")])
        [answered, answered, .other false (.op (.del (ascii "k"))) .delivered, answered, answered] =
          some σ ∧
      σ.net.server.log = [(false, .del (ascii "k")), (true, .set (ascii "k") (ascii "v")),
        (true, .sadd (ascii "m") (ascii "k"))] ∧
      σ.pc = .finished (some true) ∧
      (TookEffect true [] σ.net.server.log
          [.set (ascii "k") (ascii "v"), .sadd (ascii "m") (ascii "k")] ∨
        TookEffect true [] σ.net.server.log []) ∧
      (some true = some true ↔ TookEffect true [] σ.net.server.log
          [.set (ascii "k") (ascii "v"), .sadd (ascii "m") (ascii "k")] ∧
        ∃ ls, σ.execReply = some ls ∧ ∀ l ∈ ls, isError l = false) := by
  have hrun : (Lts.run (step redisExec true)
      (session [.set (ascii "k") (ascii "v"), .sadd (ascii "m") (ascii "k")])
      [answered, answered, .other false (.op (.del (ascii "k"))) .delivered, answered,
        answered]).map (fun σ => (σ.net.server.log, σ.pc)) =
      some ([(false, .del (ascii "k")), (true, .set (ascii "k") (ascii "v")),
        (true, .sadd (ascii "m") (ascii "k"))], .finished (some true)) := by decide +kernel
  obtain ⟨σ, hσ, heq⟩ := map_eq_some_iff.1 hrun
  obtain ⟨hlog, hpc⟩ := Prod.mk.inj heq
  exact ⟨σ, hσ, hlog, hpc, transaction_atomic redisExec true (session []).net
    (fun _ => rfl) _ _ σ (some true) hσ (by decide +kernel) hpc⟩

theorem transaction_torn :
    (Lts.run (step redisExec true)
        (session [.set (ascii "k") (ascii "v"), .sadd (ascii "m") (ascii "k")])
        [answered, answered, .drop true, answered]).map (fun σ => (σ.pc, σ.net.server.log)) =
      some (.finished none, [(true, .sadd (ascii "m") (ascii "k"))]) ∧
    (Lts.run (step redisExec true)
        (session [.del (ascii "k"), .sadd (ascii "s") (ascii "k")])
        [answered, answered, answered, answered]).map (fun σ => (σ.pc, σ.execReply)) =
      some (.finished (some true), some [⟨.colon, ascii "0"⟩, wrongType]) ∧
    (Lts.run (step redisExec true) (session [.set (ascii "k") (ascii "v")])
        [answered, answered, .command (.lostAfter .unknown) true]).map
          (fun σ => (σ.pc, σ.net.server.log, σ.execReply)) =
      some (.finished (some false), [(true, .set (ascii "k") (ascii "v"))],
        some [⟨.plus, ascii "OK"⟩]) := by
  decide +kernel

end Transaction

end GBDownLinker
