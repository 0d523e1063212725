/-
**Connections that transactions give back.**

`PrepareTransaction` takes a connection from the pool and marks it as one that must not be reclaimed, and
`FinishTransaction` puts it back, whatever has happened.  It neither sends `discard` nor takes the mark away.
-/

import BackendProgramming.RedisTransaction
import BackendProgramming.NorahKeys

set_option autoImplicit false

namespace Norah

open CText TxServer GBDownLinker Option Function

/-! ### What the managers write -/

structure Channel where
  deviceId : Bytes
  channelDeviceId : Bytes
  deriving DecidableEq, Repr

def Channel.getChannelId (channel : Channel) : Bytes := channel.deviceId ++ channel.channelDeviceId

def ChannelMgr.setKey : Bytes := ascii "gbddrchannelset"

def ChannelMgr.recordKey (channelId : Bytes) : Bytes := ascii "gbddrchannelset" ++ channelId

inductive TransactionCall where
  | insertDevice (device : Device) (value : Bytes)
  | deleteDevice (device : Device)
  | insertChannel (channel : Channel) (value : Bytes)
  | deleteChannel (channel : Channel)
  | insertCmd (cmd : ExecutingInviteCmd) (value : Bytes) (workerThreadNo : ℤ)
  | deleteCmd (cmd : ExecutingInviteCmd) (workerThreadNo : ℤ)
  deriving DecidableEq, Repr

def insertInTransaction (recordKey value setKey id : Bytes) : List WriteCommand :=
  [.set recordKey value, .sadd setKey id]

def deleteInTransaction (recordKey setKey id : Bytes) : List WriteCommand :=
  [.del recordKey, .srem setKey id]

def TransactionCall.writes : TransactionCall → List WriteCommand
  | .insertDevice device value =>
    insertInTransaction (DeviceMgr.recordKey device.deviceId) value DeviceMgr.setKey device.deviceId
  | .deleteDevice device =>
    deleteInTransaction (DeviceMgr.recordKey device.deviceId) DeviceMgr.setKey device.deviceId
  | .insertChannel channel value =>
    insertInTransaction (ChannelMgr.recordKey channel.getChannelId) value ChannelMgr.setKey
      channel.getChannelId
  | .deleteChannel channel =>
    deleteInTransaction (ChannelMgr.recordKey channel.getChannelId) ChannelMgr.setKey
      channel.getChannelId
  | .insertCmd cmd value workerThreadNo =>
    insertInTransaction (ExecutingInviteCmdMgr.recordKey workerThreadNo cmd.getId) value
      (ExecutingInviteCmdMgr.setKey workerThreadNo) cmd.getId
  | .deleteCmd cmd workerThreadNo =>
    deleteInTransaction (ExecutingInviteCmdMgr.recordKey workerThreadNo cmd.getId)
      (ExecutingInviteCmdMgr.setKey workerThreadNo) cmd.getId

namespace PoolReturn

/-! ### The system -/

inductive PathCommand where
  | startTransaction
  | write (w : WriteCommand)
  | execTransaction
  deriving DecidableEq, Repr

def PathCommand.request : PathCommand → Request Bytes WriteCommand
  | .startTransaction => .multi
  | .write w => .op w
  | .execTransaction => .exec

def PathCommand.type : PathCommand → RedisCommandType
  | .startTransaction => .multi
  | .write w => w.type
  | .execTransaction => .exec

def path (call : TransactionCall) : List PathCommand :=
  .startTransaction :: call.writes.map .write ++ [.execTransaction]

structure Pool (C S : Type) where
  net : Net C C Bytes WriteCommand S
  available : C → Bool := fun _ => true
  canRelease : C → Bool := fun _ => true
  todo : C → Option (List PathCommand) := fun _ => none

abbrev Fate := TxServer.Fate Bytes RedisReplyType

inductive Event (C : Type) where
  | prepareTransaction (c : C) (call : TransactionCall)
  | command (c : C) (cmd : PathCommand) (fate : Fate)
  | finishTransaction (c : C)
  | other (c : C) (w : WriteCommand) (fate : Fate)
  | drop (c : C)
  deriving DecidableEq, Repr

variable {C S : Type} [DecidableEq C]

def step (exec : WriteCommand → S → S × Line) (σ : Pool C S) : Event C → Option (Pool C S)
  | .prepareTransaction c call =>
    if σ.available c then
      some
        { σ with
          available := update σ.available c false
          canRelease := update σ.canRelease c false
          todo := update σ.todo c (some (path call)) }
    else none
  | .command c cmd fate =>
    match σ.todo c with
    | some (cmd' :: rest) =>
      if cmd' = cmd then
        (σ.net.send (writeMachine exec) c c cmd.request fate).map fun (net, d) =>
          { σ with
            net
            todo := update σ.todo c
              (some (if doTransactionCommandInConnection cmd.type d then rest else [])) }
      else none
    | _ => none
  | .finishTransaction c =>
    match σ.todo c with
    | some [] =>
      some
        { σ with
          available := update σ.available c true
          todo := update σ.todo c none }
    | _ => none
  | .other c w fate =>
    if σ.available c then
      (σ.net.send (writeMachine exec) c c (.op w) fate).map fun (net, _) => { σ with net }
    else none
  | .drop c => some { σ with net := σ.net.drop c }

def start (store : S) : Pool C S :=
  { net := ⟨⟨store, fun _ => {}, []⟩, fun _ => true⟩ }

structure Clean (σ : Pool C S) (c : C) : Prop where
  notInMulti : (σ.net.server.conns c).queue = none
  notWatching : (σ.net.server.conns c).watched = []
  canRelease : σ.canRelease c = true

/-! ### Transactions that are left open -/

def closes : Fate → Bool
  | .lostAfter _ => true
  | .lostBefore _ => true
  | _ => false

def PathCommand.opens (cmd : PathCommand) (inMulti : Bool) (fate : Fate) : Bool :=
  match fate, cmd with
  | .delivered, .startTransaction => true
  | .delivered, .execTransaction => false
  | _, _ => inMulti && !closes fate

def opens (c : C) (inMulti : Bool) : Event C → Bool
  | .command c' cmd fate => if c' = c then cmd.opens inMulti fate else inMulti
  | .other c' _ fate => inMulti && !(c' = c && closes fate)
  | .drop c' => inMulti && c' ≠ c
  | _ => inMulti

def leftOpen (c : C) (events : List (Event C)) : Bool := events.foldl (opens c) false

/-! ### The invariant -/

structure Known (c : C) (inMulti : Bool) (σ : Pool C S) : Prop where
  queue : (σ.net.server.conns c).queue.isSome = inMulti
  watched : (σ.net.server.conns c).watched = []
  held : σ.todo c ≠ none → σ.canRelease c = false

omit [DecidableEq C] in
theorem known_start (c : C) (store : S) : Known c false (start store) :=
  ⟨rfl, rfl, fun h => absurd rfl h⟩

section Send

variable {exec : WriteCommand → S → S × Line} {net net' : Net C C Bytes WriteCommand S} {c c' : C}
  {fate : Fate} {d : Delivery Line Bytes RedisReplyType} {inMulti : Bool}

theorem send_lost {req : Request Bytes WriteCommand}
    (h : net.send (writeMachine exec) c c req fate = some (net', d)) (hfate : closes fate = true) :
    net'.server.conns c = {} := by
  cases fate with
  | lostAfter l =>
    obtain ⟨rfl, -⟩ := Prod.mk.inj (some.inj h)
    exact Server.setConn_conns_self _ _ _
  | lostBefore l =>
    obtain ⟨rfl, -⟩ := Prod.mk.inj (some.inj h)
    exact Server.setConn_conns_self _ _ _
  | _ => cases hfate

theorem send_command (cmd : PathCommand)
    (h : net.send (writeMachine exec) c c cmd.request fate = some (net', d))
    (hq : (net.server.conns c).queue.isSome = inMulti) (hw : (net.server.conns c).watched = []) :
    (net'.server.conns c).queue.isSome = cmd.opens inMulti fate ∧
      (net'.server.conns c).watched = [] := by
  cases fate with
  | delivered =>
    have hserver : net'.server = (net.server.serve (writeMachine exec) c c cmd.request).1 := by
      obtain ⟨rfl, -⟩ := Prod.mk.inj (some.inj h)
      rfl
    rw [hserver]
    cases cmd with
    | startTransaction =>
      obtain ⟨hq', hw'⟩ := Server.serve_multi_conn (writeMachine exec) c c net.server
      exact ⟨hq', hw'.trans hw⟩
    | write w =>
      obtain ⟨hq', hw'⟩ := Server.serve_op_conn (writeMachine exec) c c net.server w
      refine ⟨?_, hw'.trans hw⟩
      rw [PathCommand.request, hq', hq]
      exact (Bool.and_true inMulti).symm
    | execTransaction =>
      obtain ⟨hq', hw'⟩ := Server.serve_exec_conn (writeMachine exec) c c net.server
      exact ⟨congrArg isSome hq', hw'.elim (·.trans hw) id⟩
  | refused e =>
    obtain ⟨rfl, -⟩ := Prod.mk.inj (some.inj h)
    obtain ⟨hq', hw'⟩ := Server.refuse_conn c net.server cmd.request
    exact ⟨by simp [PathCommand.opens, closes, hq', hq], hw'.trans hw⟩
  | lostAfter l | lostBefore l =>
    rw [send_lost h rfl]
    exact ⟨by simp [PathCommand.opens, closes], rfl⟩
  | connectFailed =>
    obtain ⟨-, heq⟩ := ite_none_left_eq_some.1 h
    obtain ⟨rfl, -⟩ := Prod.mk.inj (some.inj heq)
    exact ⟨by simp [PathCommand.opens, closes, hq], hw⟩

theorem send_other {req : Request Bytes WriteCommand} (hne : c' ≠ c)
    (h : net.send (writeMachine exec) c c req fate = some (net', d)) :
    (net'.server.conns c').queue = (net.server.conns c').queue ∧
      (net'.server.conns c').watched = (net.server.conns c').watched := by
  have hframe := (Net.send_frame h hne).1
  exact ⟨hframe.queue, hframe.watched⟩

end Send

variable {exec : WriteCommand → S → S × Line} {σ σ' : Pool C S} {c : C} {inMulti : Bool}

theorem Known.step {e : Event C} (h : Known c inMulti σ) (hstep : PoolReturn.step exec σ e = some σ') :
    Known c (opens c inMulti e) σ' := by
  cases e with
  | prepareTransaction c' call =>
    obtain ⟨-, heq⟩ := ite_none_right_eq_some.1 hstep
    cases heq
    refine ⟨h.queue, h.watched, ?_⟩
    by_cases hc : c = c'
    · subst hc
      simp
    · simpa [hc] using h.held
  | command c' cmd fate =>
    rw [PoolReturn.step] at hstep
    split at hstep
    case h_2 => cases hstep
    case h_1 cmd' rest htodo =>
      obtain ⟨rfl, hsend⟩ := ite_none_right_eq_some.1 hstep
      obtain ⟨⟨net, d⟩, hnet, rfl⟩ := map_eq_some_iff.1 hsend
      by_cases hc : c' = c
      · subst hc
        obtain ⟨hq, hw⟩ := send_command _ hnet h.queue h.watched
        exact ⟨by simpa [opens] using hq, hw, fun _ => h.held (by simp [htodo])⟩
      · obtain ⟨hq, hw⟩ := send_other (Ne.symm hc) hnet
        refine ⟨by simpa [opens, hc, hq] using h.queue, by simpa [hw] using h.watched, ?_⟩
        simpa [Ne.symm hc] using h.held
  | finishTransaction c' =>
    rw [PoolReturn.step] at hstep
    split at hstep
    case h_2 => cases hstep
    case h_1 htodo =>
      cases hstep
      refine ⟨h.queue, h.watched, ?_⟩
      by_cases hc : c = c'
      · subst hc
        simp
      · simpa [hc] using h.held
  | other c' w fate =>
    obtain ⟨-, hsend⟩ := ite_none_right_eq_some.1 hstep
    obtain ⟨⟨net, d⟩, hnet, rfl⟩ := map_eq_some_iff.1 hsend
    by_cases hc : c' = c
    · subst hc
      obtain ⟨hq, hw⟩ := send_command (.write w) hnet h.queue h.watched
      refine ⟨?_, hw, h.held⟩
      rw [hq]
      cases fate <;> simp [opens, PathCommand.opens]
    · obtain ⟨hq, hw⟩ := send_other (Ne.symm hc) hnet
      exact ⟨by simpa [opens, hc, hq] using h.queue, by simpa [hw] using h.watched, h.held⟩
  | drop c' =>
    cases hstep
    by_cases hc : c' = c
    · subst hc
      exact ⟨by simp [opens, Net.drop, Server.close], by simp [Net.drop, Server.close], h.held⟩
    · have hconn : (σ.net.drop c').server.conns c = σ.net.server.conns c :=
        Server.setConn_conns_of_ne _ _ (Ne.symm hc)
      exact ⟨by simpa [opens, hc, hconn] using h.queue, by simpa [hconn] using h.watched, h.held⟩

theorem Known.run :
    ∀ (events : List (Event C)) (inMulti : Bool) (σ σ' : Pool C S), Known c inMulti σ →
      Lts.run (PoolReturn.step exec) σ events = some σ' → Known c (events.foldl (opens c) inMulti) σ' := by
  intro events
  induction events with
  | nil =>
    intro inMulti σ σ' h hrun
    cases hrun
    exact h
  | cons e events ih =>
    intro inMulti σ σ' h hrun
    obtain ⟨τ, hstep, hrest⟩ := Lts.run_cons hrun
    exact ih _ τ σ' (h.step hstep) hrest

/-! ### A connection that is given back -/

theorem released_connection (exec : WriteCommand → S → S × Line) (store : S) (events : List (Event C))
    (σ σ' : Pool C S) (c : C) (hrun : Lts.run (step exec) (start store) events = some σ)
    (hfinish : step exec σ (.finishTransaction c) = some σ') :
    σ'.available c = true ∧ (σ'.net.server.conns c).watched = [] ∧
      ((σ'.net.server.conns c).queue ≠ none ↔ leftOpen c events = true) ∧
      σ'.canRelease c = false ∧ ¬ Clean σ' c := by
  have hknown : Known c (leftOpen c events) σ := Known.run events false _ σ (known_start c store) hrun
  rw [step] at hfinish
  split at hfinish
  case h_2 => cases hfinish
  case h_1 htodo =>
    cases hfinish
    have hheld : σ.canRelease c = false := hknown.held (by simp [htodo])
    refine ⟨by simp, hknown.watched, ?_, hheld, ?_⟩
    · rw [← hknown.queue, isSome_iff_ne_none]
    · intro hclean
      have hfree : σ.canRelease c = true := hclean.canRelease
      rw [hheld] at hfree
      cases hfree

theorem released_connection_sample :
    let exec : WriteCommand → Unit → Unit × Line := fun _ s => (s, ⟨.plus, ascii "OK"⟩)
    let call : TransactionCall := .insertDevice ⟨ascii "34020000", [], 0, 0⟩ (ascii "v")
    let events := .prepareTransaction () call :: (path call).map (.command () · .delivered)
    ∃ σ σ', Lts.run (step exec) (start ()) events = some σ ∧
      step exec σ (.finishTransaction ()) = some σ' ∧ ¬ Clean σ' () := by
  intro exec call events
  have hreturns : ((Lts.run (step exec) (start ()) events).bind
      (step exec · (.finishTransaction ()))).isSome = true := by decide +kernel
  obtain ⟨σ', h⟩ := isSome_iff_exists.1 hreturns
  obtain ⟨σ, hrun, hfinish⟩ := bind_eq_some_iff.1 h
  exact ⟨σ, σ', hrun, hfinish, (released_connection exec () events σ σ' () hrun hfinish).2.2.2.2⟩

theorem released_in_multi :
    let exec : WriteCommand → Unit → Unit × Line := fun _ s => (s, ⟨.plus, ascii "OK"⟩)
    let call : TransactionCall := .insertDevice ⟨ascii "34020000", [], 0, 0⟩ (ascii "v")
    let set : WriteCommand := .set (DeviceMgr.recordKey (ascii "34020000")) (ascii "v")
    (Lts.run (step exec) (start ())
      [.prepareTransaction () call, .command () .startTransaction .delivered,
        .command () (.write set) (.refused (ascii "OOM command not allowed")),
        .finishTransaction ()]).map (fun σ =>
          (σ.available (), (σ.net.server.conns ()).queue, σ.canRelease ())) =
      some (true, some [], false) := by
  decide +kernel

end PoolReturn

end Norah
