/-
**The queue between the callers and the restorer thread.**

The calls of `CDownDataRestorerRedis` that change data put operations into a queue, and the restorer thread takes
them out and hands them to the managers.  The check before the lock is a parameter; the one in the source,
`CHECK_CONDITION(workStatus_!=UnrecoverableException)`, expands to `if(!workStatus_!=UnrecoverableException) return
RESTORER_FAIL`, where the negation applies to `workStatus_` alone.
-/

import BackendProgramming.Lts
import BackendProgramming.RestorerManagers

set_option autoImplicit false

namespace GBDownLinker

open CText List Option

variable {T : EntityTypes}

/-! ### Operations -/

inductive DataRestorerOperation (T : EntityTypes) where
  | insertDevice (g : Bytes) (device : Device T.device)
  | insertChannel (g : Bytes) (channel : Channel T.channel)
  | insertInvite (g : Bytes) (workerThreadIdx : ℤ) (cmd : ExecutingInviteCmd T.invite)
  | updateDevice (g : Bytes) (device : Device T.device)
  | updateChannel (g : Bytes) (channel : Channel T.channel)
  | updateInvite (g : Bytes) (workerThreadIdx : ℤ) (cmd : ExecutingInviteCmd T.invite)
  | deleteDevice (g deviceId : Bytes)
  | deleteInvite (g : Bytes) (workerThreadIdx : ℤ) (cmdSenderId deviceId : Bytes) (cmdSeq : ℤ)
  | deleteChannelById (g deviceId channelDeviceId : Bytes)
  | deleteChannelByDeviceId (g deviceId : Bytes)
  | clearDevice (g : Bytes)
  | clearChannel (g : Bytes)
  | clearInvite (g : Bytes) (workerThreadIdx : ℤ)
  deriving DecidableEq

def DataRestorerOperation.process : DataRestorerOperation T → RedisM T ℤ
  | .insertDevice g x => GBDownLinker.insertDevice g x
  | .insertChannel g x => GBDownLinker.insertChannel g x
  | .insertInvite g w x => GBDownLinker.insertInvite g w x
  | .updateDevice g x => GBDownLinker.updateDevice g x
  | .updateChannel g x => GBDownLinker.updateChannel g x
  | .updateInvite g w x => GBDownLinker.updateInvite g w x
  | .deleteDevice g d => GBDownLinker.deleteDevice g d
  | .deleteInvite g w s d q => GBDownLinker.deleteInvite g w s d q
  | .deleteChannelById g d c => GBDownLinker.deleteChannelById g d c
  | .deleteChannelByDeviceId g d => GBDownLinker.deleteChannelByDeviceId g d
  | .clearDevice g => GBDownLinker.clearDevice g
  | .clearChannel g => GBDownLinker.clearChannel g
  | .clearInvite g w => GBDownLinker.clearInvite g w

def DataRestorerOperation.apply (op : DataRestorerOperation T) (fates : List CommandFate)
    (store : Store T) : Store T :=
  (op.process ⟨store, fates⟩).2.store

def applyAll (store : Store T) (ops : List (DataRestorerOperation T)) : Store T :=
  ops.foldl (fun store op => op.apply [] store) store

def replay (store : Store T) (ops : List (DataRestorerOperation T × List CommandFate)) : Store T :=
  ops.foldl (fun store x => x.1.apply x.2 store) store

/-! ### Calls -/

def copyDevice {T : DeviceTypes} (device : Device T) : Device T :=
  { device with
    registerLastTime := none
    keepaliveLastTime := none
    channelList := some (device.channelList.getD []) }

inductive Call (T : EntityTypes) where
  | insertDeviceList (g : Bytes) (device : Option (Device T.device))
  | updateDeviceList (g : Bytes) (device : Option (Device T.device))
  | deleteDeviceList (g deviceId : Bytes)
  | clearDeviceList (g : Bytes)
  | insertChannelList (g : Bytes) (channel : Option (Channel T.channel))
  | updateChannelList (g : Bytes) (channel : Option (Channel T.channel))
  | deleteChannelListByDeviceId (g deviceId : Bytes)
  | deleteChannelListById (g deviceId channelDeviceId : Bytes)
  | clearChannelList (g : Bytes)
  | insertExecutingInviteCmdList (g : Bytes) (workerThreadIdx : ℤ)
      (cmd : Option (ExecutingInviteCmd T.invite))
  | updateExecutingInviteCmdList (g : Bytes) (workerThreadIdx : ℤ)
      (cmd : Option (ExecutingInviteCmd T.invite))
  | deleteExecutingInviteCmdList (g : Bytes) (workerThreadIdx : ℤ) (cmdSenderId deviceId : Bytes)
      (cmdSeq : ℤ)
  | clearExecutingInviteCmdList (g : Bytes) (workerThreadIdx : ℤ)
  deriving DecidableEq

def Call.operation : Call T → Option (DataRestorerOperation T)
  | .insertDeviceList g x | .updateDeviceList g x =>
    x.map fun device => .insertDevice g (copyDevice device)
  | .deleteDeviceList g d => some (.deleteDevice g d)
  | .clearDeviceList g => some (.clearDevice g)
  | .insertChannelList g x | .updateChannelList g x => x.map (.insertChannel g)
  | .deleteChannelListByDeviceId g d => some (.deleteChannelByDeviceId g d)
  | .deleteChannelListById g d c => some (.deleteChannelById g d c)
  | .clearChannelList g => some (.clearChannel g)
  | .insertExecutingInviteCmdList g w x | .updateExecutingInviteCmdList g w x =>
    x.map (.insertInvite g w)
  | .deleteExecutingInviteCmdList g w s d q => some (.deleteInvite g w s d q)
  | .clearExecutingInviteCmdList g w => some (.clearInvite g w)

inductive RestorerWorkStatus where
  | normal
  | recoverableException
  | unrecoverableException
  deriving DecidableEq, Repr

def RestorerWorkStatus.code : RestorerWorkStatus → ℕ
  | .normal => 0
  | .recoverableException => 1
  | .unrecoverableException => 2

def logicalNot (n : ℕ) : ℕ := if n = 0 then 1 else 0

def checkCondition (workStatus : RestorerWorkStatus) : Bool :=
  !(logicalNot workStatus.code != RestorerWorkStatus.unrecoverableException.code)

theorem checkCondition_eq_false (workStatus : RestorerWorkStatus) :
    checkCondition workStatus = false := by
  cases workStatus <;> rfl

/-! ### The transition system -/

inductive Thread (T : EntityTypes) where
  | absent
  | loop
  | counting
  | overflow
  | clearing
  | waiting
  | inHand (op : DataRestorerOperation T)
  | exited
  deriving DecidableEq

def Thread.held : Thread T → List (DataRestorerOperation T)
  | .inHand op => [op]
  | _ => []

structure Restorer (T : EntityTypes) where
  starting : Bool := false
  started : Bool := false
  forceThreadExit : Bool := false
  workStatus : RestorerWorkStatus := .normal
  queue : List (DataRestorerOperation T) := []
  thread : Thread T := .absent
  store : Store T
  admitted : List (Call T) := []
  made : List (Call T) := []
  enqueued : List (DataRestorerOperation T) := []
  applied : List (DataRestorerOperation T × List CommandFate) := []

inductive RestorerEvent (T : EntityTypes) where
  | start
  | startFails
  | startReturns
  | stop
  | stopReturns
  | call (c : Call T)
  | push (i : ℕ)
  | thread (fates : List CommandFate)
  | clientStatus (isNormal : Bool)

namespace Restorer

def unrecoverableQueueThreshold : ℕ := 30000

def threadStep (s : Restorer T) (fates : List CommandFate) : Option (Restorer T) :=
  match s.thread with
  | .absent | .exited => none
  | .loop =>
    if s.forceThreadExit then some { s with thread := .exited }
    else
      match s.workStatus with
      | .unrecoverableException => some { s with thread := .clearing }
      | .recoverableException => some { s with thread := .counting }
      | .normal => some { s with thread := .waiting }
  | .counting =>
    if unrecoverableQueueThreshold < s.queue.length then some { s with thread := .overflow }
    else some { s with thread := .loop }
  | .overflow => some { s with workStatus := .unrecoverableException, thread := .clearing }
  | .clearing => some { s with queue := [], thread := .exited }
  | .waiting =>
    if s.forceThreadExit then some { s with thread := .exited }
    else
      match s.queue with
      | [] => some s
      | op :: queue => some { s with queue := queue, thread := .inHand op }
  | .inHand op =>
    some { s with
      store := op.apply fates s.store
      thread := .loop
      applied := s.applied ++ [(op, fates)] }

def afterReport (workStatus : RestorerWorkStatus) (isNormal : Bool) : RestorerWorkStatus :=
  match workStatus, isNormal with
  | .normal, false => .recoverableException
  | .recoverableException, true => .normal
  | workStatus, _ => workStatus

def step (check : RestorerWorkStatus → Bool) (s : Restorer T) : RestorerEvent T → Option (Restorer T)
  | .start =>
    if s.started = false ∧ s.starting = false ∧ s.workStatus ≠ .unrecoverableException then
      some { s with starting := true, thread := .loop }
    else none
  | .startFails =>
    if s.started = false ∧ s.starting = false then
      some { s with workStatus := .unrecoverableException }
    else none
  | .startReturns =>
    if s.starting then some { s with starting := false, started := true } else none
  | .stop => if s.started then some { s with forceThreadExit := true } else none
  | .stopReturns =>
    if s.started = true ∧ s.forceThreadExit = true ∧ s.thread = .exited then
      some { s with started := false }
    else none
  | .call c =>
    if s.started then
      if check s.workStatus then some { s with made := s.made ++ [c], admitted := s.admitted ++ [c] }
      else some { s with made := s.made ++ [c] }
    else some s
  | .push i =>
    match s.admitted[i]? with
    | none => none
    | some c =>
      match c.operation with
      | none => some { s with admitted := s.admitted.eraseIdx i }
      | some op => some { s with
          admitted := s.admitted.eraseIdx i
          queue := s.queue ++ [op]
          enqueued := s.enqueued ++ [op] }
  | .thread fates => s.threadStep fates
  | .clientStatus isNormal => some { s with workStatus := afterReport s.workStatus isNormal }

/-! ### What the queue keeps -/

structure Inv (init : Store T) (s : Restorer T) : Prop where
  order : s.enqueued = s.applied.map Prod.fst ++ (s.thread.held ++ s.queue)
  store_eq : s.store = replay init s.applied
  clearing : s.thread = .clearing → s.workStatus = .unrecoverableException
  idle : s.started = false → s.starting = false → s.thread = .absent ∨ s.thread = .exited

theorem start_inv (init : Store T) : Inv init { store := init } where
  order := rfl
  store_eq := rfl
  clearing := fun h => nomatch h
  idle := fun _ _ => Or.inl rfl

theorem replay_append (init : Store T) (ops : List (DataRestorerOperation T × List CommandFate))
    (op : DataRestorerOperation T) (fates : List CommandFate) :
    replay init (ops ++ [(op, fates)]) = op.apply fates (replay init ops) := by
  simp [replay]

variable {init : Store T} {s s' : Restorer T} {check : RestorerWorkStatus → Bool}

theorem Inv.move (hs : Inv init s) {thread : Thread T} (hold : s.thread.held = [])
    (hnew : thread.held = []) (hclearing : thread ≠ .clearing)
    (hidle : s.thread = .absent ∨ s.thread = .exited → thread = .absent ∨ thread = .exited) :
    Inv init { s with thread := thread } where
  order := by simpa [hold, hnew] using hs.order
  store_eq := hs.store_eq
  clearing := fun h => absurd h hclearing
  idle := fun h h' => hidle (hs.idle h h')

theorem threadStep_inv {fates : List CommandFate} (hs : Inv init s)
    (hstatus : s.workStatus ≠ .unrecoverableException) (h : s.threadStep fates = some s') :
    Inv init s' := by
  cases ht : s.thread with
  | absent => simp [threadStep, ht] at h
  | exited => simp [threadStep, ht] at h
  | loop =>
    have hold : s.thread.held = [] := by simp [ht, Thread.held]
    simp only [threadStep, ht] at h
    split at h
    · cases h
      exact hs.move hold rfl (by simp) (by simp [ht])
    · split at h
      case h_1 hw => exact absurd hw hstatus
      case h_2 =>
        cases h
        exact hs.move hold rfl (by simp) (by simp [ht])
      case h_3 =>
        cases h
        exact hs.move hold rfl (by simp) (by simp [ht])
  | counting =>
    have hold : s.thread.held = [] := by simp [ht, Thread.held]
    simp only [threadStep, ht] at h
    split at h
    · cases h
      exact hs.move hold rfl (by simp) (by simp [ht])
    · cases h
      exact hs.move hold rfl (by simp) (by simp [ht])
  | overflow =>
    simp only [threadStep, ht] at h
    cases h
    refine ⟨by simpa [ht, Thread.held] using hs.order, hs.store_eq, fun _ => rfl, fun h h' => ?_⟩
    exact absurd (hs.idle h h') (by simp [ht])
  | clearing => exact absurd (hs.clearing ht) hstatus
  | waiting =>
    have hold : s.thread.held = [] := by simp [ht, Thread.held]
    simp only [threadStep, ht] at h
    split at h
    · cases h
      exact hs.move hold rfl (by simp) (by simp [ht])
    · split at h
      · cases h
        exact hs
      · rename_i op queue hq
        cases h
        refine ⟨by simpa [ht, hq, Thread.held] using hs.order, hs.store_eq, by simp, fun h h' => ?_⟩
        exact absurd (hs.idle h h') (by simp [ht])
  | inHand op =>
    simp only [threadStep, ht] at h
    cases h
    refine ⟨by simpa [ht, Thread.held] using hs.order, ?_, by simp, fun h h' => ?_⟩
    · rw [replay_append, ← hs.store_eq]
    · exact absurd (hs.idle h h') (by simp [ht])

theorem afterReport_ne {workStatus : RestorerWorkStatus} (isNormal : Bool)
    (h : workStatus = .unrecoverableException) :
    afterReport workStatus isNormal = .unrecoverableException := by
  subst h
  rfl

theorem step_inv {e : RestorerEvent T} (hs : Inv init s)
    (hstatus : s.workStatus ≠ .unrecoverableException) (h : step check s e = some s') :
    Inv init s' := by
  cases e with
  | start =>
    simp only [step] at h
    split at h
    case isFalse => cases h
    case isTrue hidle =>
      cases h
      have hold : s.thread.held = [] := by
        rcases hs.idle hidle.1 hidle.2.1 with ht | ht <;> rw [ht] <;> rfl
      have horder := hs.order
      rw [hold] at horder
      exact ⟨horder, hs.store_eq, by simp, by simp⟩
  | startFails =>
    simp only [step] at h
    split at h
    case isFalse => cases h
    case isTrue =>
      cases h
      exact ⟨hs.order, hs.store_eq, fun _ => rfl, hs.idle⟩
  | startReturns =>
    simp only [step] at h
    split at h
    case isFalse => cases h
    case isTrue =>
      cases h
      exact ⟨hs.order, hs.store_eq, hs.clearing, by simp⟩
  | stop =>
    simp only [step] at h
    split at h
    case isFalse => cases h
    case isTrue =>
      cases h
      exact ⟨hs.order, hs.store_eq, hs.clearing, hs.idle⟩
  | stopReturns =>
    simp only [step] at h
    split at h
    case isFalse => cases h
    case isTrue hexit =>
      cases h
      exact ⟨hs.order, hs.store_eq, hs.clearing, fun _ _ => Or.inr hexit.2.2⟩
  | call c =>
    simp only [step] at h
    split at h
    · split at h <;> cases h
      · exact ⟨hs.order, hs.store_eq, hs.clearing, hs.idle⟩
      · exact ⟨hs.order, hs.store_eq, hs.clearing, hs.idle⟩
    · cases h
      exact hs
  | push i =>
    simp only [step] at h
    split at h
    · cases h
    · split at h <;> cases h
      · exact ⟨hs.order, hs.store_eq, hs.clearing, hs.idle⟩
      · exact ⟨by simp [hs.order], hs.store_eq, hs.clearing, hs.idle⟩
  | thread fates => exact threadStep_inv hs hstatus h
  | clientStatus isNormal =>
    cases h
    exact ⟨hs.order, hs.store_eq, fun ht => afterReport_ne isNormal (hs.clearing ht), hs.idle⟩

def Recoverable (s : Restorer T) (_ : RestorerEvent T) : Prop :=
  s.workStatus ≠ .unrecoverableException

instance (s : Restorer T) (e : RestorerEvent T) : Decidable (Recoverable s e) :=
  inferInstanceAs (Decidable (_ ≠ _))

theorem run_inv {events : List (RestorerEvent T)}
    (hstatus : Lts.Along (step check) Recoverable { store := init } events)
    (h : Lts.run (step check) { store := init } events = some s) : Inv init s :=
  Lts.run_invariant (fun _ _ _ hs hstatus hstep => step_inv hs hstatus hstep) (start_inv init)
    hstatus h

theorem accepted_in_order {events : List (RestorerEvent T)}
    (hstatus : Lts.Along (step check) Recoverable { store := init } events)
    (h : Lts.run (step check) { store := init } events = some s) (hqueue : s.queue = [])
    (hthread : s.thread = .waiting) :
    s.applied.map Prod.fst = s.enqueued ∧ s.store = replay init s.applied := by
  have hs := run_inv hstatus h
  refine ⟨?_, hs.store_eq⟩
  rw [hs.order, hqueue, hthread]
  simp [Thread.held]

theorem replay_eq_applyAll {ops : List (DataRestorerOperation T × List CommandFate)}
    (hdone : ∀ x ∈ ops, x.2 = []) (store : Store T) :
    replay store ops = applyAll store (ops.map Prod.fst) := by
  induction ops generalizing store with
  | nil => rfl
  | cons x ops ih =>
    obtain ⟨hx, hops⟩ := forall_mem_cons.1 hdone
    simp only [replay, applyAll, foldl_cons, map_cons, hx]
    exact ih hops _

theorem accepted_fold {events : List (RestorerEvent T)}
    (hstatus : Lts.Along (step check) Recoverable { store := init } events)
    (h : Lts.run (step check) { store := init } events = some s) (hqueue : s.queue = [])
    (hthread : s.thread = .waiting) (hdone : ∀ x ∈ s.applied, x.2 = []) :
    s.store = applyAll init s.enqueued := by
  obtain ⟨happlied, hstore⟩ := accepted_in_order hstatus h hqueue hthread
  rw [hstore, ← happlied, replay_eq_applyAll hdone]

/-! ### What the check of the source lets through -/

theorem threadStep_calls {fates : List CommandFate} (h : s.threadStep fates = some s') :
    s'.admitted = s.admitted ∧ s'.enqueued = s.enqueued := by
  unfold threadStep at h
  repeat' split at h
  all_goals cases h <;> exact ⟨rfl, rfl⟩

theorem step_nothing {e : RestorerEvent T} (hcheck : ∀ workStatus, check workStatus = false)
    (hs : s.admitted = [] ∧ s.enqueued = []) (h : step check s e = some s') :
    s'.admitted = [] ∧ s'.enqueued = [] := by
  cases e with
  | push i => simp [step, hs.1] at h
  | thread fates =>
    obtain ⟨hadmitted, henqueued⟩ := threadStep_calls h
    rw [hadmitted, henqueued]
    exact hs
  | clientStatus isNormal =>
    cases h
    exact hs
  | call c =>
    simp only [step, hcheck, Bool.false_eq_true, if_false] at h
    split at h <;> cases h
    · exact hs
    · exact hs
  | start | startFails | startReturns | stop | stopReturns =>
    -- these events change the flags of the restorer, or cannot happen
    simp only [step] at h
    split at h
    · cases h
      exact hs
    · cases h

theorem run_nothing {events : List (RestorerEvent T)}
    (hstatus : Lts.Along (step checkCondition) Recoverable { store := init } events)
    (h : Lts.run (step checkCondition) { store := init } events = some s) :
    s.admitted = [] ∧ s.enqueued = [] :=
  Lts.run_invariant (I := fun s => s.admitted = [] ∧ s.enqueued = [])
    (fun _ _ _ hs _ hstep => step_nothing checkCondition_eq_false hs hstep) ⟨rfl, rfl⟩ hstatus h

def EveryCallAccepted (init : Store T) (s : Restorer T) : Prop :=
  (∀ c ∈ s.made, c ∈ s.admitted ∨ ∃ op ∈ s.enqueued, c.operation = some op) ∧
  (s.queue = [] → s.thread = .waiting → s.store = applyAll init s.enqueued)

theorem every_call_accepted_iff {events : List (RestorerEvent T)}
    (hstatus : Lts.Along (step checkCondition) Recoverable { store := init } events)
    (h : Lts.run (step checkCondition) { store := init } events = some s) :
    EveryCallAccepted init s ↔ s.made = [] := by
  obtain ⟨hadmitted, henqueued⟩ := run_nothing hstatus h
  constructor
  · intro hall
    refine eq_nil_iff_forall_not_mem.2 fun c hc => ?_
    rcases hall.1 c hc with hc | ⟨op, hop, -⟩
    · exact absurd (hadmitted ▸ hc) not_mem_nil
    · exact absurd (henqueued ▸ hop) not_mem_nil
  · intro hmade
    refine ⟨fun c hc => absurd (hmade ▸ hc) not_mem_nil, fun hqueue hthread => ?_⟩
    -- nothing has been accepted, so nothing has been applied
    have happlied := (accepted_in_order hstatus h hqueue hthread).1
    rw [henqueued, map_eq_nil_iff] at happlied
    exact accepted_fold hstatus h hqueue hthread (by simp [happlied])

def quietRun : List (RestorerEvent sampleTypes) :=
  [.start, .startReturns, .thread [], .clientStatus false, .thread [], .clientStatus true, .thread []]

theorem every_call_accepted_quiet :
    ∃ s, Lts.run (step checkCondition) { store := ∅ } quietRun = some s ∧ s.thread = .waiting ∧
      EveryCallAccepted ∅ s := by
  refine ⟨_, rfl, rfl, ?_⟩
  exact (@every_call_accepted_iff _ _ _ quietRun (by decide) rfl).2 rfl

def insertRun : List (RestorerEvent sampleTypes) :=
  [.start, .startReturns, .call (.insertChannelList (ascii "G") (some default)), .thread []]

theorem insert_turned_away :
    ∃ s, Lts.run (step checkCondition) { store := ∅ } insertRun = some s ∧
      Lts.Along (step checkCondition) Recoverable { store := ∅ } insertRun ∧
      s.thread = .waiting ∧ s.queue = [] ∧ s.enqueued = [] ∧ ¬ EveryCallAccepted ∅ s := by
  refine ⟨_, rfl, by decide, rfl, rfl, rfl, fun h => ?_⟩
  rcases h.1 _ (mem_singleton.2 rfl) with h | ⟨op, h, -⟩
  · exact not_mem_nil h
  · exact not_mem_nil h

end Restorer

end GBDownLinker
