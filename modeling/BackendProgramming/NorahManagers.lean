/-
**The managers of the Norah restorer in cluster mode (`devicemgr.cpp`, `executinginvitecmdmgr.cpp`).**

A manager keeps a Redis set with the ids of its records and one key for each record, on different nodes, so
that each function is a sequence of separate commands, with one that takes the first back if the second fails.
What one manager keeps, or the invite manager for one worker thread, is a *shelf*.
-/

import BackendProgramming.Lts
import BackendProgramming.NorahKeys

set_option autoImplicit false

namespace Norah

open CText List Option

/-! ### Commands -/

inductive Value where
  | device (device : Device)
  | invite (cmd : ExecutingInviteCmd)
  | members (ids : List Bytes)
  deriving DecidableEq, Repr

abbrev Store := Bytes → Option Value

structure Redis where
  store : Store
  fails : List Bool := []

abbrev RedisM := StateM Redis

def failsNow (fails : List Bool) : Bool := fails.headD false

def attempt {α : Type} (command : Store → Store × α) (failed : α) : RedisM α := fun r =>
  if failsNow r.fails then (failed, ⟨r.store, r.fails.tail⟩)
  else ((command r.store).2, ⟨(command r.store).1, r.fails.tail⟩)

def setSerial (key : Bytes) (value : Value) : RedisM Bool :=
  attempt (fun s => (Function.update s key (some value), true)) false

def del (key : Bytes) : RedisM Bool :=
  attempt (fun s => (Function.update s key none, (s key).isSome)) false

def membersAt (s : Store) (key : Bytes) : Option (List Bytes) :=
  match s key with
  | none => some []
  | some (.members ids) => some ids
  | some _ => none

def setMembers (s : Store) (key : Bytes) (ids : List Bytes) : Store :=
  Function.update s key (if ids.isEmpty then none else some (.members ids))

def changeSet (key : Bytes) (change : List Bytes → List Bytes) : RedisM Bool :=
  attempt (fun s =>
    match membersAt s key with
    | some ids => (setMembers s key (change ids), true)
    | none => (s, false)) false

def sadd (key id : Bytes) : RedisM Bool := changeSet key fun ids => ids.insert id

def srem (key id : Bytes) : RedisM Bool := changeSet key fun ids => ids.filter (· ≠ id)

def smembers (key : Bytes) : RedisM (List Bytes) :=
  attempt (fun s => (s, (membersAt s key).getD [])) []

def undo (command : RedisM Bool) : RedisM Unit := fun r =>
  ((), ⟨(command ⟨r.store, []⟩).2.store, r.fails⟩)

/-! ### The common form of the functions -/

def insertInCluster (setKey key undoKey id : Bytes) (value : Value) : RedisM ℤ := do
  if (← setSerial key value) = false then return -1
  if ← sadd setKey id then return 0
  else
    undo (del undoKey)
    return -1

def deleteInCluster (setKey key undoKey id : Bytes) (value : Value) : RedisM ℤ := do
  if (← del key) = false then return -1
  if ← srem setKey id then return 0
  else
    undo (setSerial undoKey value)
    return -1

def delRecords (recordKey : Bytes → Bytes) : List Bytes → RedisM Unit
  | [] => return ()
  | id :: ids => do
    let _ ← del (recordKey id)
    delRecords recordKey ids

def clearShelf (setKey : Bytes) (recordKey : Bytes → Bytes) : RedisM ℤ := do
  let ids ← smembers setKey
  let _ ← del setKey
  delRecords recordKey ids
  return 0

def putRecords (setKey : Bytes) (recordKey : Bytes → Bytes) : List (Bytes × Value) → RedisM Unit
  | [] => return ()
  | (id, value) :: rest => do
    let _ ← sadd setKey id
    let _ ← setSerial (recordKey id) value
    putRecords setKey recordKey rest

def updateShelf (setKey : Bytes) (recordKey : Bytes → Bytes) (records : List (Bytes × Value)) :
    RedisM ℤ := do
  let _ ← clearShelf setKey recordKey
  putRecords setKey recordKey records
  return 0

/-! ### The managers -/

namespace DeviceMgr

def insertDeviceInCluster (device : Device) : RedisM ℤ :=
  insertInCluster setKey (recordKey device.deviceId) (recordKey device.deviceId) device.deviceId
    (.device device)

def deleteDeviceInCluster (device : Device) : RedisM ℤ :=
  deleteInCluster setKey (recordKey device.deviceId) (recordKey device.deviceId) device.deviceId
    (.device device)

def clearDevices : RedisM ℤ := clearShelf setKey recordKey

def updateDevices (devices : List Device) : RedisM ℤ :=
  updateShelf setKey recordKey (devices.map fun d => (d.deviceId, .device d))

end DeviceMgr

namespace ExecutingInviteCmdMgr

def undoKey (id : Bytes) : Bytes := keyPrefix ++ id

def forWorker (num workerThreadNo : ℤ) (m : RedisM ℤ) : RedisM ℤ :=
  if workerThreadNo < 0 ∨ num ≤ workerThreadNo then return -1 else m

def insert (num : ℤ) (cmd : ExecutingInviteCmd) (workerThreadNo : ℤ) : RedisM ℤ :=
  forWorker num workerThreadNo
    (insertInCluster (setKey workerThreadNo) (recordKey workerThreadNo cmd.getId) (undoKey cmd.getId)
      cmd.getId (.invite cmd))

def delete (num : ℤ) (cmd : ExecutingInviteCmd) (workerThreadNo : ℤ) : RedisM ℤ :=
  forWorker num workerThreadNo
    (deleteInCluster (setKey workerThreadNo) (recordKey workerThreadNo cmd.getId) (undoKey cmd.getId)
      cmd.getId (.invite cmd))

def clearWorker (num workerThreadNo : ℤ) : RedisM ℤ :=
  forWorker num workerThreadNo (clearShelf (setKey workerThreadNo) (recordKey workerThreadNo))

def updateWorker (num : ℤ) (cmdList : List ExecutingInviteCmd) (workerThreadNo : ℤ) : RedisM ℤ :=
  forWorker num workerThreadNo
    (updateShelf (setKey workerThreadNo) (recordKey workerThreadNo)
      (cmdList.map fun cmd => (cmd.getId, .invite cmd)))

def clearFrom (num : ℤ) : ℕ → ℕ → RedisM Unit
  | _, 0 => return ()
  | i, n + 1 => do
    let _ ← clearWorker num i
    clearFrom num (i + 1) n

def clear (num : ℤ) : RedisM ℤ := do
  clearFrom num 0 num.toNat
  return 0

def updateFrom (num : ℤ) : ℕ → List (List ExecutingInviteCmd) → RedisM Unit
  | _, [] => return ()
  | i, cmdList :: rest => do
    let _ ← updateWorker num cmdList i
    updateFrom num (i + 1) rest

def update (num : ℤ) (cmdLists : List (List ExecutingInviteCmd)) : RedisM ℤ := do
  if (cmdLists.length : ℤ) ≠ num then return -1
  updateFrom num 0 cmdLists
  return 0

end ExecutingInviteCmdMgr

/-! ### Calls -/

inductive ManagerCall where
  | insertDevice (device : Device)
  | deleteDevice (device : Device)
  | clearDevices
  | updateDevices (devices : List Device)
  | insert (cmd : ExecutingInviteCmd) (workerThreadNo : ℤ)
  | delete (cmd : ExecutingInviteCmd) (workerThreadNo : ℤ)
  | clearWorker (workerThreadNo : ℤ)
  | clear
  | updateWorker (cmdList : List ExecutingInviteCmd) (workerThreadNo : ℤ)
  | update (cmdLists : List (List ExecutingInviteCmd))
  deriving DecidableEq, Repr

def ManagerCall.exec (num : ℤ) : ManagerCall → RedisM ℤ
  | .insertDevice device => DeviceMgr.insertDeviceInCluster device
  | .deleteDevice device => DeviceMgr.deleteDeviceInCluster device
  | .clearDevices => DeviceMgr.clearDevices
  | .updateDevices devices => DeviceMgr.updateDevices devices
  | .insert cmd w => ExecutingInviteCmdMgr.insert num cmd w
  | .delete cmd w => ExecutingInviteCmdMgr.delete num cmd w
  | .clearWorker w => ExecutingInviteCmdMgr.clearWorker num w
  | .clear => ExecutingInviteCmdMgr.clear num
  | .updateWorker cmdList w => ExecutingInviteCmdMgr.updateWorker num cmdList w
  | .update cmdLists => ExecutingInviteCmdMgr.update num cmdLists

structure ManagerEvent where
  call : ManagerCall
  fails : List Bool := []
  deriving DecidableEq, Repr

def ManagerEvent.ret (num : ℤ) (e : ManagerEvent) (s : Store) : ℤ := (e.call.exec num ⟨s, e.fails⟩).1

def ManagerEvent.after (num : ℤ) (e : ManagerEvent) (s : Store) : Store :=
  (e.call.exec num ⟨s, e.fails⟩).2.store

def managerStep (num : ℤ) (s : Store) (e : ManagerEvent) : Option Store := some (e.after num s)

/-! ### What the functions do -/

section Effects

variable {α β : Type} {s : Store} {fails : List Bool}

theorem bind_run {m : RedisM α} {f : α → RedisM β} {r r' : Redis} {a : α} (h : m r = (a, r')) :
    (m >>= f) r = f a r' := by
  show (let (a, r') := m r; f a r') = _
  rw [h]

theorem attempt_failed {command : Store → Store × α} {failed : α} (h : failsNow fails = true) :
    attempt command failed ⟨s, fails⟩ = (failed, ⟨s, fails.tail⟩) := by
  rw [attempt, if_pos h]

theorem attempt_done {command : Store → Store × α} {failed : α} (h : failsNow fails = false) :
    attempt command failed ⟨s, fails⟩ = ((command s).2, ⟨(command s).1, fails.tail⟩) := by
  rw [attempt, if_neg (by simp [h])]

theorem changeSet_done {key : Bytes} {change : List Bytes → List Bytes} {ids : List Bytes}
    (hset : membersAt s key = some ids) (h : failsNow fails = false) :
    changeSet key change ⟨s, fails⟩ = (true, ⟨setMembers s key (change ids), fails.tail⟩) := by
  rw [changeSet, attempt_done h, hset]

theorem changeSet_failed {key : Bytes} {change : List Bytes → List Bytes}
    (h : failsNow fails = true) : changeSet key change ⟨s, fails⟩ = (false, ⟨s, fails.tail⟩) := by
  rw [changeSet, attempt_failed h]

variable {setKey key undoKey id : Bytes} {value : Value}

theorem insertInCluster_eq {ids : List Bytes}
    (hset : membersAt (Function.update s key (some value)) setKey = some ids) :
    insertInCluster setKey key undoKey id value ⟨s, fails⟩ =
      if failsNow fails then (-1, ⟨s, fails.tail⟩)
      else if failsNow fails.tail then
        (-1, ⟨Function.update (Function.update s key (some value)) undoKey none, fails.tail.tail⟩)
      else
        (0, ⟨setMembers (Function.update s key (some value)) setKey (ids.insert id),
          fails.tail.tail⟩) := by
  unfold insertInCluster
  cases h₀ : failsNow fails with
  | true =>
    rw [bind_run (m := setSerial key value) (attempt_failed h₀)]
    rfl
  | false =>
    rw [bind_run (m := setSerial key value) (attempt_done h₀)]
    dsimp only
    rw [if_neg (by decide)]
    cases h₁ : failsNow fails.tail with
    | true =>
      rw [bind_run (m := sadd setKey id) (changeSet_failed h₁)]
      rfl
    | false =>
      rw [bind_run (m := sadd setKey id) (changeSet_done hset h₁)]
      rfl

theorem deleteInCluster_eq {ids : List Bytes}
    (hset : membersAt (Function.update s key none) setKey = some ids) :
    deleteInCluster setKey key undoKey id value ⟨s, fails⟩ =
      if failsNow fails then (-1, ⟨s, fails.tail⟩)
      else if s key = none then (-1, ⟨Function.update s key none, fails.tail⟩)
      else if failsNow fails.tail then
        (-1, ⟨Function.update (Function.update s key none) undoKey (some value), fails.tail.tail⟩)
      else
        (0, ⟨setMembers (Function.update s key none) setKey (ids.filter (· ≠ id)),
          fails.tail.tail⟩) := by
  unfold deleteInCluster
  cases h₀ : failsNow fails with
  | true =>
    rw [bind_run (m := del key) (attempt_failed h₀)]
    rfl
  | false =>
    rw [bind_run (m := del key) (attempt_done h₀)]
    rw [if_neg Bool.false_ne_true]
    by_cases hnone : s key = none
    · rw [if_pos hnone, hnone]
      rfl
    · rw [if_neg hnone, if_neg (by simpa using hnone)]
      cases h₁ : failsNow fails.tail with
      | true =>
        rw [bind_run (m := srem setKey id) (changeSet_failed h₁)]
        rfl
      | false =>
        rw [bind_run (m := srem setKey id) (changeSet_done hset h₁)]
        rfl

end Effects

/-! ### Shelves -/

structure Shelf where
  setKey : Bytes
  recordKey : Bytes → Bytes
  ids : Set Bytes

namespace Shelf

def Owns (σ : Shelf) (key : Bytes) : Prop := key = σ.setKey ∨ ∃ id ∈ σ.ids, key = σ.recordKey id

structure Tidy (σ : Shelf) : Prop where
  injective : Function.Injective σ.recordKey
  ne_setKey : ∀ id ∈ σ.ids, σ.recordKey id ≠ σ.setKey

def Kept (σ : Shelf) (s : Store) : Prop :=
  ∃ ids, membersAt s σ.setKey = some ids ∧ (∀ id ∈ ids, id ∈ σ.ids) ∧
    ∀ id ∈ σ.ids, id ∈ ids ↔ s (σ.recordKey id) ≠ none

structure Done (σ : Shelf) (s : Store) (ret : ℤ) (s' : Store) : Prop where
  kept : σ.Kept s'
  frame : ∀ key, ¬ σ.Owns key → s' key = s key
  failed : ret = -1 → s' = s

end Shelf

theorem membersAt_congr {s s' : Store} {key : Bytes} (h : s' key = s key) :
    membersAt s' key = membersAt s key := by
  rw [membersAt, membersAt, h]

theorem membersAt_setMembers (s : Store) (key : Bytes) (ids : List Bytes) :
    membersAt (setMembers s key ids) key = some ids := by
  cases ids with
  | nil => simp [membersAt, setMembers]
  | cons id ids => simp [membersAt, setMembers]

theorem setMembers_of_ne {s : Store} {key key' : Bytes} (ids : List Bytes) (h : key' ≠ key) :
    setMembers s key ids key' = s key' :=
  Function.update_of_ne h _ _

namespace Shelf

variable {σ : Shelf} {s s' : Store} {fails : List Bool} {id undoKey : Bytes} {value : Value}

theorem Kept.congr (h : σ.Kept s) (heq : ∀ key, σ.Owns key → s' key = s key) : σ.Kept s' := by
  obtain ⟨ids, hset, hids, hagree⟩ := h
  refine ⟨ids, by rw [membersAt_congr (heq _ (.inl rfl)), hset], hids, fun id hid => ?_⟩
  rw [hagree id hid, heq _ (.inr ⟨id, hid, rfl⟩)]

theorem Done.of_eq (h : σ.Kept s) (ret : ℤ) : σ.Done s ret s := ⟨h, fun _ _ => rfl, fun _ => rfl⟩

theorem Tidy.membersAt_update (hσ : σ.Tidy) (hid : id ∈ σ.ids) (v : Option Value) :
    membersAt (Function.update s (σ.recordKey id) v) σ.setKey = membersAt s σ.setKey :=
  membersAt_congr (Function.update_of_ne (hσ.ne_setKey id hid).symm _ _)

theorem Tidy.done_change (hσ : σ.Tidy) (hid : id ∈ σ.ids) {v : Option Value} {ids ids' : List Bytes}
    (hids : ∀ id ∈ ids, id ∈ σ.ids) (hagree : ∀ id ∈ σ.ids, id ∈ ids ↔ s (σ.recordKey id) ≠ none)
    (hself : id ∈ ids' ↔ v ≠ none) (hother : ∀ id', id' ≠ id → (id' ∈ ids' ↔ id' ∈ ids)) :
    σ.Done s 0 (setMembers (Function.update s (σ.recordKey id) v) σ.setKey ids') := by
  refine ⟨⟨ids', membersAt_setMembers _ _ _, fun id' hid' => ?_, fun id' hid' => ?_⟩, fun key hkey => ?_,
    fun h => absurd h (by decide)⟩
  · rcases eq_or_ne id' id with rfl | hne
    · exact hid
    · exact hids id' ((hother id' hne).1 hid')
  · rw [setMembers_of_ne _ (hσ.ne_setKey id' hid')]
    rcases eq_or_ne id' id with rfl | hne
    · rw [Function.update_self, hself]
    · rw [Function.update_of_ne (fun h => hne (hσ.injective h)), hother id' hne, hagree id' hid']
  · rw [setMembers_of_ne _ (fun h => hkey (.inl h)),
      Function.update_of_ne (fun h => hkey (.inr ⟨id, hid, h⟩))]

theorem Tidy.done_insert (hσ : σ.Tidy) (hkept : σ.Kept s) (hid : id ∈ σ.ids)
    (hbenign : failsNow fails = false → failsNow fails.tail = true →
      undoKey = σ.recordKey id ∧ s (σ.recordKey id) = none) :
    σ.Done s (insertInCluster σ.setKey (σ.recordKey id) undoKey id value ⟨s, fails⟩).1
      (insertInCluster σ.setKey (σ.recordKey id) undoKey id value ⟨s, fails⟩).2.store := by
  have ⟨ids, hset, hids, hagree⟩ := hkept
  rw [insertInCluster_eq (by rw [hσ.membersAt_update hid, hset])]
  cases h₀ : failsNow fails with
  | true => exact .of_eq hkept _
  | false =>
    cases h₁ : failsNow fails.tail with
    | true =>
      obtain ⟨rfl, hnone⟩ := hbenign h₀ h₁
      have hback : Function.update (Function.update s (σ.recordKey id) (some value))
          (σ.recordKey id) none = s := by
        rw [Function.update_idem, ← hnone, Function.update_eq_self]
      simp only [Bool.false_eq_true, if_false, if_true, hback]
      exact .of_eq hkept _
    | false =>
      refine hσ.done_change hid hids hagree (by simp) fun id' hne => ?_
      simp [hne]

theorem Tidy.done_delete (hσ : σ.Tidy) (hkept : σ.Kept s) (hid : id ∈ σ.ids)
    (hbenign : failsNow fails = false → failsNow fails.tail = true → s (σ.recordKey id) ≠ none →
      undoKey = σ.recordKey id ∧ s (σ.recordKey id) = some value) :
    σ.Done s (deleteInCluster σ.setKey (σ.recordKey id) undoKey id value ⟨s, fails⟩).1
      (deleteInCluster σ.setKey (σ.recordKey id) undoKey id value ⟨s, fails⟩).2.store := by
  have ⟨ids, hset, hids, hagree⟩ := hkept
  rw [deleteInCluster_eq (by rw [hσ.membersAt_update hid, hset])]
  cases h₀ : failsNow fails with
  | true => exact .of_eq hkept _
  | false =>
    rw [if_neg Bool.false_ne_true]
    by_cases hnone : s (σ.recordKey id) = none
    · have hback : Function.update s (σ.recordKey id) none = s := by
        rw [← hnone, Function.update_eq_self]
      rw [if_pos hnone, hback]
      exact .of_eq hkept _
    · rw [if_neg hnone]
      cases h₁ : failsNow fails.tail with
      | true =>
        obtain ⟨rfl, hsome⟩ := hbenign h₀ h₁ hnone
        have hback : Function.update (Function.update s (σ.recordKey id) none)
            (σ.recordKey id) (some value) = s := by
          rw [Function.update_idem, ← hsome, Function.update_eq_self]
        rw [if_pos rfl, hback]
        exact .of_eq hkept _
      | false =>
        refine hσ.done_change hid hids hagree (by simp) fun id' hne => ?_
        simp [hne]

end Shelf

/-! ### When no command fails -/

def Quiet (fails : List Bool) : Prop := ∀ b ∈ fails, b = false

instance (fails : List Bool) : Decidable (Quiet fails) :=
  inferInstanceAs (Decidable (∀ b ∈ fails, b = false))

theorem Quiet.failsNow {fails : List Bool} (h : Quiet fails) : failsNow fails = false := by
  cases fails with
  | nil => rfl
  | cons b fails => exact h b mem_cons_self

theorem Quiet.tail {fails : List Bool} (h : Quiet fails) : Quiet fails.tail :=
  fun b hb => h b (mem_of_mem_tail hb)

def without (recordKey : Bytes → Bytes) (ids : List Bytes) (s : Store) : Store :=
  ids.foldl (fun s id => Function.update s (recordKey id) none) s

theorem without_apply (recordKey : Bytes → Bytes) (ids : List Bytes) (s : Store) (key : Bytes) :
    without recordKey ids s key = if key ∈ ids.map recordKey then none else s key := by
  induction ids generalizing s with
  | nil => simp [without]
  | cons id ids ih =>
    have hstep : without recordKey (id :: ids) s =
        without recordKey ids (Function.update s (recordKey id) none) := rfl
    rw [hstep, ih]
    rcases eq_or_ne key (recordKey id) with rfl | hne
    · simp
    · simp [hne]

theorem delRecords_quiet (recordKey : Bytes → Bytes) (ids : List Bytes) {s : Store}
    {fails : List Bool} (hq : Quiet fails) :
    ∃ fails', delRecords recordKey ids ⟨s, fails⟩ = ((), ⟨without recordKey ids s, fails'⟩) ∧
      Quiet fails' := by
  induction ids generalizing s fails with
  | nil => exact ⟨fails, rfl, hq⟩
  | cons id ids ih =>
    obtain ⟨fails', hrun, hq'⟩ := ih (s := Function.update s (recordKey id) none) hq.tail
    refine ⟨fails', ?_, hq'⟩
    rw [delRecords, bind_run (m := del (recordKey id)) (attempt_done hq.failsNow)]
    exact hrun

namespace Shelf

variable {σ : Shelf} {s : Store} {fails : List Bool}

theorem Tidy.done_clear_empty (hσ : σ.Tidy) (hkept : σ.Kept s)
    (hempty : membersAt s σ.setKey = some []) :
    ∃ s' fails', clearShelf σ.setKey σ.recordKey ⟨s, fails⟩ = (0, ⟨s', fails'⟩) ∧ σ.Done s 0 s' := by
  have hmembers : smembers σ.setKey ⟨s, fails⟩ = ([], ⟨s, fails.tail⟩) := by
    cases h₀ : failsNow fails with
    | true => exact attempt_failed h₀
    | false => rw [smembers, attempt_done h₀, hempty]; rfl
  rw [clearShelf, bind_run hmembers]
  cases h₁ : failsNow fails.tail with
  | true =>
    rw [bind_run (m := del σ.setKey) (attempt_failed h₁)]
    exact ⟨s, _, rfl, .of_eq hkept 0⟩
  | false =>
    rw [bind_run (m := del σ.setKey) (attempt_done h₁)]
    refine ⟨_, _, rfl, ?_, fun key hkey => Function.update_of_ne (fun h => hkey (.inl h)) _ _,
      fun h => absurd h (by decide)⟩
    obtain ⟨ids, hset, -, hagree⟩ := hkept
    obtain rfl : ids = [] := some.inj (hset.symm.trans hempty)
    refine ⟨[], by simp [membersAt], by simp, fun id hid => ?_⟩
    rw [hagree id hid]
    dsimp only
    rw [Function.update_of_ne (hσ.ne_setKey id hid)]

theorem Tidy.done_clear (hσ : σ.Tidy) (hkept : σ.Kept s) (hq : Quiet fails) :
    ∃ s' fails', clearShelf σ.setKey σ.recordKey ⟨s, fails⟩ = (0, ⟨s', fails'⟩) ∧ Quiet fails' ∧
      σ.Done s 0 s' := by
  obtain ⟨ids, hset, hids, hagree⟩ := hkept
  have hmembers : smembers σ.setKey ⟨s, fails⟩ = (ids, ⟨s, fails.tail⟩) := by
    rw [smembers, attempt_done hq.failsNow, hset]
    rfl
  obtain ⟨fails', hdel, hq'⟩ := delRecords_quiet σ.recordKey ids
    (s := Function.update s σ.setKey none) hq.tail.tail
  refine ⟨without σ.recordKey ids (Function.update s σ.setKey none), fails', ?_, hq', ?_,
    fun key hkey => ?_, fun h => absurd h (by decide)⟩
  · rw [clearShelf, bind_run hmembers, bind_run (m := del σ.setKey) (attempt_done hq.tail.failsNow),
      bind_run hdel]
    rfl
  · refine ⟨[], ?_, by simp, fun id hid => ?_⟩
    · rw [membersAt, without_apply]
      split <;> simp_all
    · rw [without_apply, Function.update_of_ne (hσ.ne_setKey id hid)]
      by_cases hmem : id ∈ ids
      · simp [List.mem_map_of_injective hσ.injective, hmem]
      · simpa [List.mem_map_of_injective hσ.injective, hmem] using (hagree id hid).not.1 hmem
  · have hnot : key ∉ ids.map σ.recordKey := by
      intro h
      obtain ⟨id, hid, rfl⟩ := mem_map.1 h
      exact hkey (.inr ⟨id, hids id hid, rfl⟩)
    rw [without_apply, if_neg hnot, Function.update_of_ne (fun h => hkey (.inl h))]

theorem Tidy.done_clearShelf (hσ : σ.Tidy) (hkept : σ.Kept s)
    (hbenign : Quiet fails ∨ membersAt s σ.setKey = some []) :
    σ.Done s (clearShelf σ.setKey σ.recordKey ⟨s, fails⟩).1
      (clearShelf σ.setKey σ.recordKey ⟨s, fails⟩).2.store := by
  rcases hbenign with hq | hempty
  · obtain ⟨s', fails', hrun, -, hdone⟩ := hσ.done_clear hkept hq
    rw [hrun]
    exact hdone
  · obtain ⟨s', fails', hrun, hdone⟩ := @Tidy.done_clear_empty σ s fails hσ hkept hempty
    rw [hrun]
    exact hdone

theorem Tidy.done_put (hσ : σ.Tidy) {records : List (Bytes × Value)}
    (hrecords : ∀ x ∈ records, x.1 ∈ σ.ids) (hkept : σ.Kept s) (hq : Quiet fails) :
    ∃ s' fails', putRecords σ.setKey σ.recordKey records ⟨s, fails⟩ = ((), ⟨s', fails'⟩) ∧
      Quiet fails' ∧ σ.Done s 0 s' := by
  induction records generalizing s fails with
  | nil => exact ⟨s, fails, rfl, hq, .of_eq hkept 0⟩
  | cons x records ih =>
    obtain ⟨id, value⟩ := x
    have hid : id ∈ σ.ids := hrecords (id, value) mem_cons_self
    obtain ⟨ids, hset, hids, hagree⟩ := hkept
    have hstep : σ.Done s 0 (setMembers (Function.update s (σ.recordKey id) (some value)) σ.setKey
        (ids.insert id)) :=
      hσ.done_change hid hids hagree (by simp) fun id' hne => by simp [hne]
    obtain ⟨s', fails', hrun, hq', hrest⟩ := ih
      (fun x hx => hrecords x (mem_cons_of_mem _ hx)) hstep.kept hq.tail.tail
    refine ⟨s', fails', ?_, hq', hrest.kept, fun key hkey => ?_, fun h => absurd h (by decide)⟩
    · rw [putRecords, bind_run (m := sadd σ.setKey id) (changeSet_done hset hq.failsNow),
        bind_run (m := setSerial (σ.recordKey id) value) (attempt_done hq.tail.failsNow)]
      rw [setMembers, Function.update_comm (hσ.ne_setKey id hid).symm]
      exact hrun
    · rw [hrest.frame key hkey, hstep.frame key hkey]

theorem Tidy.done_update (hσ : σ.Tidy) {records : List (Bytes × Value)}
    (hrecords : ∀ x ∈ records, x.1 ∈ σ.ids) (hkept : σ.Kept s) (hq : Quiet fails) :
    ∃ s' fails', updateShelf σ.setKey σ.recordKey records ⟨s, fails⟩ = (0, ⟨s', fails'⟩) ∧
      Quiet fails' ∧ σ.Done s 0 s' := by
  obtain ⟨s₁, fails₁, hclear, hq₁, hdone₁⟩ := hσ.done_clear hkept hq
  obtain ⟨s₂, fails₂, hput, hq₂, hdone₂⟩ := hσ.done_put hrecords hdone₁.kept hq₁
  refine ⟨s₂, fails₂, ?_, hq₂, hdone₂.kept, fun key hkey => ?_, fun h => absurd h (by decide)⟩
  · rw [updateShelf, bind_run hclear, bind_run hput]
    rfl
  · rw [hdone₂.frame key hkey, hdone₁.frame key hkey]

theorem Tidy.done_updateShelf (hσ : σ.Tidy) {records : List (Bytes × Value)}
    (hrecords : ∀ x ∈ records, x.1 ∈ σ.ids) (hkept : σ.Kept s) (hq : Quiet fails) :
    σ.Done s (updateShelf σ.setKey σ.recordKey records ⟨s, fails⟩).1
      (updateShelf σ.setKey σ.recordKey records ⟨s, fails⟩).2.store := by
  obtain ⟨s', fails', hrun, -, hdone⟩ := hσ.done_update hrecords hkept hq
  rw [hrun]
  exact hdone

end Shelf

/-! ### The shelves of the managers -/

def deviceShelf (devices : Set Device) : Shelf where
  setKey := DeviceMgr.setKey
  recordKey := DeviceMgr.recordKey
  ids := {id | ∃ d ∈ devices, d.deviceId = id}

def workerShelf (cmds : Set ExecutingInviteCmd) (workerThreadNo : ℤ) : Shelf where
  setKey := ExecutingInviteCmdMgr.setKey workerThreadNo
  recordKey := ExecutingInviteCmdMgr.recordKey workerThreadNo
  ids := {id | ∃ cmd ∈ cmds, cmd.getId = id}

section Shelves

variable (num : ℤ) (cmds : Set ExecutingInviteCmd) (devices : Set Device)

def shelves : Set Shelf :=
  {σ | σ = deviceShelf devices ∨ ∃ w, IsWorker num w ∧ σ = workerShelf cmds w}

def AllKept (s : Store) : Prop := ∀ σ ∈ shelves num cmds devices, σ.Kept s

variable {num cmds devices}

theorem deviceShelf_mem : deviceShelf devices ∈ shelves num cmds devices := .inl rfl

theorem workerShelf_mem {w : ℤ} (hw : IsWorker num w) :
    workerShelf cmds w ∈ shelves num cmds devices :=
  .inr ⟨w, hw, rfl⟩

theorem tidy_of_mem (h : KeysApart num cmds devices) {σ : Shelf}
    (hσ : σ ∈ shelves num cmds devices) : σ.Tidy := by
  rcases hσ with rfl | ⟨w, hw, rfl⟩
  · refine ⟨fun id id' heq => append_cancel_left heq, ?_⟩
    rintro id ⟨d, hd, rfl⟩
    exact h.deviceSet d hd
  · refine ⟨fun id id' heq => append_cancel_left heq, ?_⟩
    rintro id ⟨cmd, hcmd, rfl⟩
    exact h.sets w w cmd hw hw hcmd

theorem keyPrefix_of_owns_device {key : Bytes} (h : (deviceShelf devices).Owns key) :
    DeviceMgr.keyPrefix <+: key := by
  rcases h with rfl | ⟨id, -, rfl⟩
  · exact prefix_rfl
  · exact prefix_append _ _

theorem keyPrefix_of_owns_worker {w : ℤ} {key : Bytes} (h : (workerShelf cmds w).Owns key) :
    ExecutingInviteCmdMgr.keyPrefix <+: key := by
  rcases h with rfl | ⟨id, -, rfl⟩
  · exact prefix_append _ _
  · exact (prefix_append _ _).trans (prefix_append _ _)

theorem not_owns_both {w : ℤ} {key : Bytes} (h : (deviceShelf devices).Owns key)
    (h' : (workerShelf cmds w).Owns key) : False := by
  have hle : DeviceMgr.keyPrefix <+: ExecutingInviteCmdMgr.keyPrefix :=
    prefix_of_prefix_length_le (keyPrefix_of_owns_device h) (keyPrefix_of_owns_worker h')
      (by decide)
  exact absurd hle (by decide)

theorem worker_of_owns (h : KeysApart num cmds devices) {w w' : ℤ} (hw : IsWorker num w)
    (hw' : IsWorker num w') {key : Bytes} (hkey : (workerShelf cmds w).Owns key)
    (hkey' : (workerShelf cmds w').Owns key) : w = w' := by
  by_contra hne
  rcases hkey with rfl | ⟨id, ⟨cmd, hcmd, rfl⟩, rfl⟩
  · rcases hkey' with heq | ⟨id, ⟨cmd, hcmd, rfl⟩, heq⟩
    · exact hne (intText_injective (append_cancel_left heq))
    · exact h.sets w' w cmd hw' hw hcmd heq.symm
  · rcases hkey' with heq | ⟨id, ⟨cmd', hcmd', rfl⟩, heq⟩
    · exact h.sets w w' cmd hw hw' hcmd heq
    · exact h.records w w' cmd cmd' hw hw' hcmd hcmd' (.inl hne) heq

theorem eq_of_owns (h : KeysApart num cmds devices) {σ τ : Shelf}
    (hσ : σ ∈ shelves num cmds devices) (hτ : τ ∈ shelves num cmds devices) {key : Bytes}
    (hkey : σ.Owns key) (hkey' : τ.Owns key) : σ = τ := by
  rcases hσ with rfl | ⟨w, hw, rfl⟩
  · rcases hτ with rfl | ⟨w', hw', rfl⟩
    · rfl
    · exact (not_owns_both hkey hkey').elim
  · rcases hτ with rfl | ⟨w', hw', rfl⟩
    · exact (not_owns_both hkey' hkey).elim
    · rw [worker_of_owns h hw hw' hkey hkey']

theorem AllKept.of_done (h : KeysApart num cmds devices) {s s' : Store}
    (hs : AllKept num cmds devices s) {σ : Shelf} (hσ : σ ∈ shelves num cmds devices) {ret : ℤ}
    (hdone : σ.Done s ret s') : AllKept num cmds devices s' := by
  intro τ hτ
  by_cases hτσ : τ = σ
  · exact hτσ ▸ hdone.kept
  · refine (hs τ hτ).congr fun key hkey => hdone.frame key fun hown => ?_
    exact hτσ (eq_of_owns h hτ hσ hkey hown)

end Shelves

/-! ### Benign calls -/

def ManagerCall.Uses (cmds : Set ExecutingInviteCmd) (devices : Set Device) : ManagerCall → Prop
  | .insertDevice d => d ∈ devices
  | .deleteDevice d => d ∈ devices
  | .updateDevices ds => ∀ d ∈ ds, d ∈ devices
  | .insert cmd _ => cmd ∈ cmds
  | .delete cmd _ => cmd ∈ cmds
  | .updateWorker cmdList _ => ∀ cmd ∈ cmdList, cmd ∈ cmds
  | .update cmdLists => ∀ cmdList ∈ cmdLists, ∀ cmd ∈ cmdList, cmd ∈ cmds
  | .clearDevices | .clearWorker _ | .clear => True

def ManagerCall.Benign (num : ℤ) (s : Store) (fails : List Bool) : ManagerCall → Prop
  | .insertDevice d => failsNow fails = false → failsNow fails.tail = true →
      s (DeviceMgr.recordKey d.deviceId) = none
  | .deleteDevice d => failsNow fails = false → failsNow fails.tail = true →
      s (DeviceMgr.recordKey d.deviceId) ≠ none →
        s (DeviceMgr.recordKey d.deviceId) = some (.device d)
  | .clearDevices => Quiet fails ∨ membersAt s DeviceMgr.setKey = some []
  | .insert _ w => IsWorker num w → failsNow fails = true ∨ failsNow fails.tail = false
  | .delete cmd w => IsWorker num w → failsNow fails = true ∨ failsNow fails.tail = false ∨
      s (ExecutingInviteCmdMgr.recordKey w cmd.getId) = none
  | .clearWorker w => IsWorker num w →
      Quiet fails ∨ membersAt s (ExecutingInviteCmdMgr.setKey w) = some []
  | .updateDevices _ | .clear | .updateWorker _ _ | .update _ => Quiet fails

instance (num w : ℤ) : Decidable (IsWorker num w) := inferInstanceAs (Decidable (_ ∧ _))

instance (num : ℤ) (s : Store) (fails : List Bool) (call : ManagerCall) :
    Decidable (call.Benign num s fails) :=
  match call with
  | .insertDevice _ => inferInstanceAs (Decidable (_ → _ → _))
  | .deleteDevice _ => inferInstanceAs (Decidable (_ → _ → _ → _))
  | .clearDevices => inferInstanceAs (Decidable (_ ∨ _))
  | .insert _ _ => inferInstanceAs (Decidable (_ → _))
  | .delete _ _ => inferInstanceAs (Decidable (_ → _))
  | .clearWorker _ => inferInstanceAs (Decidable (_ → _))
  | .updateDevices _ | .clear | .updateWorker _ _ | .update _ => inferInstanceAs (Decidable (Quiet _))

section Runs

variable {num : ℤ} {cmds : Set ExecutingInviteCmd} {devices : Set Device} {s : Store}
  {fails : List Bool}

def Settles (num : ℤ) (cmds : Set ExecutingInviteCmd) (devices : Set Device) (m : RedisM ℤ) (s : Store)
    (fails : List Bool) : Prop :=
  AllKept num cmds devices (m ⟨s, fails⟩).2.store ∧ ((m ⟨s, fails⟩).1 = -1 → (m ⟨s, fails⟩).2.store = s)

theorem Settles.of_done (h : KeysApart num cmds devices) (hs : AllKept num cmds devices s) {σ : Shelf}
    (hσ : σ ∈ shelves num cmds devices) {m : RedisM ℤ}
    (hdone : σ.Done s (m ⟨s, fails⟩).1 (m ⟨s, fails⟩).2.store) :
    Settles num cmds devices m s fails :=
  ⟨hs.of_done h hσ hdone, hdone.failed⟩

theorem Settles.forWorker (hs : AllKept num cmds devices s) {w : ℤ} {m : RedisM ℤ}
    (hm : IsWorker num w → Settles num cmds devices m s fails) :
    Settles num cmds devices (ExecutingInviteCmdMgr.forWorker num w m) s fails := by
  unfold ExecutingInviteCmdMgr.forWorker
  split
  · exact ⟨hs, fun _ => rfl⟩
  · rename_i hw
    exact hm ⟨by omega, by omega⟩

open ExecutingInviteCmdMgr

theorem ids_invites {w : ℤ} {cmdList : List ExecutingInviteCmd} (h : ∀ cmd ∈ cmdList, cmd ∈ cmds) :
    ∀ x ∈ cmdList.map fun cmd => (cmd.getId, Value.invite cmd), x.1 ∈ (workerShelf cmds w).ids := by
  intro x hx
  obtain ⟨cmd, hcmd, rfl⟩ := mem_map.1 hx
  exact ⟨cmd, h cmd hcmd, rfl⟩

theorem ids_devices {ds : List Device} (h : ∀ d ∈ ds, d ∈ devices) :
    ∀ x ∈ ds.map fun d => (d.deviceId, Value.device d), x.1 ∈ (deviceShelf devices).ids := by
  intro x hx
  obtain ⟨d, hd, rfl⟩ := mem_map.1 hx
  exact ⟨d, h d hd, rfl⟩

theorem allKept_clearFrom (h : KeysApart num cmds devices) (n : ℕ) :
    ∀ (i : ℕ) (s : Store) (fails : List Bool), (i + n : ℤ) ≤ num → AllKept num cmds devices s →
      Quiet fails → AllKept num cmds devices (clearFrom num i n ⟨s, fails⟩).2.store := by
  induction n with
  | zero => exact fun i s fails _ hs _ => hs
  | succ n ih =>
    intro i s fails hi hs hq
    have hw : IsWorker num i := ⟨by omega, by push_cast at hi; omega⟩
    have hmem : workerShelf cmds i ∈ shelves num cmds devices := workerShelf_mem hw
    obtain ⟨s', fails', hrun, hq', hdone⟩ := (tidy_of_mem h hmem).done_clear (hs _ hmem) hq
    have hclear : clearWorker num i ⟨s, fails⟩ = (0, ⟨s', fails'⟩) := by
      rw [clearWorker, ExecutingInviteCmdMgr.forWorker, if_neg (by have := hw.1; have := hw.2; omega)]
      exact hrun
    rw [clearFrom, bind_run hclear]
    exact ih (i + 1) s' fails' (by push_cast at hi ⊢; omega) (hs.of_done h hmem hdone) hq'

theorem allKept_updateFrom (h : KeysApart num cmds devices)
    (cmdLists : List (List ExecutingInviteCmd)) :
    ∀ (i : ℕ) (s : Store) (fails : List Bool), (i + cmdLists.length : ℤ) ≤ num →
      (∀ cmdList ∈ cmdLists, ∀ cmd ∈ cmdList, cmd ∈ cmds) → AllKept num cmds devices s →
      Quiet fails → AllKept num cmds devices (updateFrom num i cmdLists ⟨s, fails⟩).2.store := by
  induction cmdLists with
  | nil => exact fun i s fails _ _ hs _ => hs
  | cons cmdList rest ih =>
    intro i s fails hi huses hs hq
    rw [length_cons] at hi
    have hw : IsWorker num i := ⟨by omega, by push_cast at hi; omega⟩
    have hmem : workerShelf cmds i ∈ shelves num cmds devices := workerShelf_mem hw
    obtain ⟨s', fails', hrun, hq', hdone⟩ := (tidy_of_mem h hmem).done_update
      (ids_invites (huses cmdList mem_cons_self)) (hs _ hmem) hq
    have hupdate : updateWorker num cmdList i ⟨s, fails⟩ = (0, ⟨s', fails'⟩) := by
      rw [updateWorker, ExecutingInviteCmdMgr.forWorker,
        if_neg (by have := hw.1; have := hw.2; omega)]
      exact hrun
    rw [updateFrom, bind_run hupdate]
    exact ih (i + 1) s' fails' (by push_cast at hi ⊢; omega)
      (fun l hl => huses l (mem_cons_of_mem _ hl)) (hs.of_done h hmem hdone) hq'

theorem settles_call (h : KeysApart num cmds devices) (hs : AllKept num cmds devices s)
    {call : ManagerCall} (huses : call.Uses cmds devices) (hbenign : call.Benign num s fails) :
    Settles num cmds devices (call.exec num) s fails := by
  have hdev : deviceShelf devices ∈ shelves num cmds devices := deviceShelf_mem
  have htidy : (deviceShelf devices).Tidy := tidy_of_mem h hdev
  cases call with
  | insertDevice d =>
    refine .of_done h hs hdev (htidy.done_insert (hs _ hdev) ⟨d, huses, rfl⟩ fun h₀ h₁ => ?_)
    exact ⟨rfl, hbenign h₀ h₁⟩
  | deleteDevice d =>
    refine .of_done h hs hdev (htidy.done_delete (hs _ hdev) ⟨d, huses, rfl⟩ fun h₀ h₁ hne => ?_)
    exact ⟨rfl, hbenign h₀ h₁ hne⟩
  | clearDevices =>
    exact .of_done h hs hdev (htidy.done_clearShelf (hs _ hdev) hbenign)
  | updateDevices ds =>
    exact .of_done h hs hdev (htidy.done_updateShelf (ids_devices huses) (hs _ hdev) hbenign)
  | insert cmd w =>
    refine .forWorker hs fun hw => ?_
    have hmem : workerShelf cmds w ∈ shelves num cmds devices := workerShelf_mem hw
    refine .of_done h hs hmem ((tidy_of_mem h hmem).done_insert (hs _ hmem) ⟨cmd, huses, rfl⟩ ?_)
    intro h₀ h₁
    simpa [h₀, h₁] using hbenign hw
  | delete cmd w =>
    refine .forWorker hs fun hw => ?_
    have hmem : workerShelf cmds w ∈ shelves num cmds devices := workerShelf_mem hw
    refine .of_done h hs hmem ((tidy_of_mem h hmem).done_delete (hs _ hmem) ⟨cmd, huses, rfl⟩ ?_)
    intro h₀ h₁ hne
    have hnone : s (recordKey w cmd.getId) = none := by simpa [h₀, h₁] using hbenign hw
    exact absurd hnone hne
  | clearWorker w =>
    refine .forWorker hs fun hw => ?_
    have hmem : workerShelf cmds w ∈ shelves num cmds devices := workerShelf_mem hw
    exact .of_done h hs hmem ((tidy_of_mem h hmem).done_clearShelf (hs _ hmem) (hbenign hw))
  | clear =>
    refine ⟨?_, fun hret => absurd (show (0 : ℤ) = -1 from hret) (by decide)⟩
    show AllKept num cmds devices (clearFrom num 0 num.toNat ⟨s, fails⟩).2.store
    rcases le_total 0 num with hnum | hnum
    · exact allKept_clearFrom h num.toNat 0 s fails (by simp [hnum]) hs hbenign
    · rw [Int.toNat_of_nonpos hnum]
      exact hs
  | updateWorker cmdList w =>
    refine .forWorker hs fun hw => ?_
    have hmem : workerShelf cmds w ∈ shelves num cmds devices := workerShelf_mem hw
    exact .of_done h hs hmem
      ((tidy_of_mem h hmem).done_updateShelf (ids_invites huses) (hs _ hmem) hbenign)
  | update cmdLists =>
    by_cases hlen : (cmdLists.length : ℤ) = num
    · have hrun : ManagerCall.exec num (.update cmdLists) ⟨s, fails⟩ =
          (0, (updateFrom num 0 cmdLists ⟨s, fails⟩).2) := by
        rw [ManagerCall.exec, update, if_neg (not_not.2 hlen)]
        rfl
      rw [Settles, hrun]
      refine ⟨?_, fun hret => absurd (show (0 : ℤ) = -1 from hret) (by decide)⟩
      exact allKept_updateFrom h cmdLists 0 s fails (by simp [hlen]) huses hs hbenign
    · have hrun : ManagerCall.exec num (.update cmdLists) ⟨s, fails⟩ = (-1, ⟨s, fails⟩) := by
        rw [ManagerCall.exec, update, if_pos hlen]
        rfl
      rw [Settles, hrun]
      exact ⟨hs, fun _ => rfl⟩

end Runs

/-! ### Runs -/

structure Agree (num : ℤ) (cmds : Set ExecutingInviteCmd) (devices : Set Device) (s : Store) :
    Prop where
  devices : ∀ d ∈ devices, d.deviceId ∈ (membersAt s DeviceMgr.setKey).getD [] ↔
    s (DeviceMgr.recordKey d.deviceId) ≠ none
  invites : ∀ w, IsWorker num w → ∀ cmd ∈ cmds,
    cmd.getId ∈ (membersAt s (ExecutingInviteCmdMgr.setKey w)).getD [] ↔
      s (ExecutingInviteCmdMgr.recordKey w cmd.getId) ≠ none

section Agree

variable {num : ℤ} {cmds : Set ExecutingInviteCmd} {devices : Set Device}

theorem Shelf.Kept.mem_iff {σ : Shelf} {s : Store} (h : σ.Kept s) {id : Bytes} (hid : id ∈ σ.ids) :
    id ∈ (membersAt s σ.setKey).getD [] ↔ s (σ.recordKey id) ≠ none := by
  obtain ⟨ids, hset, -, hagree⟩ := h
  rw [hset]
  exact hagree id hid

theorem AllKept.agree {s : Store} (h : AllKept num cmds devices s) : Agree num cmds devices s where
  devices := fun d hd => (h _ deviceShelf_mem).mem_iff ⟨d, hd, rfl⟩
  invites := fun _ hw cmd hcmd => (h _ (workerShelf_mem hw)).mem_iff ⟨cmd, hcmd, rfl⟩

theorem allKept_empty : AllKept num cmds devices (fun _ => none) :=
  fun _ _ => ⟨[], rfl, by simp, by simp⟩

theorem set_and_records_agree (hkeys : KeysApart num cmds devices) (s : Store)
    (hs : AllKept num cmds devices s) (events : List ManagerEvent)
    (hevents : Lts.Along (managerStep num)
      (fun s e => e.call.Uses cmds devices ∧ e.call.Benign num s e.fails) s events) :
    Lts.Along (managerStep num)
      (fun s e => Agree num cmds devices (e.after num s) ∧ (e.ret num s = -1 → e.after num s = s))
      s events := by
  refine Lts.Along.of_invariant (I := AllKept num cmds devices) ?_ hs hevents
  rintro s e hs ⟨huses, hbenign⟩
  obtain ⟨hkept, hfailed⟩ := settles_call hkeys hs huses hbenign
  refine ⟨⟨hkept.agree, hfailed⟩, fun s' hs' => ?_⟩
  obtain rfl : e.after num s = s' := some.inj hs'
  exact hkept

end Agree

def sampleDevice : Device := ⟨ascii "d1", ascii "10.0.0.1", 5060, 0⟩

def sampleCmd : ExecutingInviteCmd := ⟨ascii "s1", ascii "d1", 1, 7⟩

def sampleEvents : List ManagerEvent :=
  [⟨.insertDevice sampleDevice, [false, true]⟩, ⟨.insertDevice sampleDevice, []⟩,
   ⟨.deleteDevice sampleDevice, [false, true]⟩, ⟨.deleteDevice sampleDevice, []⟩,
   ⟨.insert sampleCmd 1, []⟩, ⟨.clear, []⟩]

theorem set_and_records_agree_sample :
    Lts.Along (managerStep 2)
      (fun s e => Agree 2 {sampleCmd} {sampleDevice} (e.after 2 s) ∧
        (e.ret 2 s = -1 → e.after 2 s = s)) (fun _ => none) sampleEvents := by
  refine set_and_records_agree (keysApart_of_fixed_length (m := 2) (n := 2) (by decide) ?_ ?_ ?_) _
    allKept_empty sampleEvents ?_
  · rintro cmd rfl
    decide
  · rintro cmd rfl
    decide
  · rintro d rfl
    decide
  · simp only [sampleEvents, Lts.Along, managerStep, Option.some.injEq, forall_eq']
    refine ⟨⟨rfl, ?_⟩, ⟨rfl, ?_⟩, ⟨rfl, ?_⟩, ⟨rfl, ?_⟩, ⟨rfl, ?_⟩, ⟨trivial, ?_⟩, trivial⟩
    all_goals decide

theorem set_and_records_differ :
    let one : Store := (⟨.insertDevice sampleDevice, []⟩ : ManagerEvent).after 2 fun _ => none
    let again : ManagerEvent := ⟨.insertDevice sampleDevice, [false, true]⟩
    let changed : Device := { sampleDevice with deviceState := 1 }
    let delete : ManagerEvent := ⟨.deleteDevice changed, [false, true]⟩
    let insertCmd : ManagerEvent := ⟨.insert sampleCmd 1, [false, true]⟩
    let two : Store := (⟨.insert sampleCmd 1, []⟩ : ManagerEvent).after 2 fun _ => none
    let deleteCmd : ManagerEvent := ⟨.delete sampleCmd 1, [false, true]⟩
    let clear : ManagerEvent := ⟨.clearDevices, [true]⟩
    (again.ret 2 one = -1 ∧ membersAt (again.after 2 one) DeviceMgr.setKey = some [ascii "d1"] ∧
        again.after 2 one (DeviceMgr.recordKey (ascii "d1")) = none) ∧
      (delete.ret 2 one = -1 ∧
        delete.after 2 one (DeviceMgr.recordKey (ascii "d1")) = some (.device changed)) ∧
      (insertCmd.ret 2 (fun _ => none) = -1 ∧
        membersAt (insertCmd.after 2 fun _ => none) (ExecutingInviteCmdMgr.setKey 1) = some [] ∧
        insertCmd.after 2 (fun _ => none) (ExecutingInviteCmdMgr.recordKey 1 sampleCmd.getId) =
          some (.invite sampleCmd)) ∧
      (deleteCmd.ret 2 two = -1 ∧
        membersAt (deleteCmd.after 2 two) (ExecutingInviteCmdMgr.setKey 1) =
          some [sampleCmd.getId] ∧
        deleteCmd.after 2 two (ExecutingInviteCmdMgr.recordKey 1 sampleCmd.getId) = none) ∧
      (clear.ret 2 one = 0 ∧ membersAt (clear.after 2 one) DeviceMgr.setKey = some [] ∧
        clear.after 2 one (DeviceMgr.recordKey (ascii "d1")) = some (.device sampleDevice)) := by
  decide +kernel

end Norah
