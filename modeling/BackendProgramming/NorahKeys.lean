/-
**The keys of the managers of the Norah restorer.**

The key of a record is the key of its set followed by the id, and the key of the set of a worker thread ends
with the number of the thread; nothing separates the parts.  The main result says in which ways two keys of a
manager can be the same.
-/

import BackendProgramming.CText

set_option autoImplicit false

namespace Norah

open CText List

/-! ### Records and their keys -/

structure Device where
  deviceId : Bytes
  deviceSipIp : Bytes
  deviceSipPort : UInt16
  deviceState : ℤ
  deriving DecidableEq, Repr

structure ExecutingInviteCmd where
  cmdSenderId : Bytes
  deviceId : Bytes
  cmdType : ℤ
  cmdSeq : ℤ
  deriving DecidableEq, Repr

namespace ExecutingInviteCmd

def getId (cmd : ExecutingInviteCmd) : Bytes :=
  cmd.cmdSenderId ++ cmd.deviceId ++ intText cmd.cmdSeq

def identity (cmd : ExecutingInviteCmd) : Bytes × Bytes × ℤ :=
  (cmd.cmdSenderId, cmd.deviceId, cmd.cmdSeq)

end ExecutingInviteCmd

namespace DeviceMgr

def setKey : Bytes := ascii "gbddrdeviceset"

def keyPrefix : Bytes := ascii "gbddrdeviceset"

def recordKey (deviceId : Bytes) : Bytes := keyPrefix ++ deviceId

end DeviceMgr

namespace ExecutingInviteCmdMgr

def setKeyPrefix : Bytes := ascii "gbddrexecutinginvitecmdset"

def keyPrefix : Bytes := ascii "gbddrexecutinginvitecmdset"

def setKey (workerThreadNo : ℤ) : Bytes := setKeyPrefix ++ intText workerThreadNo

def recordKey (workerThreadNo : ℤ) (id : Bytes) : Bytes :=
  keyPrefix ++ intText workerThreadNo ++ id

end ExecutingInviteCmdMgr

def IsWorker (num workerThreadNo : ℤ) : Prop := 0 ≤ workerThreadNo ∧ workerThreadNo < num

open ExecutingInviteCmdMgr in
structure KeysApart (num : ℤ) (cmds : Set ExecutingInviteCmd) (devices : Set Device) : Prop where
  records : ∀ w w' cmd cmd', IsWorker num w → IsWorker num w' → cmd ∈ cmds → cmd' ∈ cmds →
    (w ≠ w' ∨ cmd.identity ≠ cmd'.identity) → recordKey w cmd.getId ≠ recordKey w' cmd'.getId
  sets : ∀ w w' cmd, IsWorker num w → IsWorker num w' → cmd ∈ cmds →
    recordKey w cmd.getId ≠ setKey w'
  deviceSet : ∀ d ∈ devices, DeviceMgr.recordKey d.deviceId ≠ DeviceMgr.setKey

structure IdsApart (num : ℤ) (cmds : Set ExecutingInviteCmd) (devices : Set Device) : Prop where
  ids : 0 < num → ∀ cmd ∈ cmds, ∀ cmd' ∈ cmds, cmd.getId = cmd'.getId → cmd.identity = cmd'.identity
  workers : ∀ w w' x, IsWorker num w → IsWorker num w' → x ≠ [] → intText w' = intText w ++ x →
    ∀ cmd ∈ cmds, cmd.getId ≠ x ∧ ∀ cmd' ∈ cmds, cmd.getId ≠ x ++ cmd'.getId
  devices : ∀ d ∈ devices, d.deviceId ≠ []

/-! ### When keys coincide -/

theorem intText_ne_nil (z : ℤ) : intText z ≠ [] := by
  unfold intText
  split
  · exact cons_ne_nil _ _
  · exact decimal_ne_nil _

theorem ExecutingInviteCmd.getId_ne_nil (cmd : ExecutingInviteCmd) : cmd.getId ≠ [] := by
  intro h
  exact intText_ne_nil cmd.cmdSeq (append_eq_nil_iff.1 h).2

namespace ExecutingInviteCmdMgr

theorem recordKey_eq_setKey_iff {w w' : ℤ} {id : Bytes} :
    recordKey w id = setKey w' ↔ intText w' = intText w ++ id := by
  rw [recordKey, setKey, append_assoc, eq_comm]
  exact append_right_inj _

theorem recordKey_eq_iff {w w' : ℤ} {id id' : Bytes} :
    recordKey w id = recordKey w' id' ↔
      (∃ x, intText w' = intText w ++ x ∧ id = x ++ id') ∨
        ∃ x, intText w = intText w' ++ x ∧ id' = x ++ id := by
  rw [recordKey, recordKey, append_assoc, append_assoc, append_right_inj]
  exact append_eq_append_iff

end ExecutingInviteCmdMgr

theorem DeviceMgr.recordKey_eq_setKey_iff {id : Bytes} : recordKey id = setKey ↔ id = [] :=
  append_right_eq_self

open ExecutingInviteCmdMgr

variable {num : ℤ} {cmds : Set ExecutingInviteCmd} {devices : Set Device}

theorem KeysApart.idsApart (h : KeysApart num cmds devices) : IdsApart num cmds devices where
  ids := by
    intro hnum cmd hcmd cmd' hcmd' hid
    by_contra hne
    have hzero : IsWorker num 0 := ⟨le_rfl, hnum⟩
    exact h.records 0 0 cmd cmd' hzero hzero hcmd hcmd' (.inr hne) (by rw [hid])
  workers := by
    intro w w' x hw hw' hx htext cmd hcmd
    refine ⟨fun hid => ?_, fun cmd' hcmd' hid => ?_⟩
    · exact h.sets w w' cmd hw hw' hcmd (recordKey_eq_setKey_iff.2 (by rw [htext, hid]))
    · have hne : w ≠ w' := by
        rintro rfl
        exact hx (append_right_eq_self.1 htext.symm)
      exact h.records w w' cmd cmd' hw hw' hcmd hcmd' (.inl hne)
        (recordKey_eq_iff.2 (.inl ⟨x, htext, hid⟩))
  devices := by
    intro d hd hid
    exact h.deviceSet d hd (DeviceMgr.recordKey_eq_setKey_iff.2 hid)

theorem IdsApart.not_continued (h : IdsApart num cmds devices) {w w' : ℤ} {x : Bytes}
    {cmd cmd' : ExecutingInviteCmd} (hw : IsWorker num w) (hw' : IsWorker num w') (hcmd : cmd ∈ cmds)
    (hcmd' : cmd' ∈ cmds) (htext : intText w' = intText w ++ x) (hid : cmd.getId = x ++ cmd'.getId) :
    w = w' ∧ cmd.identity = cmd'.identity := by
  by_cases hx : x = []
  · subst hx
    rw [append_nil] at htext
    exact ⟨(intText_injective htext).symm, h.ids (hw.1.trans_lt hw.2) cmd hcmd cmd' hcmd' hid⟩
  · exact absurd hid ((h.workers w w' x hw hw' hx htext cmd hcmd).2 cmd' hcmd')

theorem IdsApart.keysApart (h : IdsApart num cmds devices) : KeysApart num cmds devices where
  records := by
    intro w w' cmd cmd' hw hw' hcmd hcmd' hne hkey
    have hsame : w = w' ∧ cmd.identity = cmd'.identity := by
      rcases recordKey_eq_iff.1 hkey with ⟨x, htext, hid⟩ | ⟨x, htext, hid⟩
      · exact h.not_continued hw hw' hcmd hcmd' htext hid
      · exact (h.not_continued hw' hw hcmd' hcmd htext hid).imp Eq.symm Eq.symm
    exact hne.elim (fun hne => hne hsame.1) fun hne => hne hsame.2
  sets := by
    intro w w' cmd hw hw' hcmd hkey
    have htext := recordKey_eq_setKey_iff.1 hkey
    exact (h.workers w w' cmd.getId hw hw' cmd.getId_ne_nil htext cmd hcmd).1 rfl
  deviceSet := by
    intro d hd hkey
    exact h.devices d hd (DeviceMgr.recordKey_eq_setKey_iff.1 hkey)

theorem length_intText_worker {w : ℤ} (h₀ : 0 ≤ w) (h₁ : w < 10) : (intText w).length = 1 := by
  have hle : (decimal w.natAbs).length ≤ 1 := length_decimal_le (by decide) (by omega)
  have hpos : 0 < (decimal w.natAbs).length := length_pos_iff.2 (decimal_ne_nil _)
  rw [intText, if_neg (by omega)]
  omega

theorem keysApart_of_fixed_length {m n : ℕ} (hnum : num ≤ 10)
    (hsender : ∀ cmd ∈ cmds, cmd.cmdSenderId.length = m)
    (hdevice : ∀ cmd ∈ cmds, cmd.deviceId.length = n) (hdevices : ∀ d ∈ devices, d.deviceId ≠ []) :
    KeysApart num cmds devices := by
  refine IdsApart.keysApart ⟨fun _ cmd hcmd cmd' hcmd' hid => ?_, ?_, hdevices⟩
  · obtain ⟨hid, hseq⟩ := append_inj hid (by
      rw [length_append, length_append, hsender cmd hcmd, hsender cmd' hcmd',
        hdevice cmd hcmd, hdevice cmd' hcmd'])
    obtain ⟨hs, hd⟩ := append_inj hid (by rw [hsender cmd hcmd, hsender cmd' hcmd'])
    simp only [ExecutingInviteCmd.identity, hs, hd, intText_injective hseq]
  · intro w w' x hw hw' hx htext
    have hlen := congrArg length htext
    rw [length_append, length_intText_worker hw.1 (by have := hw.2; omega),
      length_intText_worker hw'.1 (by have := hw'.2; omega)] at hlen
    have hpos := length_pos_iff.2 hx
    omega

end Norah
