/-
**The managers of devices, channels and invite commands.**

Redis has one key for each record, put together from the kind of the record, the id of the downlinker and the ids
of the record, separated by colons.  The store is a finite map from keys to records.  Every command to Redis is
done, is lost before it has an effect, or has its effect and is reported as failed.
-/

import Mathlib.Data.List.AList
import BackendProgramming.StdString
import BackendProgramming.SerializeEntity

set_option autoImplicit false

namespace GBDownLinker

open CText List Option

variable {T : EntityTypes}

/-! ### Commands -/

abbrev Store (T : EntityTypes) := AList fun _ : Bytes => Record T

inductive CommandFate where
  | done
  | lost
  | unheard
  deriving DecidableEq, Repr

structure Redis (T : EntityTypes) where
  store : Store T
  fates : List CommandFate := []

abbrev RedisM (T : EntityTypes) := StateM (Redis T)

def nextFate : RedisM T CommandFate := fun r =>
  (r.fates.headD .done, { r with fates := r.fates.tail })

def command (effect : Store T → Store T) : RedisM T Bool := do
  match ← nextFate with
  | .done =>
    modify fun r => { r with store := effect r.store }
    return true
  | .lost => return false
  | .unheard =>
    modify fun r => { r with store := effect r.store }
    return false

def setSerial (key : Bytes) (x : Record T) : RedisM T Bool := command (·.insert key x)

def del (key : Bytes) : RedisM T Bool := command (·.erase key)

def keysFrom (start : Bytes) (s : Store T) : List Bytes := s.keys.filter (start.isPrefixOf ·)

def getKeys (start : Bytes) : RedisM T (List Bytes) := do
  match ← nextFate with
  | .done => return keysFrom start (← get).store
  | _ => return []

def getSerial (key : Bytes) : RedisM T (Option (Record T)) := do
  match ← nextFate with
  | .done => return (← get).store.lookup key
  | _ => return none

def delAll : List Bytes → RedisM T Unit
  | [] => return ()
  | key :: keys => do
    let _ ← del key
    delAll keys

def delListed (keyList : RedisM T (List Bytes)) : RedisM T ℤ := do
  delAll (← keyList)
  return 0

def retcode (ok : Bool) : ℤ := if ok then 0 else -1

/-! ### Keys -/

def colon : Bytes := ascii ":"

theorem colon_eq : colon = [58] := rfl

def deviceMark : Bytes := ascii "\x7bdownlinker.device\x7d:"

def channelMark : Bytes := ascii "\x7bdownlinker.channel\x7d:"

def inviteMark : Bytes := ascii "\x7bdownlinker.invite\x7d:"

def deviceKey (g deviceId : Bytes) : Bytes := deviceMark ++ g ++ colon ++ deviceId

def channelKey (g deviceId channelDeviceId : Bytes) : Bytes :=
  channelMark ++ g ++ colon ++ deviceId ++ colon ++ channelDeviceId

def toInt64 (v : FieldType.int64.Val) : ℤ :=
  ((v.bytes.foldr (fun b n => b.toNat + 256 * n) 0 : ℕ) : ℤ).bmod (2 ^ 64)

def inviteKey (g : Bytes) (workerThreadIdx : ℤ) (cmdSenderId deviceId : Bytes) (cmdSeq : ℤ) : Bytes :=
  inviteMark ++ g ++ colon ++ intText workerThreadIdx ++ colon ++ cmdSenderId ++ colon ++ deviceId ++
    colon ++ intText cmdSeq

def ExecutingInviteCmd.key {T : InviteTypes} (cmd : ExecutingInviteCmd T) (g : Bytes)
    (workerThreadIdx : ℤ) : Bytes :=
  inviteKey g workerThreadIdx cmd.cmdSenderId.bytes cmd.deviceId.bytes (toInt64 cmd.cmdSeq)

def Channel.key {T : ChannelTypes} (channel : Channel T) (g : Bytes) : Bytes :=
  channelKey g channel.deviceId.bytes channel.channelDeviceId.bytes

/-! ### The managers -/

section Managers

variable (g : Bytes)

def getDeviceKeyList : RedisM T (List Bytes) := getKeys (deviceMark ++ g)

def insertDevice (device : Device T.device) : RedisM T ℤ := do
  return retcode (← setSerial (deviceKey g device.deviceId.bytes) (.device device))

def updateDevice (device : Device T.device) : RedisM T ℤ := insertDevice g device

def deleteDevice (deviceId : Bytes) : RedisM T ℤ := do
  return retcode (← del (deviceKey g deviceId))

def clearDevice : RedisM T ℤ := delListed (getDeviceKeyList g)

def getChannelKeyList : RedisM T (List Bytes) := getKeys (channelMark ++ g)

def getChannelKeyListByDeviceId (deviceId : Bytes) : RedisM T (List Bytes) :=
  getKeys (channelMark ++ g ++ colon ++ deviceId)

def insertChannel (channel : Channel T.channel) : RedisM T ℤ := do
  return retcode (← setSerial (channel.key g) (.channel channel))

def updateChannel (channel : Channel T.channel) : RedisM T ℤ := insertChannel g channel

def deleteChannelByDeviceId (deviceId : Bytes) : RedisM T ℤ :=
  delListed (getChannelKeyListByDeviceId g deviceId)

def deleteChannelById (deviceId channelDeviceId : Bytes) : RedisM T ℤ := do
  return retcode (← del (channelKey g deviceId channelDeviceId))

def clearChannel : RedisM T ℤ := delListed (getChannelKeyList g)

variable (workerThreadIdx : ℤ)

def getInviteKeyList : RedisM T (List Bytes) :=
  getKeys (inviteMark ++ g ++ colon ++ intText workerThreadIdx)

def loadInviteKeys : List Bytes → RedisM T (List (ExecutingInviteCmd T.invite))
  | [] => return []
  | key :: keys => do
    match ← getSerial key with
    | some (.invite cmd) => return cmd :: (← loadInviteKeys keys)
    | _ => loadInviteKeys keys

def loadInvite : RedisM T (List (ExecutingInviteCmd T.invite)) := do
  loadInviteKeys (← getInviteKeyList g workerThreadIdx)

def insertInvite (cmd : ExecutingInviteCmd T.invite) : RedisM T ℤ := do
  return retcode (← setSerial (cmd.key g workerThreadIdx) (.invite cmd))

def updateInvite (cmd : ExecutingInviteCmd T.invite) : RedisM T ℤ := insertInvite g workerThreadIdx cmd

def deleteInvite (cmdSenderId deviceId : Bytes) (cmdSeq : ℤ) : RedisM T ℤ := do
  return retcode (← del (inviteKey g workerThreadIdx cmdSenderId deviceId cmdSeq))

def clearInvite : RedisM T ℤ := delListed (getInviteKeyList g workerThreadIdx)

end Managers

/-! ### When every command is done -/

theorem delAll_done (keys : List Bytes) (s : Store T) :
    delAll keys ⟨s, []⟩ = ((), ⟨keys.foldl (fun s key => s.erase key) s, []⟩) := by
  induction keys generalizing s with
  | nil => rfl
  | cons key keys ih => exact ih (s.erase key)

theorem lookup_foldl_erase (keys : List Bytes) (s : Store T) (key : Bytes) :
    (keys.foldl (fun s key => s.erase key) s).lookup key =
      if key ∈ keys then none else s.lookup key := by
  induction keys generalizing s with
  | nil => simp
  | cons k keys ih =>
    rw [foldl_cons, ih]
    rcases eq_or_ne key k with rfl | hne
    · simp
    · simp [hne, AList.lookup_erase_ne hne]

def inviteAt (s : Store T) (key : Bytes) : Option (ExecutingInviteCmd T.invite) :=
  match s.lookup key with
  | some (.invite cmd) => some cmd
  | _ => none

theorem loadInviteKeys_done (keys : List Bytes) (s : Store T) :
    loadInviteKeys keys ⟨s, []⟩ = (keys.filterMap (inviteAt s), ⟨s, []⟩) := by
  induction keys with
  | nil => rfl
  | cons key keys ih =>
    have hget : getSerial key ⟨s, []⟩ = (s.lookup key, (⟨s, []⟩ : Redis T)) := rfl
    rw [loadInviteKeys, filterMap_cons]
    simp only [bind, StateT.bind, hget, inviteAt]
    rcases s.lookup key with _ | (device | channel | cmd)
    case some.invite =>
      change (cmd :: (loadInviteKeys keys ⟨s, []⟩).1, (loadInviteKeys keys ⟨s, []⟩).2) = _
      rw [ih]
    all_goals exact ih

theorem mem_keysFrom {start key : Bytes} {s : Store T} :
    key ∈ keysFrom start s ↔ key ∈ s ∧ start <+: key := by
  simp [keysFrom, AList.mem_keys]

theorem delListed_done (start : Bytes) (s : Store T) (key : Bytes) :
    (delListed (getKeys start) ⟨s, []⟩).2.store.lookup key =
      if start <+: key then none else s.lookup key := by
  have hrun : (delListed (getKeys start) ⟨s, []⟩).2 = (delAll (keysFrom start s) ⟨s, []⟩).2 := rfl
  rw [hrun, delAll_done, lookup_foldl_erase]
  by_cases hkey : key ∈ s
  · simp [mem_keysFrom, hkey]
  · simp [mem_keysFrom, hkey, AList.lookup_eq_none.2 hkey]

/-! ### What is stored, and what a beginning of keys finds -/

inductive Entry (T : EntityTypes) where
  | device (g : Bytes) (device : Device T.device)
  | channel (g : Bytes) (channel : Channel T.channel)
  | invite (g : Bytes) (workerThreadIdx : ℤ) (cmd : ExecutingInviteCmd T.invite)

namespace Entry

def key : Entry T → Bytes
  | .device g x => deviceKey g x.deviceId.bytes
  | .channel g x => x.key g
  | .invite g w cmd => cmd.key g w

def record : Entry T → Record T
  | .device _ x => .device x
  | .channel _ x => .channel x
  | .invite _ _ cmd => .invite cmd

def ids : Entry T → List Bytes
  | .device g x => [g, x.deviceId.bytes]
  | .channel g x => [g, x.deviceId.bytes, x.channelDeviceId.bytes]
  | .invite g _ cmd => [g, cmd.cmdSenderId.bytes, cmd.deviceId.bytes]

def mark : Entry T → Bytes
  | .device .. => deviceMark
  | .channel .. => channelMark
  | .invite .. => inviteMark

def fields : Entry T → Bytes
  | .device g x => g ++ 58 :: x.deviceId.bytes
  | .channel g x => g ++ 58 :: (x.deviceId.bytes ++ 58 :: x.channelDeviceId.bytes)
  | .invite g w cmd => g ++ 58 :: (intText w ++ 58 :: (cmd.cmdSenderId.bytes ++ 58 ::
      (cmd.deviceId.bytes ++ 58 :: intText (toInt64 cmd.cmdSeq))))

theorem key_eq (e : Entry T) : e.key = e.mark ++ e.fields := by
  cases e <;> simp [key, mark, fields, deviceKey, Channel.key, channelKey, ExecutingInviteCmd.key,
    inviteKey, colon_eq]

def Clean (e : Entry T) : Prop := ∀ id ∈ e.ids, 58 ∉ id

end Entry

def Sound (s : Store T) : Prop :=
  ∀ key x, s.lookup key = some x → ∃ e : Entry T, e.Clean ∧ e.key = key ∧ e.record = x

theorem Sound.exists_entry {s : Store T} (hs : Sound s) {key : Bytes} (hkey : key ∈ s) :
    ∃ e : Entry T, e.Clean ∧ e.key = key ∧ s.lookup key = some e.record := by
  obtain ⟨x, hx⟩ := Option.isSome_iff_exists.1 (AList.lookup_isSome.2 hkey)
  obtain ⟨e, he, hkey, rfl⟩ := hs key x hx
  exact ⟨e, he, hkey, hx⟩

theorem Sound.empty : Sound (∅ : Store T) := fun key x h => by simp at h

theorem Sound.insert {s : Store T} (hs : Sound s) {e : Entry T} (he : e.Clean) :
    Sound (s.insert e.key e.record) := by
  intro key x hx
  rcases eq_or_ne key e.key with rfl | hne
  · rw [AList.lookup_insert] at hx
    exact ⟨e, he, rfl, some.inj hx⟩
  · rw [AList.lookup_insert_ne hne] at hx
    exact hs key x hx

def storeOf (entries : List (Entry T)) : Store T :=
  entries.foldl (fun s e => s.insert e.key e.record) ∅

theorem sound_storeOf {entries : List (Entry T)} (h : ∀ e ∈ entries, e.Clean) :
    Sound (storeOf entries) := by
  suffices ∀ s : Store T, Sound s → Sound (entries.foldl (fun s e => s.insert e.key e.record) s) from
    this ∅ Sound.empty
  induction entries with
  | nil => exact fun s hs => hs
  | cons e entries ih =>
    intro s hs
    obtain ⟨he, hrest⟩ := forall_mem_cons.1 h
    exact ih hrest _ (hs.insert he)

theorem colon_notMem_intText (z : ℤ) : 58 ∉ intText z := by
  intro h
  rcases mem_intText h with h | h
  · exact absurd h (by decide)
  · exact absurd h (by decide)

section Found

variable {g d : Bytes} {w : ℤ} {e : Entry T}

theorem mark_eq_of_isPrefix {m m' x y : Bytes} (hm : m ∈ [deviceMark, channelMark, inviteMark])
    (hm' : m' ∈ [deviceMark, channelMark, inviteMark]) (h : m ++ x <+: m' ++ y) : m = m' := by
  have hapart : ∀ m ∈ [deviceMark, channelMark, inviteMark],
      ∀ m' ∈ [deviceMark, channelMark, inviteMark], m <+: m' ∨ m' <+: m → m = m' := by
    decide
  have hnested : m <+: m' ∨ m' <+: m :=
    prefix_or_prefix_of_prefix ((prefix_append m x).trans h) (prefix_append m' y)
  exact hapart m hm m' hm' hnested

theorem Entry.mark_mem (e : Entry T) : e.mark ∈ [deviceMark, channelMark, inviteMark] := by
  cases e <;> simp [Entry.mark]

theorem Entry.exists_eq_device (h : e.mark = deviceMark) : ∃ g x, e = .device g x := by
  cases e with
  | device g x => exact ⟨g, x, rfl⟩
  | channel => exact absurd h (by simp only [Entry.mark]; decide)
  | invite => exact absurd h (by simp only [Entry.mark]; decide)

theorem Entry.exists_eq_channel (h : e.mark = channelMark) : ∃ g x, e = .channel g x := by
  cases e with
  | device => exact absurd h (by simp only [Entry.mark]; decide)
  | channel g x => exact ⟨g, x, rfl⟩
  | invite => exact absurd h (by simp only [Entry.mark]; decide)

theorem Entry.exists_eq_invite (h : e.mark = inviteMark) : ∃ g w cmd, e = .invite g w cmd := by
  cases e with
  | device => exact absurd h (by simp only [Entry.mark]; decide)
  | channel => exact absurd h (by simp only [Entry.mark]; decide)
  | invite g w cmd => exact ⟨g, w, cmd, rfl⟩

theorem Entry.mark_eq_of_isPrefix_key {m x : Bytes} (hm : m ∈ [deviceMark, channelMark, inviteMark])
    (h : m ++ x <+: e.key) : e.mark = m := by
  rw [e.key_eq] at h
  exact (mark_eq_of_isPrefix hm e.mark_mem h).symm

theorem inviteStart_isPrefix_inviteKey_iff {g' : Bytes} {w' : ℤ} {cmd : ExecutingInviteCmd T.invite}
    (hg : 58 ∉ g) (hg' : 58 ∉ g') :
    inviteMark ++ g ++ colon ++ intText w <+: (Entry.invite g' w' cmd).key ↔
      g = g' ∧ intText w <+: intText w' := by
  have hstart : inviteMark ++ g ++ colon ++ intText w = inviteMark ++ (g ++ 58 :: intText w) := by
    simp [colon_eq]
  rw [hstart, Entry.key_eq, Entry.mark, Entry.fields, prefix_append_right_inj,
    StdString.field_isPrefix_iff hg hg', StdString.isPrefix_field_iff (colon_notMem_intText w)]

theorem inviteStart_isPrefix_iff (he : e.Clean) (hg : 58 ∉ g) :
    inviteMark ++ g ++ colon ++ intText w <+: e.key ↔
      ∃ w' cmd, e = .invite g w' cmd ∧ intText w <+: intText w' := by
  constructor
  · intro h
    have hmark : e.mark = inviteMark := by
      refine Entry.mark_eq_of_isPrefix_key (x := g ++ colon ++ intText w) (by simp) ?_
      simpa only [append_assoc] using h
    obtain ⟨g', w', cmd, rfl⟩ := Entry.exists_eq_invite hmark
    have hg' : 58 ∉ g' := he g' (by simp [Entry.ids])
    obtain ⟨rfl, hw⟩ := (inviteStart_isPrefix_inviteKey_iff hg hg').1 h
    exact ⟨w', cmd, rfl, hw⟩
  · rintro ⟨w', cmd, rfl, hw⟩
    exact (inviteStart_isPrefix_inviteKey_iff hg hg).2 ⟨rfl, hw⟩

theorem channelStart_isPrefix_channelKey_iff {g' : Bytes} {x : Channel T.channel} (hg : 58 ∉ g)
    (hg' : 58 ∉ g') (hd : 58 ∉ d) :
    channelMark ++ g ++ colon ++ d <+: (Entry.channel g' x : Entry T).key ↔
      g = g' ∧ d <+: x.deviceId.bytes := by
  have hstart : channelMark ++ g ++ colon ++ d = channelMark ++ (g ++ 58 :: d) := by
    simp [colon_eq]
  rw [hstart, Entry.key_eq, Entry.mark, Entry.fields, prefix_append_right_inj,
    StdString.field_isPrefix_iff hg hg', StdString.isPrefix_field_iff hd]

theorem channelStart_isPrefix_iff (he : e.Clean) (hg : 58 ∉ g) (hd : 58 ∉ d) :
    channelMark ++ g ++ colon ++ d <+: e.key ↔
      ∃ channel, e = .channel g channel ∧ d <+: channel.deviceId.bytes := by
  constructor
  · intro h
    have hmark : e.mark = channelMark := by
      refine Entry.mark_eq_of_isPrefix_key (x := g ++ colon ++ d) (by simp) ?_
      simpa only [append_assoc] using h
    obtain ⟨g', x, rfl⟩ := Entry.exists_eq_channel hmark
    have hg' : 58 ∉ g' := he g' (by simp [Entry.ids])
    obtain ⟨rfl, hx⟩ := (channelStart_isPrefix_channelKey_iff hg hg' hd).1 h
    exact ⟨x, rfl, hx⟩
  · rintro ⟨x, rfl, hx⟩
    exact (channelStart_isPrefix_channelKey_iff hg hg hd).2 ⟨rfl, hx⟩

end Found

/-! ### Exact listings -/

def InviteUnder (s : Store T) (g : Bytes) (w : ℤ) (key : Bytes) : Prop :=
  ∃ cmd ∈ inviteAt s key, key = cmd.key g w

instance (s : Store T) (g : Bytes) (w : ℤ) : DecidablePred (InviteUnder s g w) := fun key =>
  inferInstanceAs (Decidable (∃ cmd ∈ inviteAt s key, key = cmd.key g w))

def invitesUnder (s : Store T) (g : Bytes) (w : ℤ) : List (ExecutingInviteCmd T.invite) :=
  (s.keys.filter fun key => InviteUnder s g w key).filterMap (inviteAt s)

def ChannelUnder (s : Store T) (g d key : Bytes) : Prop :=
  ∃ channel, s.lookup key = some (.channel channel) ∧ key = channel.key g ∧ channel.deviceId.bytes = d

def IsWithout (s s' : Store T) (P : Bytes → Prop) : Prop :=
  ∀ key, (P key → s'.lookup key = none) ∧ (¬ P key → s'.lookup key = s.lookup key)

def InvitesApart (s : Store T) (g : Bytes) (w : ℤ) : Prop :=
  ∀ w' cmd, s.lookup (cmd.key g w') = some (.invite cmd) → intText w <+: intText w' → w' = w

def ChannelsApart (s : Store T) (g d : Bytes) : Prop :=
  ∀ channel, s.lookup (channel.key g) = some (.channel channel) → d <+: channel.deviceId.bytes →
    channel.deviceId.bytes = d

section Exact

variable {s : Store T} {g d : Bytes} {w : ℤ}

theorem ExecutingInviteCmd.key_inj {cmd : ExecutingInviteCmd T.invite} {w' : ℤ} :
    cmd.key g w' = cmd.key g w ↔ w' = w := by
  refine ⟨fun h => ?_, fun h => h ▸ rfl⟩
  have hkey := (Entry.key_eq (.invite g w' cmd)).symm.trans (h.trans (Entry.key_eq (.invite g w cmd)))
  have hfields := append_cancel_left (append_cancel_left hkey)
  have := (StdString.field_eq_iff (colon_notMem_intText w') (colon_notMem_intText w)).1
    (cons.inj hfields).2
  exact intText_injective this.1

theorem inviteAt_eq_some {key : Bytes} {cmd : ExecutingInviteCmd T.invite} :
    inviteAt s key = some cmd ↔ s.lookup key = some (.invite cmd) := by
  unfold inviteAt
  rcases s.lookup key with _ | (x | x | x) <;> simp

theorem invitesApart_iff (hs : Sound s) (hg : 58 ∉ g) :
    InvitesApart s g w ↔
      ∀ key ∈ s, inviteMark ++ g ++ colon ++ intText w <+: key → InviteUnder s g w key := by
  constructor
  · intro h key hkey hstart
    obtain ⟨e, he, rfl, hx⟩ := hs.exists_entry hkey
    obtain ⟨w', cmd, rfl, hpre⟩ := (inviteStart_isPrefix_iff he hg).1 hstart
    exact ⟨cmd, inviteAt_eq_some.2 hx, congrArg (cmd.key g) (h w' cmd hx hpre)⟩
  · intro h w' cmd hcmd hpre
    have hstart : inviteMark ++ g ++ colon ++ intText w <+: cmd.key g w' :=
      (inviteStart_isPrefix_inviteKey_iff hg hg).2 ⟨rfl, hpre⟩
    obtain ⟨cmd', hcmd', hkey⟩ := h _ (AList.lookup_isSome.1 (by rw [hcmd]; rfl)) hstart
    cases Record.invite.inj (some.inj (hcmd.symm.trans (inviteAt_eq_some.1 hcmd')))
    exact ExecutingInviteCmd.key_inj.1 hkey

theorem channelsApart_iff (hs : Sound s) (hg : 58 ∉ g) (hd : 58 ∉ d) :
    ChannelsApart s g d ↔
      ∀ key ∈ s, channelMark ++ g ++ colon ++ d <+: key → ChannelUnder s g d key := by
  constructor
  · intro h key hkey hstart
    obtain ⟨e, he, rfl, hx⟩ := hs.exists_entry hkey
    obtain ⟨channel, rfl, hpre⟩ := (channelStart_isPrefix_iff he hg hd).1 hstart
    exact ⟨channel, hx, rfl, h channel hx hpre⟩
  · intro h channel hchannel hpre
    have hstart : channelMark ++ g ++ colon ++ d <+: channel.key g :=
      (channelStart_isPrefix_channelKey_iff (T := T) hg hg hd).2 ⟨rfl, hpre⟩
    obtain ⟨channel', hchannel', -, hdevice⟩ :=
      h _ (AList.lookup_isSome.1 (by rw [hchannel]; rfl)) hstart
    cases Record.channel.inj (some.inj (hchannel.symm.trans hchannel'))
    exact hdevice

theorem InviteUnder.start {key : Bytes} (h : InviteUnder s g w key) :
    inviteMark ++ g ++ colon ++ intText w <+: key := by
  obtain ⟨cmd, -, rfl⟩ := h
  exact ⟨colon ++ cmd.cmdSenderId.bytes ++ colon ++ cmd.deviceId.bytes ++ colon ++
    intText (toInt64 cmd.cmdSeq), by simp [ExecutingInviteCmd.key, inviteKey]⟩

theorem ChannelUnder.start {key : Bytes} (h : ChannelUnder s g d key) :
    channelMark ++ g ++ colon ++ d <+: key := by
  obtain ⟨channel, -, rfl, rfl⟩ := h
  exact ⟨colon ++ channel.channelDeviceId.bytes, by simp [Channel.key, channelKey]⟩

theorem delListed_isWithout_iff {start : Bytes} {P : Bytes → Prop} (hP : ∀ key, P key → start <+: key) :
    IsWithout s (delListed (getKeys start) ⟨s, []⟩).2.store P ↔ ∀ key ∈ s, start <+: key → P key := by
  constructor
  · intro h key hkey hstart
    by_contra hnot
    have := (h key).2 hnot
    rw [delListed_done, if_pos hstart] at this
    exact AList.lookup_eq_none.1 this.symm hkey
  · intro h key
    rw [delListed_done]
    refine ⟨fun hkey => if_pos (hP key hkey), fun hnot => ?_⟩
    split
    case isTrue hstart => exact (AList.lookup_eq_none.2 fun hkey => hnot (h key hkey hstart)).symm
    case isFalse => rfl

theorem filter_filterMap_eq_iff {α β : Type*} {P Q : α → Bool} {f : α → Option β} {l : List α}
    (hsub : ∀ a ∈ l, Q a = true → P a = true) (hf : ∀ a ∈ l, P a = true → (f a).isSome = true) :
    (l.filter P).filterMap f = (l.filter Q).filterMap f ↔ ∀ a ∈ l, P a = true → Q a = true := by
  have hlength : ∀ R : α → Bool, (∀ a ∈ l, R a = true → P a = true) →
      ((l.filter R).filterMap f).length = (l.filter R).length := by
    intro R hR
    refine filterMap_length_eq_length.2 fun a ha => ?_
    obtain ⟨hl, hRa⟩ := mem_filter.1 ha
    exact hf a hl (hR a hl hRa)
  constructor
  · intro h a ha hPa
    -- the smaller selection is a sublist of the same length
    have hsublist : (l.filter Q).Sublist (l.filter P) := by
      have : l.filter Q = (l.filter P).filter Q := by
        rw [List.filter_filter]
        exact filter_congr fun a ha => by
          cases hQ : Q a
          · simp
          · simp [hsub a ha hQ]
      exact this ▸ filter_sublist
    have heq : l.filter Q = l.filter P := by
      refine hsublist.eq_of_length ?_
      rw [← hlength Q hsub, ← hlength P fun _ _ => id, h]
    exact (mem_filter.1 (heq ▸ mem_filter.2 ⟨ha, hPa⟩)).2
  · intro h
    rw [filter_congr fun a ha => Bool.eq_iff_iff.2 ⟨h a ha, hsub a ha⟩]

theorem inviteAt_isSome (hs : Sound s) (hg : 58 ∉ g) {key : Bytes} (hkey : key ∈ s)
    (hstart : inviteMark ++ g ++ colon ++ intText w <+: key) : (inviteAt s key).isSome = true := by
  obtain ⟨e, he, rfl, hx⟩ := hs.exists_entry hkey
  obtain ⟨w', cmd, rfl, -⟩ := (inviteStart_isPrefix_iff he hg).1 hstart
  rw [inviteAt_eq_some.2 hx]
  rfl

theorem loadInvite_eq_iff (hs : Sound s) (hg : 58 ∉ g) :
    (loadInvite g w ⟨s, []⟩).1 = invitesUnder s g w ↔ InvitesApart s g w := by
  have hrun : (loadInvite g w ⟨s, []⟩).1 =
      (loadInviteKeys (keysFrom (inviteMark ++ g ++ colon ++ intText w) s) ⟨s, []⟩).1 := rfl
  rw [hrun, loadInviteKeys_done, invitesUnder, keysFrom, filter_filterMap_eq_iff,
    invitesApart_iff hs hg]
  · simp [AList.mem_keys]
  · intro key _ hkey
    simpa using (of_decide_eq_true hkey).start
  · intro key hmem hstart
    exact inviteAt_isSome hs hg hmem ( isPrefixOf_iff_prefix.1 hstart)

end Exact

theorem listing_exact_iff {s : Store T} (hs : Sound s) {g d : Bytes} (hg : 58 ∉ g) (hd : 58 ∉ d)
    (w : ℤ) :
    ((loadInvite g w ⟨s, []⟩).1 = invitesUnder s g w ↔ InvitesApart s g w) ∧
    (IsWithout s (clearInvite g w ⟨s, []⟩).2.store (InviteUnder s g w) ↔ InvitesApart s g w) ∧
    (IsWithout s (deleteChannelByDeviceId g d ⟨s, []⟩).2.store (ChannelUnder s g d) ↔
      ChannelsApart s g d) := by
  refine ⟨loadInvite_eq_iff hs hg, ?_, ?_⟩
  · rw [invitesApart_iff hs hg]
    exact delListed_isWithout_iff fun _ h => h.start
  · rw [channelsApart_iff hs hg hd]
    exact delListed_isWithout_iff fun _ h => h.start

def sampleInvite (deviceId : Text) : ExecutingInviteCmd sampleTypes.invite :=
  { (default : ExecutingInviteCmd sampleTypes.invite) with
    cmdSenderId := ⟨ascii "S", by decide⟩, deviceId := deviceId }

def sampleChannel (deviceId : Text) : Channel sampleTypes.channel :=
  { (default : Channel sampleTypes.channel) with
    deviceId := deviceId, channelDeviceId := ⟨ascii "C", by decide⟩ }

def sampleEntries : List (Entry sampleTypes) :=
  let p1 : Text := ⟨ascii "P1", by decide⟩
  let p12 : Text := ⟨ascii "P12", by decide⟩
  [.invite (ascii "G") 1 (sampleInvite p1), .invite (ascii "G") 12 (sampleInvite p12),
    .invite (ascii "H") 1 (sampleInvite p12), .channel (ascii "G") (sampleChannel p1),
    .channel (ascii "G") (sampleChannel p12)]

theorem sampleEntries_clean : ∀ e ∈ sampleEntries, e.Clean := by
  unfold sampleEntries Entry.Clean
  decide

theorem listing_exact_iff_sample :
    Sound (storeOf sampleEntries) ∧
    IsWithout (storeOf sampleEntries)
      (clearInvite (ascii "G") 12 ⟨storeOf sampleEntries, []⟩).2.store
      (InviteUnder (storeOf sampleEntries) (ascii "G") 12) := by
  have hs := sound_storeOf sampleEntries_clean
  have h := listing_exact_iff hs (g := ascii "G") (d := ascii "P12") (by decide) (by decide) 12
  exact ⟨hs, h.2.1.2 (h.1.1 (by decide +kernel))⟩

theorem listing_crosses :
    Sound (storeOf sampleEntries) ∧
    (loadInvite (ascii "G") 1 ⟨storeOf sampleEntries, []⟩).1 ≠
      invitesUnder (storeOf sampleEntries) (ascii "G") 1 ∧
    (∃ cmd : ExecutingInviteCmd sampleTypes.invite,
      (storeOf sampleEntries).lookup (cmd.key (ascii "G") 12) = some (.invite cmd) ∧
      (clearInvite (ascii "G") 1 ⟨storeOf sampleEntries, []⟩).2.store.lookup
        (cmd.key (ascii "G") 12) = none) ∧
    (∃ channel : Channel sampleTypes.channel, channel.deviceId.bytes = ascii "P12" ∧
      (storeOf sampleEntries).lookup (channel.key (ascii "G")) = some (.channel channel) ∧
      (deleteChannelByDeviceId (ascii "G") (ascii "P1") ⟨storeOf sampleEntries, []⟩).2.store.lookup
        (channel.key (ascii "G")) = none) := by
  refine ⟨sound_storeOf sampleEntries_clean, by decide +kernel,
    ⟨sampleInvite ⟨ascii "P12", by decide⟩, by decide +kernel, by decide +kernel⟩,
    ⟨sampleChannel ⟨ascii "P12", by decide⟩, rfl, by decide +kernel, by decide +kernel⟩⟩

end GBDownLinker
