/-
**Saving and loading devices, channels and invite commands (`serialize_entity.cpp`).**

The types of the fields that are only handed to the stream operators, and the values of the enumerations of command
types, are parameters.  `load` works on an object that exists already and on local variables that are not
initialized; their values are arguments here.
-/

import BackendProgramming.DbStream

set_option autoImplicit false

namespace GBDownLinker

open CText List

/-! ### Fields -/

abbrev Text := FieldType.string.Val

abbrev Code := FieldType.uint8.Val

structure Field where
  type : FieldType
  value : type.Val
  steers : Bool
  deriving DecidableEq

abbrev Field.plain (type : FieldType) (value : type.Val) : Field := ⟨type, value, false⟩

def encodeAll (fs : List Field) : Bytes := fs.flatMap fun f => f.type.encode f.value

theorem encodeAll_cons (f : Field) (fs : List Field) :
    encodeAll (f :: fs) = f.type.encode f.value ++ encodeAll fs := rfl

theorem encodeAll_append (fs gs : List Field) :
    encodeAll (fs ++ gs) = encodeAll fs ++ encodeAll gs := by
  simp [encodeAll]

theorem Writes.cons {t : FieldType} {v : t.Val} {steers : Bool} {m : Save Unit} {fs : List Field}
    (h : Writes m (encodeAll fs)) :
    Writes (write t v >>= fun _ => m) (encodeAll (⟨t, v, steers⟩ :: fs)) :=
  (writes_write t v).bind h

theorem Writes.last {t : FieldType} {v : t.Val} {steers : Bool} :
    Writes (write t v) (encodeAll [⟨t, v, steers⟩]) := by
  rw [encodeAll_cons, encodeAll, flatMap_nil, append_nil]
  exact writes_write t v

theorem Writes.append {m m' : Save Unit} {fs gs : List Field} (h : Writes m (encodeAll fs))
    (h' : Writes m' (encodeAll gs)) :
    Writes (m >>= fun _ => m') (encodeAll (fs ++ gs)) := by
  rw [encodeAll_append]
  exact h.bind h'

section Reads

variable {α β : Type}

theorem Reads.cons {t : FieldType} {old v : t.Val} {steers : Bool} {f : t.Val → Load β}
    {fs : List Field} {b : β} (h : Reads (f v) (encodeAll fs) b) :
    Reads (read t old >>= f) (encodeAll (⟨t, v, steers⟩ :: fs)) b :=
  (reads_read t old v).bind h

theorem Reads.append {m : Load α} {f : α → Load β} {fs gs : List Field} {a : α} {b : β}
    (h : Reads m (encodeAll fs) a) (h' : Reads (f a) (encodeAll gs) b) :
    Reads (m >>= f) (encodeAll (fs ++ gs)) b := by
  rw [encodeAll_append]
  exact h.bind h'

end Reads

/-! ### Channels -/

structure ChannelTypes where
  channelName : FieldType
  channelManufacturer : FieldType
  channelModel : FieldType
  channelOwner : FieldType
  channelCivilCode : FieldType
  channelAddress : FieldType
  channelParental : FieldType
  channelParentId : FieldType
  channelSafetyWay : FieldType
  channelRegisterWay : FieldType
  channelSecrecy : FieldType

structure Channel (T : ChannelTypes) where
  deviceId : Text
  channelDeviceId : Text
  channelName : T.channelName.Val
  channelManufacturer : T.channelManufacturer.Val
  channelModel : T.channelModel.Val
  channelOwner : T.channelOwner.Val
  channelCivilCode : T.channelCivilCode.Val
  channelAddress : T.channelAddress.Val
  channelParental : T.channelParental.Val
  channelParentId : T.channelParentId.Val
  channelSafetyWay : T.channelSafetyWay.Val
  channelRegisterWay : T.channelRegisterWay.Val
  channelSecrecy : T.channelSecrecy.Val
  channelStatus : Code
  deriving DecidableEq, Inhabited

namespace Channel

variable {T : ChannelTypes}

def save (channel : Channel T) : Save Unit := do
  write .string channel.deviceId
  write .string channel.channelDeviceId
  write T.channelName channel.channelName
  write T.channelManufacturer channel.channelManufacturer
  write T.channelModel channel.channelModel
  write T.channelOwner channel.channelOwner
  write T.channelCivilCode channel.channelCivilCode
  write T.channelAddress channel.channelAddress
  write T.channelParental channel.channelParental
  write T.channelParentId channel.channelParentId
  write T.channelSafetyWay channel.channelSafetyWay
  write T.channelRegisterWay channel.channelRegisterWay
  write T.channelSecrecy channel.channelSecrecy
  write .uint8 channel.channelStatus

def load (channel : Channel T) (status : Code) : Load (Channel T) := do
  let deviceId ← read .string channel.deviceId
  let channelDeviceId ← read .string channel.channelDeviceId
  let channelName ← read T.channelName channel.channelName
  let channelManufacturer ← read T.channelManufacturer channel.channelManufacturer
  let channelModel ← read T.channelModel channel.channelModel
  let channelOwner ← read T.channelOwner channel.channelOwner
  let channelCivilCode ← read T.channelCivilCode channel.channelCivilCode
  let channelAddress ← read T.channelAddress channel.channelAddress
  let channelParental ← read T.channelParental channel.channelParental
  let channelParentId ← read T.channelParentId channel.channelParentId
  let channelSafetyWay ← read T.channelSafetyWay channel.channelSafetyWay
  let channelRegisterWay ← read T.channelRegisterWay channel.channelRegisterWay
  let channelSecrecy ← read T.channelSecrecy channel.channelSecrecy
  let status ← read .uint8 status
  return { deviceId, channelDeviceId, channelName, channelManufacturer, channelModel,
           channelOwner, channelCivilCode, channelAddress, channelParental, channelParentId,
           channelSafetyWay, channelRegisterWay, channelSecrecy, channelStatus := status }

def fields (channel : Channel T) : List Field :=
  [.plain .string channel.deviceId,
   .plain .string channel.channelDeviceId,
   .plain T.channelName channel.channelName,
   .plain T.channelManufacturer channel.channelManufacturer,
   .plain T.channelModel channel.channelModel,
   .plain T.channelOwner channel.channelOwner,
   .plain T.channelCivilCode channel.channelCivilCode,
   .plain T.channelAddress channel.channelAddress,
   .plain T.channelParental channel.channelParental,
   .plain T.channelParentId channel.channelParentId,
   .plain T.channelSafetyWay channel.channelSafetyWay,
   .plain T.channelRegisterWay channel.channelRegisterWay,
   .plain T.channelSecrecy channel.channelSecrecy,
   .plain .uint8 channel.channelStatus]

theorem writes_save (channel : Channel T) : Writes channel.save (encodeAll channel.fields) := by
  unfold save fields
  repeat refine .cons ?_
  exact .last

theorem reads_load (channel old : Channel T) (status : Code) :
    Reads (load old status) (encodeAll channel.fields) channel := by
  unfold load fields
  repeat refine .cons ?_
  exact .pure channel

end Channel

/-! ### Devices -/

structure Tm where
  tm_sec : FieldType.int32.Val
  tm_min : FieldType.int32.Val
  tm_hour : FieldType.int32.Val
  tm_mday : FieldType.int32.Val
  tm_mon : FieldType.int32.Val
  tm_year : FieldType.int32.Val
  tm_wday : FieldType.int32.Val
  tm_yday : FieldType.int32.Val
  tm_isdst : FieldType.int32.Val
  deriving DecidableEq, Inhabited

def savetime : Option Tm → Save Unit
  | none => write .uint8 ⟨[0], rfl⟩
  | some time => do
    write .uint8 ⟨[1], rfl⟩
    write .int32 time.tm_sec
    write .int32 time.tm_min
    write .int32 time.tm_hour
    write .int32 time.tm_mday
    write .int32 time.tm_mon
    write .int32 time.tm_year
    write .int32 time.tm_wday
    write .int32 time.tm_yday
    write .int32 time.tm_isdst

def loadtime (flag : Code) (time : Tm) : Load (Option Tm) := do
  let flag ← read .uint8 flag
  if flag.bytes = [0] then return none
  else if flag.bytes = [1] then
    let tm_sec ← read .int32 time.tm_sec
    let tm_min ← read .int32 time.tm_min
    let tm_hour ← read .int32 time.tm_hour
    let tm_mday ← read .int32 time.tm_mday
    let tm_mon ← read .int32 time.tm_mon
    let tm_year ← read .int32 time.tm_year
    let tm_wday ← read .int32 time.tm_wday
    let tm_yday ← read .int32 time.tm_yday
    let tm_isdst ← read .int32 time.tm_isdst
    return some
      { tm_sec, tm_min, tm_hour, tm_mday, tm_mon, tm_year, tm_wday, tm_yday, tm_isdst }
  else fun _ => none

def timeFields : Option Tm → List Field
  | none => [⟨.uint8, ⟨[0], rfl⟩, true⟩]
  | some time =>
    [⟨.uint8, ⟨[1], rfl⟩, true⟩,
     .plain .int32 time.tm_sec,
     .plain .int32 time.tm_min,
     .plain .int32 time.tm_hour,
     .plain .int32 time.tm_mday,
     .plain .int32 time.tm_mon,
     .plain .int32 time.tm_year,
     .plain .int32 time.tm_wday,
     .plain .int32 time.tm_yday,
     .plain .int32 time.tm_isdst]

theorem writes_savetime (time : Option Tm) : Writes (savetime time) (encodeAll (timeFields time)) := by
  cases time with
  | none => exact .last
  | some time =>
    unfold savetime timeFields
    repeat refine .cons ?_
    exact .last

theorem reads_loadtime (time : Option Tm) (flag : Code) (old : Tm) :
    Reads (loadtime flag old) (encodeAll (timeFields time)) time := by
  cases time with
  | none => exact .cons (.pure none)
  | some time =>
    refine .cons ?_
    rw [if_neg (by decide), if_pos rfl]
    repeat refine .cons ?_
    exact .pure (some time)

structure ChannelIds where
  deviceId : Text
  channelDeviceId : Text
  deriving DecidableEq

def uint32Of (n : ℕ) : FieldType.uint32.Val :=
  ⟨[.ofNat n, .ofNat (n / 256), .ofNat (n / 65536), .ofNat (n / 16777216)], rfl⟩

def FieldType.Val.toNat (v : FieldType.uint32.Val) : ℕ :=
  v.bytes.foldr (fun b n => b.toNat + 256 * n) 0

theorem toNat_uint32Of {n : ℕ} (h : n < 2 ^ 32) : (uint32Of n).toNat = n := by
  simp only [uint32Of, FieldType.Val.toNat, foldr_cons, foldr_nil, UInt8.toNat_ofNat']
  omega

def saveIds : List ChannelIds → Save Unit
  | [] => pure ()
  | ids :: rest => do
    write .string ids.deviceId
    write .string ids.channelDeviceId
    saveIds rest

def savechannellist (channellist : Option (List ChannelIds)) : Save Unit :=
  match channellist with
  | none => write .uint32 (uint32Of 0)
  | some list => do
    write .uint32 (uint32Of list.length)
    saveIds list

def loadIds : ℕ → Load (List ChannelIds)
  | 0 => return []
  | n + 1 => do
    let deviceId ← read .string ⟨[], by decide⟩
    let channelDeviceId ← read .string ⟨[], by decide⟩
    let rest ← loadIds n
    return { deviceId, channelDeviceId } :: rest

def loadchannellist (channelSize : FieldType.uint32.Val) : Load (Option (List ChannelIds)) := do
  let channelSize ← read .uint32 channelSize
  let list ← loadIds channelSize.toNat
  return some list

def idsFields (list : List ChannelIds) : List Field :=
  list.flatMap fun ids => [.plain .string ids.deviceId, .plain .string ids.channelDeviceId]

def channellistFields (channellist : Option (List ChannelIds)) : List Field :=
  ⟨.uint32, uint32Of (channellist.getD []).length, true⟩ :: idsFields (channellist.getD [])

theorem writes_saveIds (list : List ChannelIds) : Writes (saveIds list) (encodeAll (idsFields list)) := by
  induction list with
  | nil => exact .pure
  | cons ids rest ih => exact .cons (.cons ih)

theorem writes_savechannellist (channellist : Option (List ChannelIds)) :
    Writes (savechannellist channellist) (encodeAll (channellistFields channellist)) := by
  cases channellist with
  | none => exact .last
  | some list => exact .cons (writes_saveIds list)

theorem reads_loadIds (list : List ChannelIds) :
    Reads (loadIds list.length) (encodeAll (idsFields list)) list := by
  induction list with
  | nil => exact .pure []
  | cons ids rest ih =>
    exact .cons (.cons (ih.result _))

theorem reads_loadchannellist (channellist : Option (List ChannelIds))
    (old : FieldType.uint32.Val) (h : (channellist.getD []).length < 2 ^ 32) :
    Reads (loadchannellist old) (encodeAll (channellistFields channellist))
      (some (channellist.getD [])) := by
  refine .cons ?_
  rw [toNat_uint32Of h]
  exact (reads_loadIds _).result _

structure DeviceTypes where
  deviceSipIp : FieldType
  deviceSipPort : FieldType
  viaIp : FieldType
  viaPort : FieldType
  domain : FieldType
  registerExpires : FieldType
  keepaliveExpires : FieldType
  queryCatalogSN : FieldType
  queryCatalogNumber : FieldType
  queryCatalogSipTid : FieldType
  subscribeCatalogSN : FieldType
  subscribeCatalogNumber : FieldType
  subscribeCatalogSipSid : FieldType
  keepaliveTimerId : FieldType

structure Device (T : DeviceTypes) where
  deviceId : Text
  deviceSipIp : T.deviceSipIp.Val
  deviceSipPort : T.deviceSipPort.Val
  viaIp : T.viaIp.Val
  viaPort : T.viaPort.Val
  domain : T.domain.Val
  deviceState : Code
  deviceStateChangeTime : Option Tm
  registerLastTime : Option Tm
  registerExpires : T.registerExpires.Val
  keepaliveLastTime : Option Tm
  keepaliveExpires : T.keepaliveExpires.Val
  queryCatalogState : Code
  queryCatalogSN : T.queryCatalogSN.Val
  queryCatalogNumber : T.queryCatalogNumber.Val
  queryCatalogSipTid : T.queryCatalogSipTid.Val
  subscribeCatalogState : Code
  subscribeCatalogSN : T.subscribeCatalogSN.Val
  subscribeCatalogNumber : T.subscribeCatalogNumber.Val
  subscribeCatalogSipSid : T.subscribeCatalogSipSid.Val
  keepaliveTimerId : T.keepaliveTimerId.Val
  channelList : Option (List ChannelIds)
  deriving DecidableEq, Inhabited

structure DeviceLocals where
  state : Code
  flag : Code
  time : Tm
  channelSize : FieldType.uint32.Val
  deriving Inhabited

namespace Device

variable {T : DeviceTypes}

def save (device : Device T) : Save Unit := do
  write .string device.deviceId
  write T.deviceSipIp device.deviceSipIp
  write T.deviceSipPort device.deviceSipPort
  write T.viaIp device.viaIp
  write T.viaPort device.viaPort
  write T.domain device.domain
  write .uint8 device.deviceState
  savetime device.deviceStateChangeTime
  write T.registerExpires device.registerExpires
  write T.keepaliveExpires device.keepaliveExpires
  write .uint8 device.queryCatalogState
  write T.queryCatalogSN device.queryCatalogSN
  write T.queryCatalogNumber device.queryCatalogNumber
  write T.queryCatalogSipTid device.queryCatalogSipTid
  write .uint8 device.subscribeCatalogState
  write T.subscribeCatalogSN device.subscribeCatalogSN
  write T.subscribeCatalogNumber device.subscribeCatalogNumber
  write T.subscribeCatalogSipSid device.subscribeCatalogSipSid
  write T.keepaliveTimerId device.keepaliveTimerId
  savechannellist device.channelList

def load (device : Device T) (locals : DeviceLocals) : Load (Device T) := do
  let deviceId ← read .string device.deviceId
  let deviceSipIp ← read T.deviceSipIp device.deviceSipIp
  let deviceSipPort ← read T.deviceSipPort device.deviceSipPort
  let viaIp ← read T.viaIp device.viaIp
  let viaPort ← read T.viaPort device.viaPort
  let domain ← read T.domain device.domain
  let deviceState ← read .uint8 locals.state
  let deviceStateChangeTime ← loadtime locals.flag locals.time
  let registerExpires ← read T.registerExpires device.registerExpires
  let keepaliveExpires ← read T.keepaliveExpires device.keepaliveExpires
  let queryCatalogState ← read .uint8 deviceState
  let queryCatalogSN ← read T.queryCatalogSN device.queryCatalogSN
  let queryCatalogNumber ← read T.queryCatalogNumber device.queryCatalogNumber
  let queryCatalogSipTid ← read T.queryCatalogSipTid device.queryCatalogSipTid
  let subscribeCatalogState ← read .uint8 queryCatalogState
  let subscribeCatalogSN ← read T.subscribeCatalogSN device.subscribeCatalogSN
  let subscribeCatalogNumber ← read T.subscribeCatalogNumber device.subscribeCatalogNumber
  let subscribeCatalogSipSid ← read T.subscribeCatalogSipSid device.subscribeCatalogSipSid
  let keepaliveTimerId ← read T.keepaliveTimerId device.keepaliveTimerId
  let channelList ← loadchannellist locals.channelSize
  return { deviceId, deviceSipIp, deviceSipPort, viaIp, viaPort, domain, deviceState,
           deviceStateChangeTime, registerLastTime := none, registerExpires,
           keepaliveLastTime := none, keepaliveExpires, queryCatalogState, queryCatalogSN,
           queryCatalogNumber, queryCatalogSipTid, subscribeCatalogState, subscribeCatalogSN,
           subscribeCatalogNumber, subscribeCatalogSipSid, keepaliveTimerId, channelList }

def fields (device : Device T) : List Field :=
  .plain .string device.deviceId ::
  .plain T.deviceSipIp device.deviceSipIp ::
  .plain T.deviceSipPort device.deviceSipPort ::
  .plain T.viaIp device.viaIp ::
  .plain T.viaPort device.viaPort ::
  .plain T.domain device.domain ::
  .plain .uint8 device.deviceState ::
  (timeFields device.deviceStateChangeTime ++
  .plain T.registerExpires device.registerExpires ::
  .plain T.keepaliveExpires device.keepaliveExpires ::
  .plain .uint8 device.queryCatalogState ::
  .plain T.queryCatalogSN device.queryCatalogSN ::
  .plain T.queryCatalogNumber device.queryCatalogNumber ::
  .plain T.queryCatalogSipTid device.queryCatalogSipTid ::
  .plain .uint8 device.subscribeCatalogState ::
  .plain T.subscribeCatalogSN device.subscribeCatalogSN ::
  .plain T.subscribeCatalogNumber device.subscribeCatalogNumber ::
  .plain T.subscribeCatalogSipSid device.subscribeCatalogSipSid ::
  .plain T.keepaliveTimerId device.keepaliveTimerId ::
  channellistFields device.channelList)

def restored (device : Device T) : Device T :=
  { device with
    registerLastTime := none
    keepaliveLastTime := none
    channelList := some (device.channelList.getD []) }

theorem writes_save (device : Device T) : Writes device.save (encodeAll device.fields) := by
  unfold save fields
  repeat refine .cons ?_
  refine .append (writes_savetime _) ?_
  repeat refine .cons ?_
  exact writes_savechannellist _

theorem reads_load (device old : Device T) (locals : DeviceLocals)
    (h : (device.channelList.getD []).length < 2 ^ 32) :
    Reads (load old locals) (encodeAll device.fields) device.restored := by
  unfold load fields
  repeat refine .cons ?_
  refine .append (reads_loadtime _ _ _) ?_
  repeat refine .cons ?_
  exact (reads_loadchannellist _ locals.channelSize h).result _

end Device

/-! ### Invite commands -/

structure LiveStreamTypes where
  sessionIdStart : FieldType
  streamProto : FieldType
  recvStreamIp : FieldType
  recvStreamPort : FieldType
  playIp : FieldType
  playPort : FieldType
  playProto : FieldType
  sessionIdStop : FieldType

structure LiveStream (T : LiveStreamTypes) where
  sessionIdStart : T.sessionIdStart.Val
  streamProto : T.streamProto.Val
  recvStreamIp : T.recvStreamIp.Val
  recvStreamPort : T.recvStreamPort.Val
  playIp : T.playIp.Val
  playPort : T.playPort.Val
  playProto : T.playProto.Val
  sessionIdStop : T.sessionIdStop.Val
  deriving DecidableEq, Inhabited

namespace LiveStream

variable {T : LiveStreamTypes}

def save (info : LiveStream T) : Save Unit := do
  write T.sessionIdStart info.sessionIdStart
  write T.streamProto info.streamProto
  write T.recvStreamIp info.recvStreamIp
  write T.recvStreamPort info.recvStreamPort
  write T.playIp info.playIp
  write T.playPort info.playPort
  write T.playProto info.playProto
  write T.sessionIdStop info.sessionIdStop

def load (info : LiveStream T) : Load (LiveStream T) := do
  let sessionIdStart ← read T.sessionIdStart info.sessionIdStart
  let streamProto ← read T.streamProto info.streamProto
  let recvStreamIp ← read T.recvStreamIp info.recvStreamIp
  let recvStreamPort ← read T.recvStreamPort info.recvStreamPort
  let playIp ← read T.playIp info.playIp
  let playPort ← read T.playPort info.playPort
  let playProto ← read T.playProto info.playProto
  let sessionIdStop ← read T.sessionIdStop info.sessionIdStop
  return { sessionIdStart, streamProto, recvStreamIp, recvStreamPort, playIp, playPort,
           playProto, sessionIdStop }

def fields (info : LiveStream T) : List Field :=
  [.plain T.sessionIdStart info.sessionIdStart,
   .plain T.streamProto info.streamProto,
   .plain T.recvStreamIp info.recvStreamIp,
   .plain T.recvStreamPort info.recvStreamPort,
   .plain T.playIp info.playIp,
   .plain T.playPort info.playPort,
   .plain T.playProto info.playProto,
   .plain T.sessionIdStop info.sessionIdStop]

theorem writes_save (info : LiveStream T) : Writes info.save (encodeAll info.fields) := by
  unfold save fields
  repeat refine .cons ?_
  exact .last

theorem reads_load (info old : LiveStream T) :
    Reads (load old) (encodeAll info.fields) info := by
  unfold load fields
  repeat refine .cons ?_
  exact .pure info

end LiveStream

structure RecordPlaybackTypes where
  sessionIdStart : FieldType
  streamProto : FieldType
  recvStreamIp : FieldType
  recvStreamPort : FieldType
  playTime : FieldType
  endTime : FieldType
  playIp : FieldType
  playPort : FieldType
  playProto : FieldType
  scale : FieldType
  seekTime : FieldType
  sipTidPlay : FieldType
  sessionIdStop : FieldType

structure RecordPlayback (T : RecordPlaybackTypes) where
  sessionIdStart : T.sessionIdStart.Val
  streamProto : T.streamProto.Val
  recvStreamIp : T.recvStreamIp.Val
  recvStreamPort : T.recvStreamPort.Val
  playTime : T.playTime.Val
  endTime : T.endTime.Val
  playIp : T.playIp.Val
  playPort : T.playPort.Val
  playProto : T.playProto.Val
  playAction : Code
  scale : T.scale.Val
  seekTime : T.seekTime.Val
  sipTidPlay : T.sipTidPlay.Val
  sessionIdStop : T.sessionIdStop.Val
  deriving DecidableEq, Inhabited

namespace RecordPlayback

variable {T : RecordPlaybackTypes}

def save (info : RecordPlayback T) : Save Unit := do
  write T.sessionIdStart info.sessionIdStart
  write T.streamProto info.streamProto
  write T.recvStreamIp info.recvStreamIp
  write T.recvStreamPort info.recvStreamPort
  write T.playTime info.playTime
  write T.endTime info.endTime
  write T.playIp info.playIp
  write T.playPort info.playPort
  write T.playProto info.playProto
  write .uint8 info.playAction
  write T.scale info.scale
  write T.seekTime info.seekTime
  write T.sipTidPlay info.sipTidPlay
  write T.sessionIdStop info.sessionIdStop

def load (info : RecordPlayback T) (playAction : Code) : Load (RecordPlayback T) := do
  let sessionIdStart ← read T.sessionIdStart info.sessionIdStart
  let streamProto ← read T.streamProto info.streamProto
  let recvStreamIp ← read T.recvStreamIp info.recvStreamIp
  let recvStreamPort ← read T.recvStreamPort info.recvStreamPort
  let playTime ← read T.playTime info.playTime
  let endTime ← read T.endTime info.endTime
  let playIp ← read T.playIp info.playIp
  let playPort ← read T.playPort info.playPort
  let playProto ← read T.playProto info.playProto
  let playAction ← read .uint8 playAction
  let scale ← read T.scale info.scale
  let seekTime ← read T.seekTime info.seekTime
  let sipTidPlay ← read T.sipTidPlay info.sipTidPlay
  let sessionIdStop ← read T.sessionIdStop info.sessionIdStop
  return { sessionIdStart, streamProto, recvStreamIp, recvStreamPort, playTime, endTime, playIp,
           playPort, playProto, playAction, scale, seekTime, sipTidPlay, sessionIdStop }

def fields (info : RecordPlayback T) : List Field :=
  [.plain T.sessionIdStart info.sessionIdStart,
   .plain T.streamProto info.streamProto,
   .plain T.recvStreamIp info.recvStreamIp,
   .plain T.recvStreamPort info.recvStreamPort,
   .plain T.playTime info.playTime,
   .plain T.endTime info.endTime,
   .plain T.playIp info.playIp,
   .plain T.playPort info.playPort,
   .plain T.playProto info.playProto,
   .plain .uint8 info.playAction,
   .plain T.scale info.scale,
   .plain T.seekTime info.seekTime,
   .plain T.sipTidPlay info.sipTidPlay,
   .plain T.sessionIdStop info.sessionIdStop]

theorem writes_save (info : RecordPlayback T) : Writes info.save (encodeAll info.fields) := by
  unfold save fields
  repeat refine .cons ?_
  exact .last

theorem reads_load (info old : RecordPlayback T) (playAction : Code) :
    Reads (load old playAction) (encodeAll info.fields) info := by
  unfold load fields
  repeat refine .cons ?_
  exact .pure info

end RecordPlayback

structure RecordDownloadTypes where
  sessionIdStart : FieldType
  streamProto : FieldType
  recvStreamIp : FieldType
  recvStreamPort : FieldType
  playTime : FieldType
  endTime : FieldType
  speed : FieldType
  playIp : FieldType
  playPort : FieldType
  playProto : FieldType
  sessionIdStop : FieldType

structure RecordDownload (T : RecordDownloadTypes) where
  sessionIdStart : T.sessionIdStart.Val
  streamProto : T.streamProto.Val
  recvStreamIp : T.recvStreamIp.Val
  recvStreamPort : T.recvStreamPort.Val
  playTime : T.playTime.Val
  endTime : T.endTime.Val
  speed : T.speed.Val
  playIp : T.playIp.Val
  playPort : T.playPort.Val
  playProto : T.playProto.Val
  sessionIdStop : T.sessionIdStop.Val
  deriving DecidableEq, Inhabited

namespace RecordDownload

variable {T : RecordDownloadTypes}

def save (info : RecordDownload T) : Save Unit := do
  write T.sessionIdStart info.sessionIdStart
  write T.streamProto info.streamProto
  write T.recvStreamIp info.recvStreamIp
  write T.recvStreamPort info.recvStreamPort
  write T.playTime info.playTime
  write T.endTime info.endTime
  write T.speed info.speed
  write T.playIp info.playIp
  write T.playPort info.playPort
  write T.playProto info.playProto
  write T.sessionIdStop info.sessionIdStop

def load (info : RecordDownload T) : Load (RecordDownload T) := do
  let sessionIdStart ← read T.sessionIdStart info.sessionIdStart
  let streamProto ← read T.streamProto info.streamProto
  let recvStreamIp ← read T.recvStreamIp info.recvStreamIp
  let recvStreamPort ← read T.recvStreamPort info.recvStreamPort
  let playTime ← read T.playTime info.playTime
  let endTime ← read T.endTime info.endTime
  let speed ← read T.speed info.speed
  let playIp ← read T.playIp info.playIp
  let playPort ← read T.playPort info.playPort
  let playProto ← read T.playProto info.playProto
  let sessionIdStop ← read T.sessionIdStop info.sessionIdStop
  return { sessionIdStart, streamProto, recvStreamIp, recvStreamPort, playTime, endTime, speed,
           playIp, playPort, playProto, sessionIdStop }

def fields (info : RecordDownload T) : List Field :=
  [.plain T.sessionIdStart info.sessionIdStart,
   .plain T.streamProto info.streamProto,
   .plain T.recvStreamIp info.recvStreamIp,
   .plain T.recvStreamPort info.recvStreamPort,
   .plain T.playTime info.playTime,
   .plain T.endTime info.endTime,
   .plain T.speed info.speed,
   .plain T.playIp info.playIp,
   .plain T.playPort info.playPort,
   .plain T.playProto info.playProto,
   .plain T.sessionIdStop info.sessionIdStop]

theorem writes_save (info : RecordDownload T) : Writes info.save (encodeAll info.fields) := by
  unfold save fields
  repeat refine .cons ?_
  exact .last

theorem reads_load (info old : RecordDownload T) :
    Reads (load old) (encodeAll info.fields) info := by
  unfold load fields
  repeat refine .cons ?_
  exact .pure info

end RecordDownload

inductive CmdType where
  | liveStream
  | recordPlayback
  | recordDownload
  | voiceBroadcast
  deriving DecidableEq, Repr

structure InviteTypes where
  liveStream : LiveStreamTypes
  recordPlayback : RecordPlaybackTypes
  recordDownload : RecordDownloadTypes
  localDeviceId : FieldType
  localSipIp : FieldType
  deviceSipIp : FieldType
  deviceSipPort : FieldType
  sipCid : FieldType
  sipDid : FieldType
  sipTidBye : FieldType
  sipMsgCallIdNumber : FieldType
  sipMsgFromTag : FieldType
  sipMsgToTag : FieldType
  sipMsgCseqNumber : FieldType
  code : CmdType → Code
  code_injective : Function.Injective code

def InviteTypes.typeOf (T : InviteTypes) (type : Code) : Option CmdType :=
  if type = T.code .liveStream then some .liveStream
  else if type = T.code .recordPlayback then some .recordPlayback
  else if type = T.code .recordDownload then some .recordDownload
  else if type = T.code .voiceBroadcast then some .voiceBroadcast
  else none

theorem InviteTypes.typeOf_code (T : InviteTypes) (a : CmdType) : T.typeOf (T.code a) = some a := by
  cases a <;> simp [InviteTypes.typeOf, T.code_injective.eq_iff]

inductive Operation (T : InviteTypes) where
  | liveStream (state : Code) (info : LiveStream T.liveStream)
  | recordPlayback (state : Code) (info : RecordPlayback T.recordPlayback)
  | recordDownload (state : Code) (info : RecordDownload T.recordDownload)
  | voiceBroadcast (state : Code)
  deriving DecidableEq, Inhabited

structure ExecutingInviteCmd (T : InviteTypes) where
  cmdSenderId : Text
  deviceId : Text
  cmdSeq : FieldType.int64.Val
  operation : Operation T
  localDeviceId : T.localDeviceId.Val
  localSipIp : T.localSipIp.Val
  deviceSipIp : T.deviceSipIp.Val
  deviceSipPort : T.deviceSipPort.Val
  sipCid : T.sipCid.Val
  sipDid : T.sipDid.Val
  sipTidBye : T.sipTidBye.Val
  sipMsgCallIdNumber : T.sipMsgCallIdNumber.Val
  sipMsgFromTag : T.sipMsgFromTag.Val
  sipMsgToTag : T.sipMsgToTag.Val
  sipMsgCseqNumber : T.sipMsgCseqNumber.Val
  deriving DecidableEq, Inhabited

structure InviteLocals (T : InviteTypes) where
  type : Code
  state : Code
  playAction : Code
  liveStream : LiveStream T.liveStream
  recordPlayback : RecordPlayback T.recordPlayback
  recordDownload : RecordDownload T.recordDownload

namespace Operation

variable {T : InviteTypes}

def cmdType : Operation T → CmdType
  | .liveStream _ _ => .liveStream
  | .recordPlayback _ _ => .recordPlayback
  | .recordDownload _ _ => .recordDownload
  | .voiceBroadcast _ => .voiceBroadcast

def save : Operation T → Save Unit
  | .liveStream state info => do
    write .uint8 state
    info.save
  | .recordPlayback state info => do
    write .uint8 state
    info.save
  | .recordDownload state info => do
    write .uint8 state
    info.save
  | .voiceBroadcast state => write .uint8 state

def load (operation : Operation T) (type : Code) (locals : InviteLocals T) : Load (Operation T) :=
  match T.typeOf type with
  | some .liveStream => do
    let state ← read .uint8 locals.state
    let info ← locals.liveStream.load
    return .liveStream state info
  | some .recordPlayback => do
    let state ← read .uint8 locals.state
    let info ← locals.recordPlayback.load locals.playAction
    return .recordPlayback state info
  | some .recordDownload => do
    let state ← read .uint8 locals.state
    let info ← locals.recordDownload.load
    return .recordDownload state info
  | some .voiceBroadcast => do
    let state ← read .uint8 locals.state
    return .voiceBroadcast state
  | none => return operation

def fields : Operation T → List Field
  | .liveStream state info => .plain .uint8 state :: info.fields
  | .recordPlayback state info => .plain .uint8 state :: info.fields
  | .recordDownload state info => .plain .uint8 state :: info.fields
  | .voiceBroadcast state => [.plain .uint8 state]

theorem writes_save (operation : Operation T) : Writes operation.save (encodeAll operation.fields) := by
  cases operation with
  | liveStream state info => exact .cons info.writes_save
  | recordPlayback state info => exact .cons info.writes_save
  | recordDownload state info => exact .cons info.writes_save
  | voiceBroadcast state => exact .last

theorem reads_load (operation old : Operation T) (locals : InviteLocals T) :
    Reads (old.load (T.code operation.cmdType) locals) (encodeAll operation.fields) operation := by
  unfold load
  rw [T.typeOf_code]
  cases operation with
  | liveStream state info => exact .cons ((info.reads_load _).result _)
  | recordPlayback state info => exact .cons ((info.reads_load _ _).result _)
  | recordDownload state info => exact .cons ((info.reads_load _).result _)
  | voiceBroadcast state => exact .cons (.pure _)

end Operation

namespace ExecutingInviteCmd

variable {T : InviteTypes}

def save (cmd : ExecutingInviteCmd T) : Save Unit := do
  write .string cmd.cmdSenderId
  write .string cmd.deviceId
  write .uint8 (T.code cmd.operation.cmdType)
  write .int64 cmd.cmdSeq
  cmd.operation.save
  write T.localDeviceId cmd.localDeviceId
  write T.localSipIp cmd.localSipIp
  write T.deviceSipIp cmd.deviceSipIp
  write T.deviceSipPort cmd.deviceSipPort
  write T.deviceSipPort cmd.deviceSipPort
  write T.sipCid cmd.sipCid
  write T.sipDid cmd.sipDid
  write T.sipTidBye cmd.sipTidBye
  write T.sipMsgCallIdNumber cmd.sipMsgCallIdNumber
  write T.sipMsgFromTag cmd.sipMsgFromTag
  write T.sipMsgToTag cmd.sipMsgToTag
  write T.sipMsgCseqNumber cmd.sipMsgCseqNumber

def load (cmd : ExecutingInviteCmd T) (locals : InviteLocals T) : Load (ExecutingInviteCmd T) := do
  let cmdSenderId ← read .string cmd.cmdSenderId
  let deviceId ← read .string cmd.deviceId
  let type ← read .uint8 locals.type
  let cmdSeq ← read .int64 cmd.cmdSeq
  let operation ← cmd.operation.load type locals
  let localDeviceId ← read T.localDeviceId cmd.localDeviceId
  let localSipIp ← read T.localSipIp cmd.localSipIp
  let deviceSipIp ← read T.deviceSipIp cmd.deviceSipIp
  let deviceSipPort ← read T.deviceSipPort cmd.deviceSipPort
  let deviceSipPort ← read T.deviceSipPort deviceSipPort
  let sipCid ← read T.sipCid cmd.sipCid
  let sipDid ← read T.sipDid cmd.sipDid
  let sipTidBye ← read T.sipTidBye cmd.sipTidBye
  let sipMsgCallIdNumber ← read T.sipMsgCallIdNumber cmd.sipMsgCallIdNumber
  let sipMsgFromTag ← read T.sipMsgFromTag cmd.sipMsgFromTag
  let sipMsgToTag ← read T.sipMsgToTag cmd.sipMsgToTag
  let sipMsgCseqNumber ← read T.sipMsgCseqNumber cmd.sipMsgCseqNumber
  return { cmdSenderId, deviceId, cmdSeq, operation, localDeviceId, localSipIp, deviceSipIp,
           deviceSipPort, sipCid, sipDid, sipTidBye, sipMsgCallIdNumber, sipMsgFromTag,
           sipMsgToTag, sipMsgCseqNumber }

def fields (cmd : ExecutingInviteCmd T) : List Field :=
  .plain .string cmd.cmdSenderId ::
  .plain .string cmd.deviceId ::
  ⟨.uint8, T.code cmd.operation.cmdType, true⟩ ::
  .plain .int64 cmd.cmdSeq ::
  (cmd.operation.fields ++
  [.plain T.localDeviceId cmd.localDeviceId,
   .plain T.localSipIp cmd.localSipIp,
   .plain T.deviceSipIp cmd.deviceSipIp,
   .plain T.deviceSipPort cmd.deviceSipPort,
   .plain T.deviceSipPort cmd.deviceSipPort,
   .plain T.sipCid cmd.sipCid,
   .plain T.sipDid cmd.sipDid,
   .plain T.sipTidBye cmd.sipTidBye,
   .plain T.sipMsgCallIdNumber cmd.sipMsgCallIdNumber,
   .plain T.sipMsgFromTag cmd.sipMsgFromTag,
   .plain T.sipMsgToTag cmd.sipMsgToTag,
   .plain T.sipMsgCseqNumber cmd.sipMsgCseqNumber])

theorem writes_save (cmd : ExecutingInviteCmd T) : Writes cmd.save (encodeAll cmd.fields) := by
  unfold save fields
  repeat refine .cons ?_
  refine .append cmd.operation.writes_save ?_
  repeat refine .cons ?_
  exact .last

theorem reads_load (cmd old : ExecutingInviteCmd T) (locals : InviteLocals T) :
    Reads (load old locals) (encodeAll cmd.fields) cmd := by
  unfold load fields
  repeat refine .cons ?_
  refine .append (cmd.operation.reads_load _ _) ?_
  repeat refine .cons ?_
  exact .pure cmd

end ExecutingInviteCmd

/-! ### Records -/

structure EntityTypes where
  device : DeviceTypes
  channel : ChannelTypes
  invite : InviteTypes

variable {T : EntityTypes}

inductive Record (T : EntityTypes) where
  | device (device : Device T.device)
  | channel (channel : Channel T.channel)
  | invite (cmd : ExecutingInviteCmd T.invite)
  deriving DecidableEq

inductive Target (T : EntityTypes) where
  | device (device : Device T.device) (locals : DeviceLocals)
  | channel (channel : Channel T.channel) (status : Code)
  | invite (cmd : ExecutingInviteCmd T.invite) (locals : InviteLocals T.invite)

def Record.save : Record T → Save Unit
  | .device d => d.save
  | .channel c => c.save
  | .invite cmd => cmd.save

def Target.load : Target T → Load (Record T)
  | .device d locals => do
    let d ← d.load locals
    return .device d
  | .channel c status => do
    let c ← c.load status
    return .channel c
  | .invite cmd locals => do
    let cmd ← cmd.load locals
    return .invite cmd

def Record.fields : Record T → List Field
  | .device d => d.fields
  | .channel c => c.fields
  | .invite cmd => cmd.fields

def Record.encode (x : Record T) : Bytes := encodeAll x.fields

def Record.Suits : Record T → Target T → Prop
  | .device _, .device _ _ => True
  | .channel _, .channel _ _ => True
  | .invite _, .invite _ _ => True
  | _, _ => False

def Record.restored : Record T → Record T
  | .device d => .device d.restored
  | x => x

theorem Record.writes_save (x : Record T) : Writes x.save x.encode := by
  cases x with
  | device d => exact d.writes_save
  | channel c => exact c.writes_save
  | invite cmd => exact cmd.writes_save

theorem length_le_encodeAll_idsFields (list : List ChannelIds) :
    list.length ≤ (encodeAll (idsFields list)).length := by
  induction list with
  | nil => simp
  | cons ids rest ih =>
    have hcons : encodeAll (idsFields (ids :: rest)) =
        (ids.deviceId.bytes ++ [0]) ++ ((ids.channelDeviceId.bytes ++ [0]) ++
          encodeAll (idsFields rest)) := rfl
    rw [hcons]
    simp only [length_append, length_cons, length_nil]
    omega

theorem Device.channellistFields_suffix {T : DeviceTypes} (device : Device T) :
    channellistFields device.channelList <:+ device.fields := by
  unfold Device.fields
  iterate 7 refine List.IsSuffix.trans ?_ (suffix_cons _ _)
  refine List.IsSuffix.trans ?_ (suffix_append _ _)
  iterate 11 refine List.IsSuffix.trans ?_ (suffix_cons _ _)
  exact suffix_rfl

theorem Device.length_channelList_le {T : DeviceTypes} (device : Device T) :
    (device.channelList.getD []).length ≤ (encodeAll device.fields).length := by
  obtain ⟨before, hfields⟩ := device.channellistFields_suffix
  have h := length_le_encodeAll_idsFields (device.channelList.getD [])
  rw [← hfields, encodeAll_append, channellistFields, encodeAll_cons, length_append,
    length_append]
  omega

theorem Record.reads_load {x : Record T} {target : Target T} (hsuits : x.Suits target)
    (hsize : x.encode.length ≤ 2 ^ 30) : Reads target.load x.encode x.restored := by
  cases x with
  | device d =>
    cases target with
    | device old locals =>
      have hlist : (d.channelList.getD []).length < 2 ^ 32 := by
        have hle : (d.channelList.getD []).length ≤ 2 ^ 30 := d.length_channelList_le.trans hsize
        omega
      exact (d.reads_load old locals hlist).result _
    | channel _ _ => exact hsuits.elim
    | invite _ _ => exact hsuits.elim
  | channel c =>
    cases target with
    | channel old status => exact (c.reads_load old status).result _
    | device _ _ => exact hsuits.elim
    | invite _ _ => exact hsuits.elim
  | invite cmd =>
    cases target with
    | invite old locals => exact (cmd.reads_load old locals).result _
    | device _ _ => exact hsuits.elim
    | channel _ _ => exact hsuits.elim

theorem load_save (x : Record T) (target : Target T) (hsuits : x.Suits target)
    (hsize : x.encode.length ≤ 2 ^ 30) :
    ∃ out s, x.save {} = some ((), out) ∧
      target.load (DBInStream.ofReply out.data) = some (x.restored, s) ∧
      s.cursor = out.data.length ∧ s.loadError = false := by
  obtain ⟨out, hsave, hdata, -⟩ := x.writes_save {} DBOutStream.ok_default (by simpa using hsize)
  rw [nil_append] at hdata
  have hload := Record.reads_load hsuits hsize (DBInStream.ofReply out.data)
    ⟨[0], by rw [hdata]; rfl⟩ (by simp [DBInStream.ofReply, hdata])
  exact ⟨out, _, hsave, hload, by simp [DBInStream.ofReply, hdata], rfl⟩

/-! ### Examples -/

def sampleTypes : EntityTypes where
  device :=
    { deviceSipIp := .string, deviceSipPort := .int32, viaIp := .string, viaPort := .int32,
      domain := .string, registerExpires := .int32, keepaliveExpires := .int32,
      queryCatalogSN := .string, queryCatalogNumber := .int32, queryCatalogSipTid := .int32,
      subscribeCatalogSN := .string, subscribeCatalogNumber := .int32,
      subscribeCatalogSipSid := .int32, keepaliveTimerId := .uint64 }
  channel :=
    { channelName := .string, channelManufacturer := .string, channelModel := .string,
      channelOwner := .string, channelCivilCode := .string, channelAddress := .string,
      channelParental := .int32, channelParentId := .string, channelSafetyWay := .int32,
      channelRegisterWay := .int32, channelSecrecy := .int32 }
  invite :=
    { liveStream :=
        { sessionIdStart := .string, streamProto := .string, recvStreamIp := .string,
          recvStreamPort := .int32, playIp := .string, playPort := .int32, playProto := .string,
          sessionIdStop := .string }
      recordPlayback :=
        { sessionIdStart := .string, streamProto := .string, recvStreamIp := .string,
          recvStreamPort := .int32, playTime := .int64, endTime := .int64, playIp := .string,
          playPort := .int32, playProto := .string, scale := .float, seekTime := .int32,
          sipTidPlay := .int32, sessionIdStop := .string }
      recordDownload :=
        { sessionIdStart := .string, streamProto := .string, recvStreamIp := .string,
          recvStreamPort := .int32, playTime := .int64, endTime := .int64, speed := .int32,
          playIp := .string, playPort := .int32, playProto := .string, sessionIdStop := .string }
      localDeviceId := .string, localSipIp := .string, deviceSipIp := .string,
      deviceSipPort := .int32, sipCid := .int32, sipDid := .int32, sipTidBye := .int32,
      sipMsgCallIdNumber := .string, sipMsgFromTag := .string, sipMsgToTag := .string,
      sipMsgCseqNumber := .int32
      code := fun
        | .liveStream => ⟨[0], rfl⟩
        | .recordPlayback => ⟨[1], rfl⟩
        | .recordDownload => ⟨[2], rfl⟩
        | .voiceBroadcast => ⟨[3], rfl⟩
      code_injective := by
        intro a b
        cases a <;> cases b <;> decide }

def sampleDevice : Device sampleTypes.device :=
  { (default : Device sampleTypes.device) with
    deviceId := ⟨ascii "D1", by decide⟩
    deviceStateChangeTime := some default
    channelList := some [⟨⟨ascii "D1", by decide⟩, ⟨ascii "C1", by decide⟩⟩] }

theorem load_save_device :
    ∃ out s, (Record.device sampleDevice : Record sampleTypes).save {} = some ((), out) ∧
      (Target.device default default : Target sampleTypes).load (DBInStream.ofReply out.data) =
        some (.device sampleDevice, s) ∧
      s.cursor = out.data.length ∧ s.loadError = false :=
  load_save (.device sampleDevice) (.device default default) trivial (by decide)

def longText (n : ℕ) : Text where
  bytes := List.replicate n 1
  fits := fun h => absurd (eq_of_mem_replicate h) (by decide)

theorem Channel.save_eq_none {T : ChannelTypes} (channel : Channel T)
    (h : write .string channel.deviceId {} = none) : channel.save {} = none := by
  unfold Channel.save
  exact bind_eq_none h

theorem save_overflow :
    (Record.channel { (default : Channel sampleTypes.channel) with deviceId := longText (2 ^ 30) } :
      Record sampleTypes).save {} = none := by
  have hlength : (longText (2 ^ 30)).bytes.length = 2 ^ 30 := length_replicate
  have hwrite : write .string (longText (2 ^ 30)) {} = none :=
    write_string_eq_none _ hlength.ge (by omega)
  exact Channel.save_eq_none _ hwrite

end GBDownLinker
