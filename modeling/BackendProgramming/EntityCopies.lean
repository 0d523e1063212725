/-
**The copies in the queue of the restorer.**

`PushEntity` stores a copy of the `Device`, `Channel` or `ExecutingInviteCmd` it is handed, which the restorer
thread saves later.  The objects are in memory and the pointers are addresses, so that the caller may change
the objects after the call.
-/

import BackendProgramming.FreshMemory
import BackendProgramming.RestorerQueue

set_option autoImplicit false

namespace GBDownLinker

open Option

namespace Copies

open FreshMemory

/-! ### Objects -/

structure DeviceObject (T : DeviceTypes) where
  deviceId : Text
  deviceSipIp : T.deviceSipIp.Val
  deviceSipPort : T.deviceSipPort.Val
  viaIp : T.viaIp.Val
  viaPort : T.viaPort.Val
  domain : T.domain.Val
  deviceState : Code
  deviceStateChangeTime : Option ℕ
  registerLastTime : Option ℕ
  registerExpires : T.registerExpires.Val
  keepaliveLastTime : Option ℕ
  keepaliveExpires : T.keepaliveExpires.Val
  queryCatalogState : Code
  queryCatalogSN : T.queryCatalogSN.Val
  queryCatalogNumber : T.queryCatalogNumber.Val
  queryCatalogSipTid : T.queryCatalogSipTid.Val
  subscribeCatalogState : Code
  subscribeCatalogSN : T.subscribeCatalogSN.Val
  subscribeCatalogNumber : T.subscribeCatalogNumber.Val
  subscribeCatalogSipSid : T.subscribeCatalogSipSid.Val
  keepaliveTimerId : T.keepaliveTimerId.Val
  channelList : Option ℕ
  deriving Inhabited

structure InviteObject (T : InviteTypes) where
  cmdSenderId : Text
  deviceId : Text
  cmdType : CmdType
  cmdSeq : FieldType.int64.Val
  state : CmdType × Code
  operationInfo : CmdType × Option ℕ
  localDeviceId : T.localDeviceId.Val
  localSipIp : T.localSipIp.Val
  deviceSipIp : T.deviceSipIp.Val
  deviceSipPort : T.deviceSipPort.Val
  sipCid : T.sipCid.Val
  sipDid : T.sipDid.Val
  sipTidBye : T.sipTidBye.Val
  sipMsgCallIdNumber : T.sipMsgCallIdNumber.Val
  sipMsgFromTag : T.sipMsgFromTag.Val
  sipMsgToTag : T.sipMsgToTag.Val
  sipMsgCseqNumber : T.sipMsgCseqNumber.Val

inductive Kind where
  | time
  | channelList
  | channel
  | device
  | liveStream
  | recordPlayback
  | recordDownload
  | voiceBroadcast
  | invite
  deriving DecidableEq

def Kind.Obj (T : EntityTypes) : Kind → Type
  | .time => Tm
  | .channelList => List ℕ
  | .channel => Channel T.channel
  | .device => DeviceObject T.device
  | .liveStream => LiveStream T.invite.liveStream
  | .recordPlayback => RecordPlayback T.invite.recordPlayback
  | .recordDownload => RecordDownload T.invite.recordDownload
  | .voiceBroadcast => Unit
  | .invite => InviteObject T.invite

structure Cell (T : EntityTypes) where
  kind : Kind
  obj : kind.Obj T

variable {T : EntityTypes}

def deref (kind : Kind) (p : ℕ) (h : Memory (Cell T)) : Option (kind.Obj T) :=
  match h.cells p with
  | none => none
  | some c => if hkind : c.kind = kind then some (hkind ▸ c.obj) else none

/-! ### What `save` finds -/

def timeAt (p : Option ℕ) (h : Memory (Cell T)) : Option (Option Tm) :=
  match p with
  | none => some none
  | some p => (deref .time p h).bind fun time => some (some time)

def channelsAt : List ℕ → Memory (Cell T) → Option (List (Channel T.channel))
  | [], _ => some []
  | p :: ps, h => (deref .channel p h).bind fun channel =>
    (channelsAt ps h).bind fun channels => some (channel :: channels)

def channelIds (channel : Channel T.channel) : ChannelIds := ⟨channel.deviceId, channel.channelDeviceId⟩

def channelListAt (p : Option ℕ) (h : Memory (Cell T)) : Option (Option (List ChannelIds)) :=
  match p with
  | none => some none
  | some p => (deref .channelList p h).bind fun ps =>
    (channelsAt ps h).bind fun channels => some (some (channels.map channelIds))

def deviceAt (p : ℕ) (h : Memory (Cell T)) : Option (Device T.device) := do
  let d : DeviceObject T.device ← deref .device p h
  let deviceStateChangeTime ← timeAt d.deviceStateChangeTime h
  let registerLastTime ← timeAt d.registerLastTime h
  let keepaliveLastTime ← timeAt d.keepaliveLastTime h
  let channelList ← channelListAt d.channelList h
  some
    { deviceId := d.deviceId
      deviceSipIp := d.deviceSipIp
      deviceSipPort := d.deviceSipPort
      viaIp := d.viaIp
      viaPort := d.viaPort
      domain := d.domain
      deviceState := d.deviceState
      deviceStateChangeTime
      registerLastTime
      registerExpires := d.registerExpires
      keepaliveLastTime
      keepaliveExpires := d.keepaliveExpires
      queryCatalogState := d.queryCatalogState
      queryCatalogSN := d.queryCatalogSN
      queryCatalogNumber := d.queryCatalogNumber
      queryCatalogSipTid := d.queryCatalogSipTid
      subscribeCatalogState := d.subscribeCatalogState
      subscribeCatalogSN := d.subscribeCatalogSN
      subscribeCatalogNumber := d.subscribeCatalogNumber
      subscribeCatalogSipSid := d.subscribeCatalogSipSid
      keepaliveTimerId := d.keepaliveTimerId
      channelList }

def getAlternative {α : Type} (alternative : CmdType) (variant : CmdType × α) : Option α :=
  if variant.1 = alternative then some variant.2 else none

def alternativeAt (alternative : CmdType) (kind : Kind) (make : Code → kind.Obj T → Operation T.invite)
    (state : CmdType × Code) (operationInfo : CmdType × Option ℕ) (h : Memory (Cell T)) :
    Option (Operation T.invite) := do
  let state ← getAlternative alternative state
  let info ← getAlternative alternative operationInfo
  let p ← info
  let info ← deref kind p h
  some (make state info)

def operationAt (cmd : InviteObject T.invite) (h : Memory (Cell T)) : Option (Operation T.invite) :=
  match cmd.cmdType with
  | .liveStream => alternativeAt .liveStream .liveStream .liveStream cmd.state cmd.operationInfo h
  | .recordPlayback =>
    alternativeAt .recordPlayback .recordPlayback .recordPlayback cmd.state cmd.operationInfo h
  | .recordDownload =>
    alternativeAt .recordDownload .recordDownload .recordDownload cmd.state cmd.operationInfo h
  | .voiceBroadcast => do
    let state ← getAlternative .voiceBroadcast cmd.state
    let _ ← getAlternative .voiceBroadcast cmd.operationInfo
    some (.voiceBroadcast state)

def inviteAt (p : ℕ) (h : Memory (Cell T)) : Option (ExecutingInviteCmd T.invite) := do
  let cmd : InviteObject T.invite ← deref .invite p h
  let operation ← operationAt cmd h
  some
    { cmdSenderId := cmd.cmdSenderId
      deviceId := cmd.deviceId
      cmdSeq := cmd.cmdSeq
      operation
      localDeviceId := cmd.localDeviceId
      localSipIp := cmd.localSipIp
      deviceSipIp := cmd.deviceSipIp
      deviceSipPort := cmd.deviceSipPort
      sipCid := cmd.sipCid
      sipDid := cmd.sipDid
      sipTidBye := cmd.sipTidBye
      sipMsgCallIdNumber := cmd.sipMsgCallIdNumber
      sipMsgFromTag := cmd.sipMsgFromTag
      sipMsgToTag := cmd.sipMsgToTag
      sipMsgCseqNumber := cmd.sipMsgCseqNumber }

inductive Entity where
  | device (p : ℕ)
  | channel (p : ℕ)
  | invite (p : ℕ)
  deriving DecidableEq, Repr

def Entity.at (h : Memory (Cell T)) : Entity → Option (Record T)
  | .device p => (deviceAt p h).map .device
  | .channel p => (deref .channel p h).map .channel
  | .invite p => (inviteAt p h).map .invite

/-! ### The functions -/

def clone : Option ℕ → Prog (Cell T) (Option ℕ)
  | none => return none
  | some p => do
    let time ← ask (deref .time p)
    let q ← new ⟨.time, time⟩
    return some q

def copyChannels (f : Channel T.channel → Channel T.channel) : List ℕ → Prog (Cell T) (List ℕ)
  | [] => return []
  | p :: ps => do
    let channel ← ask (deref .channel p)
    let q ← new ⟨.channel, f channel⟩
    let qs ← copyChannels f ps
    return q :: qs

def cloneChannelList : Option ℕ → Prog (Cell T) (Option ℕ)
  | none => return none
  | some p => do
    let channels ← ask (deref .channelList p)
    let copies ← copyChannels id channels
    let q ← new ⟨.channelList, copies⟩
    return some q

def idsOnly (channel : Channel T.channel) : Channel T.channel :=
  { (default : Channel T.channel) with
    deviceId := channel.deviceId
    channelDeviceId := channel.channelDeviceId }

def copyChannelIdList : Option ℕ → Prog (Cell T) ℕ
  | none => new ⟨.channelList, []⟩
  | some p => do
    let channels ← ask (deref .channelList p)
    let copies ← copyChannels idsOnly channels
    new ⟨.channelList, copies⟩

def copyDevice (p : ℕ) : Prog (Cell T) ℕ := do
  let d : DeviceObject T.device ← ask (deref .device p)
  let deviceStateChangeTime ← clone d.deviceStateChangeTime
  let registerLastTime ← clone d.registerLastTime
  let keepaliveLastTime ← clone d.keepaliveLastTime
  let channelList ← cloneChannelList d.channelList
  let device : DeviceObject T.device :=
    { deviceId := d.deviceId
      deviceSipIp := d.deviceSipIp
      deviceSipPort := d.deviceSipPort
      viaIp := d.viaIp
      viaPort := d.viaPort
      domain := d.domain
      deviceState := d.deviceState
      deviceStateChangeTime
      registerLastTime
      registerExpires := d.registerExpires
      keepaliveLastTime
      keepaliveExpires := d.keepaliveExpires
      queryCatalogState := d.queryCatalogState
      queryCatalogSN := d.queryCatalogSN
      queryCatalogNumber := d.queryCatalogNumber
      queryCatalogSipTid := d.queryCatalogSipTid
      subscribeCatalogState := d.subscribeCatalogState
      subscribeCatalogSN := d.subscribeCatalogSN
      subscribeCatalogNumber := d.subscribeCatalogNumber
      subscribeCatalogSipSid := d.subscribeCatalogSipSid
      channelList
      keepaliveTimerId := d.keepaliveTimerId }
  let deviceStateChangeTime ← clone d.deviceStateChangeTime
  let device :=
    { device with
      deviceSipIp := d.deviceSipIp
      deviceSipPort := d.deviceSipPort
      deviceState := d.deviceState
      deviceStateChangeTime
      registerLastTime := none
      registerExpires := d.registerExpires
      keepaliveLastTime := none
      keepaliveExpires := d.keepaliveExpires
      queryCatalogState := d.queryCatalogState
      queryCatalogSN := d.queryCatalogSN
      queryCatalogNumber := d.queryCatalogNumber
      queryCatalogSipTid := d.queryCatalogSipTid
      subscribeCatalogState := d.subscribeCatalogState
      subscribeCatalogSN := d.subscribeCatalogSN
      subscribeCatalogNumber := d.subscribeCatalogNumber
      subscribeCatalogSipSid := d.subscribeCatalogSipSid
      keepaliveTimerId := d.keepaliveTimerId }
  let list ← copyChannelIdList d.channelList
  new ⟨.device, { device with channelList := some list }⟩

def copyChannel (p : ℕ) : Prog (Cell T) ℕ := do
  let c : Channel T.channel ← ask (deref .channel p)
  let channel : Channel T.channel :=
    { deviceId := c.deviceId
      channelDeviceId := c.channelDeviceId
      channelName := c.channelName
      channelManufacturer := c.channelManufacturer
      channelModel := c.channelModel
      channelOwner := c.channelOwner
      channelCivilCode := c.channelCivilCode
      channelAddress := c.channelAddress
      channelParental := c.channelParental
      channelParentId := c.channelParentId
      channelSafetyWay := c.channelSafetyWay
      channelRegisterWay := c.channelRegisterWay
      channelSecrecy := c.channelSecrecy
      channelStatus := c.channelStatus }
  new ⟨.channel, channel⟩

def assignLiveStream (info : LiveStream T.invite.liveStream) : LiveStream T.invite.liveStream :=
  { sessionIdStart := info.sessionIdStart
    streamProto := info.streamProto
    recvStreamIp := info.recvStreamIp
    recvStreamPort := info.recvStreamPort
    playIp := info.playIp
    playPort := info.playPort
    playProto := info.playProto
    sessionIdStop := info.sessionIdStop }

def assignRecordPlayback (info : RecordPlayback T.invite.recordPlayback) :
    RecordPlayback T.invite.recordPlayback :=
  { sessionIdStart := info.sessionIdStart
    streamProto := info.streamProto
    recvStreamIp := info.recvStreamIp
    recvStreamPort := info.recvStreamPort
    playTime := info.playTime
    endTime := info.endTime
    playIp := info.playIp
    playPort := info.playPort
    playProto := info.playProto
    playAction := info.playAction
    scale := info.scale
    seekTime := info.seekTime
    sipTidPlay := info.sipTidPlay
    sessionIdStop := info.sessionIdStop }

def assignRecordDownload (info : RecordDownload T.invite.recordDownload) :
    RecordDownload T.invite.recordDownload :=
  { sessionIdStart := info.sessionIdStart
    streamProto := info.streamProto
    recvStreamIp := info.recvStreamIp
    recvStreamPort := info.recvStreamPort
    playTime := info.playTime
    endTime := info.endTime
    speed := info.speed
    playIp := info.playIp
    playPort := info.playPort
    playProto := info.playProto
    sessionIdStop := info.sessionIdStop }

def copyInfo (kind : Kind) (blank : kind.Obj T) (assign : kind.Obj T → kind.Obj T) :
    Option ℕ → Prog (Cell T) ℕ
  | none => new ⟨kind, blank⟩
  | some p => do
    let info ← ask (deref kind p)
    new ⟨kind, assign info⟩

def copyAlternative (alternative : CmdType) (kind : Kind) (blank : kind.Obj T)
    (assign : kind.Obj T → kind.Obj T) (operationInfo : CmdType × Option ℕ) :
    Prog (Cell T) (CmdType × Option ℕ) := do
  let info ← ask fun _ => getAlternative alternative operationInfo
  let q ← copyInfo kind blank assign info
  return (alternative, some q)

def copyOperationInfo (invite : InviteObject T.invite) : Prog (Cell T) (CmdType × Option ℕ) :=
  match invite.cmdType with
  | .liveStream =>
    copyAlternative .liveStream .liveStream (default : LiveStream T.invite.liveStream)
      assignLiveStream invite.operationInfo
  | .recordPlayback =>
    copyAlternative .recordPlayback .recordPlayback
      (default : RecordPlayback T.invite.recordPlayback) assignRecordPlayback invite.operationInfo
  | .recordDownload =>
    copyAlternative .recordDownload .recordDownload
      (default : RecordDownload T.invite.recordDownload) assignRecordDownload invite.operationInfo
  | .voiceBroadcast => do
    let q ← new ⟨.voiceBroadcast, ()⟩
    return (.voiceBroadcast, some q)

def copyExecutingInviteCmd (p : ℕ) : Prog (Cell T) ℕ := do
  let invite : InviteObject T.invite ← ask (deref .invite p)
  let operationInfo ← copyOperationInfo invite
  let cmd : InviteObject T.invite :=
    { cmdSenderId := invite.cmdSenderId
      deviceId := invite.deviceId
      cmdType := invite.cmdType
      cmdSeq := invite.cmdSeq
      state := invite.state
      operationInfo
      localDeviceId := invite.localDeviceId
      localSipIp := invite.localSipIp
      deviceSipIp := invite.deviceSipIp
      deviceSipPort := invite.deviceSipPort
      sipCid := invite.sipCid
      sipDid := invite.sipDid
      sipTidBye := invite.sipTidBye
      sipMsgCallIdNumber := invite.sipMsgCallIdNumber
      sipMsgFromTag := invite.sipMsgFromTag
      sipMsgToTag := invite.sipMsgToTag
      sipMsgCseqNumber := invite.sipMsgCseqNumber }
  new ⟨.invite, cmd⟩

def copyEntity : Entity → Prog (Cell T) Entity
  | .device p => do
    let q ← copyDevice p
    return .device q
  | .channel p => do
    let q ← copyChannel p
    return .channel q
  | .invite p => do
    let q ← copyExecutingInviteCmd p
    return .invite q

def pushEntity (entities : List Entity) : Option Entity → Prog (Cell T) (List Entity × Bool)
  | none => return (entities, false)
  | some x => do
    let copy ← copyEntity x
    return (entities ++ [copy], true)

/-! ### What a copy is -/

theorem deref_eq_some_iff {kind : Kind} {p : ℕ} {h : Memory (Cell T)} {x : kind.Obj T} :
    deref kind p h = some x ↔ h.cells p = some ⟨kind, x⟩ := by
  rw [deref]
  cases hc : h.cells p with
  | none => simp
  | some c =>
    obtain ⟨kind', y⟩ := c
    by_cases hkind : kind' = kind
    · subst hkind
      simp
    · simp [hkind]

theorem stable_deref (kind : Kind) (p : ℕ) : Stable (C := Cell T) (deref kind p) := by
  intro h h' x hext hx
  rw [deref_eq_some_iff] at hx ⊢
  exact hext.cells hx

theorem stable_timeAt (p : Option ℕ) : Stable (C := Cell T) (timeAt p) := by
  cases p with
  | none => exact stable_some none
  | some p => exact (stable_deref .time p).bind fun time => stable_some (some time)

theorem stable_channelsAt (ps : List ℕ) : Stable (C := Cell T) (channelsAt ps) := by
  induction ps with
  | nil => exact stable_some []
  | cons p ps ih =>
    exact (stable_deref .channel p).bind fun channel => ih.bind fun channels =>
      stable_some (channel :: channels)

theorem stable_channelListAt (p : Option ℕ) : Stable (C := Cell T) (channelListAt p) := by
  cases p with
  | none => exact stable_some none
  | some p =>
    exact (stable_deref .channelList p).bind fun ps => (stable_channelsAt ps).bind fun channels =>
      stable_some (some (channels.map channelIds))

section Makes

variable {h : Memory (Cell T)}

theorem makes_clone {p : Option ℕ} {time : Option Tm} (hp : timeAt p h = some time) :
    Makes (clone p) h fun k q => timeAt q k = some time := by
  cases p with
  | none =>
    cases hp
    exact makes_pure fun k => rfl
  | some p =>
    obtain ⟨t, ht, hsome⟩ := bind_eq_some_iff.1 hp
    cases hsome
    refine Makes.bind_ask ht ((makes_new _).bind fun q h' _ => makes_pure fun k hq => ?_)
    rw [timeAt, deref_eq_some_iff.2 hq]
    rfl

theorem makes_copyChannels (f : Channel T.channel → Channel T.channel) {ps : List ℕ}
    {channels : List (Channel T.channel)} (hps : channelsAt ps h = some channels) :
    Makes (copyChannels f ps) h fun k qs => channelsAt qs k = some (channels.map f) := by
  induction ps generalizing h channels with
  | nil =>
    cases hps
    exact makes_pure fun k => rfl
  | cons p ps ih =>
    obtain ⟨channel, hp, hrest⟩ := bind_eq_some_iff.1 hps
    obtain ⟨channels', hps', hsome⟩ := bind_eq_some_iff.1 hrest
    cases hsome
    refine Makes.bind_ask hp ((makes_new _).bind fun q h₁ hext => ?_)
    have hps₁ := (stable_channelsAt ps).eq_some hext hps'
    refine (ih hps₁).bind fun qs h₂ _ => makes_pure fun k hqs hq => ?_
    rw [channelsAt, deref_eq_some_iff.2 hq, hqs]
    rfl

theorem makes_cloneChannelList {p : Option ℕ} {list : Option (List ChannelIds)}
    (hp : channelListAt p h = some list) : Makes (cloneChannelList p) h fun _ _ => True := by
  cases p with
  | none => exact makes_pure fun k => trivial
  | some p =>
    obtain ⟨ps, hps, hrest⟩ := bind_eq_some_iff.1 hp
    obtain ⟨channels, hchannels, -⟩ := bind_eq_some_iff.1 hrest
    refine Makes.bind_ask hps ((makes_copyChannels id hchannels).bind fun copies h₁ _ => ?_)
    exact (makes_new _).bind fun q h₂ _ => makes_pure fun k _ _ => trivial

theorem makes_copyChannelIdList {p : Option ℕ} {list : Option (List ChannelIds)}
    (hp : channelListAt p h = some list) :
    Makes (copyChannelIdList p) h fun k q => channelListAt (some q) k = some (some (list.getD [])) := by
  have hlist : ∀ {k : Memory (Cell T)} {q : ℕ} {qs : List ℕ} {channels : List (Channel T.channel)},
      k.cells q = some ⟨.channelList, qs⟩ → channelsAt qs k = some channels →
      channelListAt (some q) k = some (some (channels.map channelIds)) := by
    intro k q qs channels hq hqs
    refine bind_eq_some_iff.2 ⟨qs, deref_eq_some_iff.2 hq, ?_⟩
    exact bind_eq_some_iff.2 ⟨channels, hqs, rfl⟩
  cases p with
  | none =>
    cases hp
    exact (makes_new _).mono fun k q hq => hlist hq rfl
  | some p =>
    obtain ⟨ps, hps, hrest⟩ := bind_eq_some_iff.1 hp
    obtain ⟨channels, hchannels, hsome⟩ := bind_eq_some_iff.1 hrest
    cases hsome
    refine Makes.bind_ask hps ((makes_copyChannels idsOnly hchannels).bind fun copies h₁ _ => ?_)
    refine (makes_new _).mono fun k q hq hcopies => ?_
    rw [hlist hq hcopies, List.map_map]
    rfl

theorem makes_copyDevice {p : ℕ} {device : Device T.device} (hp : deviceAt p h = some device) :
    Makes (copyDevice p) h fun k q => deviceAt q k = some (GBDownLinker.copyDevice device) := by
  obtain ⟨d, hd, hp⟩ := bind_eq_some_iff.1 hp
  obtain ⟨time, htime, hp⟩ := bind_eq_some_iff.1 hp
  obtain ⟨register, hregister, hp⟩ := bind_eq_some_iff.1 hp
  obtain ⟨keepalive, hkeepalive, hp⟩ := bind_eq_some_iff.1 hp
  obtain ⟨list, hlist, hp⟩ := bind_eq_some_iff.1 hp
  cases hp
  refine Makes.bind_ask hd ?_
  refine (makes_clone htime).bind fun _ h₁ hext₁ => ?_
  refine (makes_clone ((stable_timeAt _).eq_some hext₁ hregister)).bind fun _ h₂ hext₂ => ?_
  replace hext₂ := hext₁.trans hext₂
  refine (makes_clone ((stable_timeAt _).eq_some hext₂ hkeepalive)).bind fun _ h₃ hext₃ => ?_
  replace hext₃ := hext₂.trans hext₃
  refine (makes_cloneChannelList ((stable_channelListAt _).eq_some hext₃ hlist)).bind fun _ h₄ hext₄ => ?_
  replace hext₄ := hext₃.trans hext₄
  refine (makes_clone ((stable_timeAt _).eq_some hext₄ htime)).bind fun t h₅ hext₅ => ?_
  replace hext₅ := hext₄.trans hext₅
  refine (makes_copyChannelIdList ((stable_channelListAt _).eq_some hext₅ hlist)).bind fun l h₆ _ => ?_
  refine (makes_new _).mono fun k q hq hl ht _ _ _ _ => ?_
  refine bind_eq_some_iff.2 ⟨_, deref_eq_some_iff.2 hq, ?_⟩
  refine bind_eq_some_iff.2 ⟨time, ht, ?_⟩
  refine bind_eq_some_iff.2 ⟨none, rfl, bind_eq_some_iff.2 ⟨none, rfl, ?_⟩⟩
  exact bind_eq_some_iff.2 ⟨_, hl, rfl⟩

theorem makes_copyChannel {p : ℕ} {channel : Channel T.channel} (hp : deref .channel p h = some channel) :
    Makes (copyChannel p) h fun k q => deref .channel q k = some channel :=
  Makes.bind_ask hp ((makes_new _).mono fun _ _ hq => deref_eq_some_iff.2 hq)

theorem makes_copyAlternative {alternative : CmdType} {kind : Kind}
    {make : Code → kind.Obj T → Operation T.invite} {blank : kind.Obj T}
    {assign : kind.Obj T → kind.Obj T} (hassign : ∀ info, assign info = info)
    {state : CmdType × Code} {operationInfo : CmdType × Option ℕ} {operation : Operation T.invite}
    (hoperation : alternativeAt alternative kind make state operationInfo h = some operation) :
    Makes (copyAlternative alternative kind blank assign operationInfo) h fun k info =>
      alternativeAt alternative kind make state info k = some operation := by
  obtain ⟨code, hcode, hrest⟩ := bind_eq_some_iff.1 hoperation
  obtain ⟨_, hp, hread⟩ := bind_eq_some_iff.1 hrest
  obtain ⟨p, rfl, hderef⟩ := bind_eq_some_iff.1 hread
  obtain ⟨info, hinfo, hmake⟩ := bind_eq_some_iff.1 hderef
  cases hmake
  have hcopy : Makes (copyInfo kind blank assign (some p)) h fun k q => deref kind q k = some info := by
    refine Makes.bind_ask hinfo ((makes_new _).mono fun k q hq => ?_)
    rw [hassign] at hq
    exact deref_eq_some_iff.2 hq
  refine Makes.bind_ask hp (hcopy.bind fun q h' _ => makes_pure fun k hq => ?_)
  refine bind_eq_some_iff.2 ⟨code, hcode, ?_⟩
  refine bind_eq_some_iff.2 ⟨some q, if_pos rfl, bind_eq_some_iff.2 ⟨q, rfl, ?_⟩⟩
  exact bind_eq_some_iff.2 ⟨info, hq, rfl⟩

theorem makes_copyOperationInfo {cmd : InviteObject T.invite} {operation : Operation T.invite}
    (hcmd : operationAt cmd h = some operation) :
    Makes (copyOperationInfo cmd) h fun k info =>
      operationAt { cmd with operationInfo := info } k = some operation := by
  rw [operationAt] at hcmd
  simp only [copyOperationInfo, operationAt]
  cases htype : cmd.cmdType with
  | liveStream =>
    rw [htype] at hcmd
    exact makes_copyAlternative (fun _ => rfl) hcmd
  | recordPlayback =>
    rw [htype] at hcmd
    exact makes_copyAlternative (fun _ => rfl) hcmd
  | recordDownload =>
    rw [htype] at hcmd
    exact makes_copyAlternative (fun _ => rfl) hcmd
  | voiceBroadcast =>
    rw [htype] at hcmd
    obtain ⟨state, hstate, hcmd⟩ := bind_eq_some_iff.1 hcmd
    obtain ⟨_, -, hcmd⟩ := bind_eq_some_iff.1 hcmd
    cases hcmd
    refine (makes_new _).bind fun q h' _ => makes_pure fun k _ => ?_
    exact bind_eq_some_iff.2 ⟨state, hstate, rfl⟩

theorem makes_copyExecutingInviteCmd {p : ℕ} {cmd : ExecutingInviteCmd T.invite}
    (hp : inviteAt p h = some cmd) :
    Makes (copyExecutingInviteCmd p) h fun k q => inviteAt q k = some cmd := by
  obtain ⟨invite, hinvite, hp⟩ := bind_eq_some_iff.1 hp
  obtain ⟨operation, hoperation, hp⟩ := bind_eq_some_iff.1 hp
  cases hp
  refine Makes.bind_ask hinvite ((makes_copyOperationInfo hoperation).bind fun info h₁ _ => ?_)
  refine (makes_new _).mono fun k q hq hinfo => ?_
  refine bind_eq_some_iff.2 ⟨_, deref_eq_some_iff.2 hq, ?_⟩
  exact bind_eq_some_iff.2 ⟨operation, hinfo, rfl⟩

end Makes

def copied : Record T → Record T
  | .device device => .device (GBDownLinker.copyDevice device)
  | x => x

theorem makes_copyEntity {h : Memory (Cell T)} {x : Entity} {r : Record T} (hx : x.at h = some r) :
    Makes (copyEntity x) h fun k y => y.at k = some (copied r) := by
  cases x with
  | device p =>
    obtain ⟨device, hp, rfl⟩ := map_eq_some_iff.1 hx
    refine (makes_copyDevice hp).bind fun q h' _ => makes_pure fun k hq => ?_
    exact map_eq_some_iff.2 ⟨_, hq, rfl⟩
  | channel p =>
    obtain ⟨channel, hp, rfl⟩ := map_eq_some_iff.1 hx
    refine (makes_copyChannel hp).bind fun q h' _ => makes_pure fun k hq => ?_
    exact map_eq_some_iff.2 ⟨_, hq, rfl⟩
  | invite p =>
    obtain ⟨cmd, hp, rfl⟩ := map_eq_some_iff.1 hx
    refine (makes_copyExecutingInviteCmd hp).bind fun q h' _ => makes_pure fun k hq => ?_
    exact map_eq_some_iff.2 ⟨_, hq, rfl⟩

theorem save_copied (r : Record T) : (copied r).save = r.save := by
  cases r with
  | device device =>
    show (GBDownLinker.copyDevice device).save = device.save
    have hlist : savechannellist (some (device.channelList.getD [])) =
        savechannellist device.channelList := by
      cases device.channelList with
      | none => exact bind_pure_unit
      | some list => rfl
    simp only [Device.save, GBDownLinker.copyDevice, hlist]
  | channel channel => rfl
  | invite cmd => rfl

theorem queued_snapshot (h : Memory (Cell T)) (entities : List Entity) (x : Entity) (r : Record T)
    (hx : x.at h = some r) :
    ∃ copy h', pushEntity entities (some x) h = some ((entities ++ [copy], true), h') ∧
      ∀ later, Keeps h h' later → ∃ r', copy.at later = some r' ∧ r'.save = r.save := by
  obtain ⟨copy, h', hrun, -, hmade⟩ := makes_copyEntity hx
  refine ⟨copy, h', ?_, fun later hkeeps => ⟨copied r, hmade later hkeeps, save_copied r⟩⟩
  show (copyEntity x h).bind _ = _
  rw [hrun]
  rfl

theorem fits_C1 : FieldType.string.Fits (CText.ascii "C1") := by decide

def sampleCells : List (Cell sampleTypes) :=
  [⟨.device, { (default : DeviceObject sampleTypes.device) with
      deviceId := sampleDevice.deviceId
      deviceStateChangeTime := some 1
      channelList := some 2 }⟩,
   ⟨.time, (default : Tm)⟩,
   ⟨.channelList, [3]⟩,
   ⟨.channel, { (default : Channel sampleTypes.channel) with
      deviceId := sampleDevice.deviceId
      channelDeviceId := ⟨CText.ascii "C1", fits_C1⟩ }⟩]

def sampleMemory : Memory (Cell sampleTypes) where
  cells a := sampleCells[a]?
  next := sampleCells.length
  unused := fun _ ha => List.getElem?_eq_none ha

theorem queued_snapshot_sample :
    ∃ copy h', pushEntity [] (some (.device 0)) sampleMemory = some (([copy], true), h') ∧
      ∀ later, Keeps sampleMemory h' later → ∃ r', copy.at later = some r' ∧
        r'.save = (Record.device sampleDevice : Record sampleTypes).save :=
  queued_snapshot sampleMemory [] (.device 0) _ rfl

end Copies

end GBDownLinker
