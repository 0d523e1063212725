/-
**Parsing the reply to `CLUSTER NODES`.**

The reply has a line for each node of the cluster; the parser cuts it at line ends and every line at blanks,
and keeps a map from the address of a node to what its line says.  A second pass tells every node the
addresses of its replicas.
-/

import BackendProgramming.StdString
import BackendProgramming.StdMap
import BackendProgramming.RedisBase

set_option autoImplicit false

namespace GBDownLinker

open CText StdString

structure RedisClusterInfo where
  clusterId : Bytes := []
  connectIp : Bytes := []
  connectPort : ℕ := 0
  connectionNum : ℕ := 0
  connectTimeout : ℕ := 0
  readTimeout : ℕ := 0
  isMaster : Bool := false
  isAlived : Bool := false
  masterClusterId : Bytes := []
  slotMap : StdMap ℕ ℕ := ∅
  bakClusterList : List Bytes := []
  deriving DecidableEq

abbrev ClusterMap := StdMap Bytes RedisClusterInfo

def blank : Bytes := [32]

/-! ### One line -/

def toUInt16 (z : ℤ) : ℕ := (z % 2 ^ 16).toNat

def toUInt32 (z : ℤ) : ℕ := (z % 2 ^ 32).toNat

def parseSlotStr (slotStr : Bytes) (startSlotNum stopSlotNum : ℕ) : ℕ × ℕ :=
  match find slotStr (ascii "-") 0 with
  | some findPos =>
    (toUInt16 (atoi (substr slotStr 0 findPos)),
      toUInt16 (atoi (substr slotStr (findPos + 1) (slotStr.length - findPos))))
  | none => (startSlotNum, stopSlotNum)

def putSlot (slotStr : Bytes) (slotMap : StdMap ℕ ℕ) : StdMap ℕ ℕ :=
  let slot := parseSlotStr slotStr (toUInt16 (-1)) (toUInt16 (-1))
  slotMap.assign slot.1 slot.2

def slotLoop (infoStr : Bytes) : ℕ → ℕ → StdMap ℕ ℕ → StdMap ℕ ℕ
  | 0, _, slotMap => slotMap
  | fuel + 1, startPos, slotMap =>
    match find infoStr blank startPos with
    | some findPos =>
      slotLoop infoStr fuel (findPos + 1) (putSlot (substr infoStr startPos findPos) slotMap)
    | none => putSlot (substr infoStr startPos (infoStr.length - startPos)) slotMap

def redisDefaultServerPort : ℕ := 6379

def parseAddress (address : Bytes) : Bytes × ℕ :=
  match find address (ascii ":") 0 with
  | some findPos =>
    (substr address 0 findPos,
      toUInt32 (atoi (substr address (findPos + 1) (address.length - findPos))))
  | none => (address, redisDefaultServerPort)

def parseLink (infoStr : Bytes) (startPos : ℕ) (clusterInfo : RedisClusterInfo) :
    Option RedisClusterInfo :=
  let isAlived := (find infoStr (ascii "disconnected") startPos).isNone
  let clusterInfo := { clusterInfo with isAlived := isAlived }
  if clusterInfo.isMaster && clusterInfo.isAlived then
    -- `npos + 1` is zero
    let startPos := ((find infoStr (ascii "connected") startPos).map (· + 1)).getD 0
    match find infoStr blank startPos with
    | none => none
    | some findPos =>
      some { clusterInfo with slotMap := slotLoop infoStr infoStr.length (findPos + 1) ∅ }
  else some clusterInfo

def parseOneCluster (infoStr : Bytes) : Option RedisClusterInfo :=
  match find infoStr blank 0 with
  | none => some {}
  | some idPos => do
    let addressPos ← find infoStr blank (idPos + 1)
    let flagsPos ← find infoStr blank (addressPos + 1)
    let masterPos ← find infoStr blank (flagsPos + 1)
    let address := parseAddress (substr infoStr (idPos + 1) (addressPos - (idPos + 1)))
    let flags := substr infoStr (addressPos + 1) (flagsPos - (addressPos + 1))
    let isMaster := contains flags (ascii "master")
    let master := substr infoStr (flagsPos + 1) (masterPos - (flagsPos + 1))
    parseLink infoStr (masterPos + 1)
      { clusterId := substr infoStr 0 idPos
        connectIp := address.1
        connectPort := address.2
        isMaster := isMaster
        masterClusterId := if isMaster then [] else master }

/-! ### The reply -/

structure ConnectionParams where
  connectionNum : ℕ
  connectTimeout : ℕ
  readTimeout : ℕ

def toStr (n : ℕ) : Bytes := if n = 2 ^ 32 - 1 then ascii "-1" else decimal n

def RedisClusterInfo.address (info : RedisClusterInfo) : Bytes :=
  info.connectIp ++ ascii ":" ++ toStr info.connectPort

def isSkipped (infoStr : Bytes) : Bool :=
  contains infoStr (ascii "fail") || contains infoStr (ascii "noaddr") ||
    contains infoStr (ascii "disconnected")

structure ClusterMaps where
  clusterMap : ClusterMap := ∅
  bakMap : StdMap Bytes Bytes := ∅

def ClusterMaps.add (params : ConnectionParams) (maps : ClusterMaps) (clusterInfo : RedisClusterInfo) :
    ClusterMaps where
  bakMap :=
    if !clusterInfo.isMaster && !clusterInfo.masterClusterId.isEmpty then
      maps.bakMap.assign clusterInfo.address clusterInfo.masterClusterId
    else maps.bakMap
  clusterMap := maps.clusterMap.assign clusterInfo.address
    { clusterInfo with
      connectionNum := params.connectionNum
      connectTimeout := params.connectTimeout
      readTimeout := params.readTimeout }

def lineLoop (params : ConnectionParams) (str : Bytes) : ℕ → ℕ → ClusterMaps → Option ClusterMaps
  | 0, _, maps => some maps
  | fuel + 1, startPos, maps =>
    match find str (ascii "\n") startPos with
    | none => some maps
    | some findPos =>
      let infoStr := substr str startPos (findPos - startPos)
      if infoStr = ascii "\r" then some maps
      else if isSkipped infoStr then lineLoop params str fuel (findPos + 1) maps
      else
        match parseOneCluster infoStr with
        | none => none
        | some clusterInfo => lineLoop params str fuel (findPos + 1) (maps.add params clusterInfo)

def ClusterMaps.link (maps : ClusterMaps) : ClusterMap :=
  maps.bakMap.entries.foldl
    (fun clusterMap bak => clusterMap.update fun info =>
      if info.clusterId = bak.2 then { info with bakClusterList := info.bakClusterList ++ [bak.1] }
      else info)
    maps.clusterMap

def parseClusterInfo (params : ConnectionParams) (replyInfo : RedisReplyInfo) : Bool × ClusterMap :=
  match replyInfo.arrayList with
  | [] => (false, ∅)
  | reply :: _ =>
    if reply.replyType ≠ .string ∨ reply.arrayLen = 0 then (false, ∅)
    else
      let str := (reply.arrayValue.getD []).takeWhile (· ≠ 0)
      match lineLoop params str (str.length + 1) 0 {} with
      | none => (false, ∅)
      | some maps => (true, maps.link)

end GBDownLinker
