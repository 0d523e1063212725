/-
**One command in a cluster.**

`RedisClient::doRedisCommandCluster` sends a command to the node that serves the slot of its key.  A command
that only reads is sent to the backup nodes when the node cannot be reached; a `MOVED` reply sends any command
to the node it names, unless that node has been named before.  What a `goto` leads back to is one turn, and
the environment of a call is the list of its turns.
-/

import BackendProgramming.ClusterNodes
import BackendProgramming.ClusterSlot

set_option autoImplicit false

namespace GBDownLinker

namespace Routing

open CText StdString

/-! ### Commands -/

inductive RedisCommandType where
  | unknown
  | auth
  | readTypeStart
  | get
  | exists
  | dbsize
  | zcount
  | zcard
  | zscore
  | zrangebyscore
  | scard
  | sismember
  | smembers
  | keys
  | readTypeEnd
  | writeTypeStart
  | set
  | del
  | expire
  | zadd
  | zrem
  | zincrby
  | zremrangebyscore
  | sadd
  | srem
  | writeTypeEnd
  | forStandAloneModeStart
  | watch
  | unwatch
  | multi
  | exec
  | discard
  | forStandAloneModeEnd
  | toSentinelNodesStart
  | sentinelGetMasterAddr
  | infoReplication
  | sentinelCkquorum
  | toSentinelNodesEnd
  deriving DecidableEq, Repr

def IsCommandWriteType (type : RedisCommandType) : Prop :=
  RedisCommandType.writeTypeStart.ctorIdx < type.ctorIdx ∧
    type.ctorIdx < RedisCommandType.writeTypeEnd.ctorIdx

instance (type : RedisCommandType) : Decidable (IsCommandWriteType type) :=
  inferInstanceAs (Decidable (_ ∧ _))

/-! ### Replies -/

def toLower (b : UInt8) : UInt8 := if 65 ≤ b && b ≤ 90 then b + 32 else b

def eqIgnoringCase (s t : Bytes) (n : ℕ) : Bool := (s.take n).map toLower = (t.take n).map toLower

structure Redirect where
  found : Bool := false
  needRedirect : Bool := false
  redirectInfo : Bytes := []
  deriving DecidableEq, Repr

def checkIfNeedRedirect (replyInfo : RedisReplyInfo) : Redirect :=
  if replyInfo.replyType = .error then
    if eqIgnoringCase replyInfo.resultString (ascii "MOVED") 5 then
      match findLastOf 32 replyInfo.resultString with
      | some findPos =>
        ⟨true, true, substr replyInfo.resultString (findPos + 1)
          (replyInfo.resultString.length - findPos - 1)⟩
      | none => ⟨false, true, []⟩
    else {}
  else {}

structure Output (σ : Type) where
  members : List Bytes := []
  serial : Option σ := none
  count : Option ℤ := none

inductive Handled (σ : Type) where
  | ret (success : Bool) (out : Output σ)
  | goOn (redirect : Redirect) (out : Output σ)
  | fault

variable {σ : Type}

def expectReply (replyType : RedisReplyType) (replyInfo : RedisReplyInfo)
    (f : Redirect → Handled σ) : Handled σ :=
  let redirect := checkIfNeedRedirect replyInfo
  if redirect.found then f redirect
  else if replyInfo.replyType ≠ replyType then .ret false {}
  else f redirect

def handleDone (success : ℤ → Bool) (replyInfo : RedisReplyInfo) : Handled σ :=
  expectReply .integer replyInfo fun redirect =>
    if replyInfo.replyType = .integer && success replyInfo.intValue then .ret true {}
    else if replyInfo.replyType = .integer && replyInfo.intValue = 0 then .ret false {}
    else .goOn redirect {}

def handleCount (replyInfo : RedisReplyInfo) : Handled σ :=
  expectReply .integer replyInfo fun redirect =>
    if replyInfo.replyType = .integer then .ret true { count := some replyInfo.intValue }
    else .goOn redirect {}

def handleGet (load : Bytes → Option σ) (replyInfo : RedisReplyInfo) : Handled σ :=
  expectReply .string replyInfo fun redirect =>
    if redirect.found then .goOn redirect {}
    else
      match replyInfo.arrayList with
      | [] => .ret false {}
      | element :: _ =>
        if element.replyType = .nil then .ret false {}
        else
          match load (element.arrayValue.getD []) with
          | none => .ret false {}
          | some serial => .goOn redirect { serial := some serial }

def handleScore (replyInfo : RedisReplyInfo) : Handled σ :=
  let redirect := checkIfNeedRedirect replyInfo
  if redirect.found then .goOn redirect {}
  else if replyInfo.replyType ≠ .string then .ret false {}
  else
    match replyInfo.arrayList with
    | [] => .ret false {}
    | element :: _ =>
      if element.replyType = .nil then .ret false {}
      else if 64 ≤ (element.arrayValue.getD []).length then .fault
      else .ret true { count := some (atoi (element.arrayValue.getD [])) }

def replyKeys (replyInfo : RedisReplyInfo) : List Bytes :=
  if replyInfo.replyType = .array then
    (replyInfo.arrayList.filter (·.replyType = .string)).map fun element =>
      (element.arrayValue.getD []).takeWhile (· ≠ 0)
  else []

def handleReply (load : Bytes → Option σ) (commandType : RedisCommandType) (replyInfo : RedisReplyInfo) :
    Handled σ :=
  match commandType with
  | .get => handleGet load replyInfo
  | .set | .auth => expectReply .status replyInfo fun redirect => .goOn redirect {}
  | .exists | .del | .expire | .zadd | .zrem => handleDone (· = 1) replyInfo
  | .zincrby =>
    let redirect := checkIfNeedRedirect replyInfo
    if redirect.found then .goOn redirect {}
    else .ret (replyInfo.replyType = .string) {}
  | .zremrangebyscore => handleDone (0 < ·) replyInfo
  | .zcount | .dbsize | .zcard | .scard | .sadd | .srem | .sismember => handleCount replyInfo
  | .zscore => handleScore replyInfo
  | .zrangebyscore | .smembers =>
    let redirect := checkIfNeedRedirect replyInfo
    if redirect.found then .goOn redirect {}
    else .goOn redirect { members := replyKeys replyInfo }
  | _ => .goOn {} {}

/-! ### The function -/

inductive Origin where
  | slot
  | bakClusterList
  | redirect
  deriving DecidableEq, Repr

structure CallState where
  clusterId : Bytes
  origin : Origin := .slot
  redirects : List Bytes := []
  bakClusterList : List Bytes := []
  bakIter : ℕ := 0

inductive Next (σ : Type) where
  | ret (success : Bool) (out : Output σ)
  | again (s : CallState)
  | fault

def tryBak (s : CallState) (bakClusterList : List Bytes) (bakIter : ℕ) : Next σ :=
  match bakClusterList[bakIter]? with
  | some clusterId =>
    .again { s with clusterId, origin := .bakClusterList, bakClusterList, bakIter }
  | none => .ret false {}

def afterSend (load : Bytes → Option σ) (commandType : RedisCommandType) (s : CallState)
    (clusterInfo : RedisClusterInfo) : Option RedisReplyInfo → Next σ
  | none =>
    if IsCommandWriteType commandType then .ret false {}
    else if s.bakClusterList.isEmpty then tryBak s clusterInfo.bakClusterList 0
    else tryBak s s.bakClusterList (s.bakIter + 1)
  | some replyInfo =>
    match handleReply load commandType replyInfo with
    | .ret success out => .ret success out
    | .fault => .fault
    | .goOn redirect out =>
      if redirect.needRedirect then
        if s.redirects.contains redirect.redirectInfo then .ret false out
        else
          .again
            { s with
              clusterId := redirect.redirectInfo
              origin := .redirect
              redirects := s.redirects ++ [redirect.redirectInfo]
              bakClusterList := [] }
      else .ret true out

structure Turn where
  clusterMap : ClusterMap
  reply : Option RedisReplyInfo

structure Send where
  clusterId : Bytes
  origin : Origin
  reply : Option RedisReplyInfo

inductive Ending (σ : Type) where
  | ret (success : Bool) (out : Output σ)
  | fault
  | running

def commandLoop (load : Bytes → Option σ) (commandType : RedisCommandType) :
    List Turn → CallState → List Send × Ending σ
  | [], _ => ([], .running)
  | turn :: turns, s =>
    match turn.clusterMap.get? s.clusterId with
    | none => ([], .ret false {})
    | some clusterInfo =>
      let send : Send := ⟨s.clusterId, s.origin, turn.reply⟩
      match afterSend load commandType s clusterInfo turn.reply with
      | .ret success out => ([send], .ret success out)
      | .fault => ([send], .fault)
      | .again s' =>
        let rest := commandLoop load commandType turns s'
        (send :: rest.1, rest.2)

def doRedisCommandCluster (load : Bytes → Option σ) (commandType : RedisCommandType) (key : Bytes)
    (slotMap : StdMap ℕ Bytes) (turns : List Turn) : List Send × Ending σ :=
  match slotMap.get? (clusterSlot key) with
  | none => ([], .ret false {})
  | some clusterId => commandLoop load commandType turns { clusterId }

/-! ### `MOVED` replies -/

def MovedTo (replyInfo : RedisReplyInfo) (node : Bytes) : Prop :=
  replyInfo.replyType = .error ∧
  (replyInfo.resultString.take 5).map toLower = ascii "moved" ∧
  ∃ front, replyInfo.resultString = front ++ 32 :: node ∧ 32 ∉ node

theorem movedTo_of_found {replyInfo : RedisReplyInfo}
    (h : (checkIfNeedRedirect replyInfo).found = true) :
    MovedTo replyInfo (checkIfNeedRedirect replyInfo).redirectInfo := by
  revert h
  rw [checkIfNeedRedirect]
  split
  case isFalse => simp
  case isTrue herror =>
    split
    case isFalse => simp
    case isTrue hmoved =>
      split
      case h_2 => simp
      case h_1 findPos hfind =>
        intro _
        obtain ⟨front, node, htext, hnode, rfl⟩ := findLastOf_eq_some hfind
        refine ⟨herror, (of_decide_eq_true hmoved).trans (by decide), front, ?_, ?_⟩
        · simp [htext, substr]
        · simpa [htext, substr] using hnode

section Write

variable {load : Bytes → Option σ} {commandType : RedisCommandType}

theorem expectReply_moved {replyType : RedisReplyType} {replyInfo : RedisReplyInfo}
    {f : Redirect → Handled σ} {redirect : Redirect} {out : Output σ} (herror : replyType ≠ .error)
    (hf : ∀ r r' out, f r = .goOn r' out → r' = r)
    (h : expectReply replyType replyInfo f = .goOn redirect out) (hneed : redirect.needRedirect = true) :
    MovedTo replyInfo redirect.redirectInfo := by
  simp only [expectReply] at h
  split at h
  case isTrue hfound =>
    obtain rfl := hf _ _ _ h
    exact movedTo_of_found hfound
  case isFalse =>
    split at h
    case isTrue => cases h
    case isFalse htype =>
      obtain rfl := hf _ _ _ h
      have hnone : replyInfo.replyType ≠ .error := by
        rw [not_not.1 htype]
        exact herror
      simp [checkIfNeedRedirect, hnone] at hneed

theorem handleDone_goOn {success : ℤ → Bool} {replyInfo : RedisReplyInfo} {redirect : Redirect}
    {out : Output σ} (h : handleDone success replyInfo = .goOn redirect out)
    (hneed : redirect.needRedirect = true) : MovedTo replyInfo redirect.redirectInfo := by
  refine expectReply_moved (by decide) ?_ h hneed
  intro r r' out hr
  split at hr
  · cases hr
  · split at hr
    · cases hr
    · exact (Handled.goOn.inj hr).1.symm

theorem handleReply_write {replyInfo : RedisReplyInfo} {redirect : Redirect} {out : Output σ}
    (hwrite : IsCommandWriteType commandType)
    (h : handleReply load commandType replyInfo = .goOn redirect out)
    (hneed : redirect.needRedirect = true) : MovedTo replyInfo redirect.redirectInfo := by
  cases commandType with
  | set =>
    simp only [handleReply] at h
    refine expectReply_moved (by decide) ?_ h hneed
    intro r r' out hr
    exact (Handled.goOn.inj hr).1.symm
  | del | expire | zadd | zrem | zremrangebyscore =>
    simp only [handleReply] at h
    exact handleDone_goOn h hneed
  | zincrby =>
    simp only [handleReply] at h
    split at h
    case isTrue hfound =>
      obtain ⟨rfl, -⟩ := Handled.goOn.inj h
      exact movedTo_of_found hfound
    case isFalse => cases h
  | sadd | srem =>
    simp only [handleReply, handleCount] at h
    refine expectReply_moved (by decide) ?_ h hneed
    intro r r' out hr
    split at hr
    · cases hr
    · exact (Handled.goOn.inj hr).1.symm
  | _ => exact absurd hwrite (by decide)

theorem afterSend_write {s s' : CallState} {clusterInfo : RedisClusterInfo} {reply : Option RedisReplyInfo}
    (hwrite : IsCommandWriteType commandType)
    (h : afterSend load commandType s clusterInfo reply = .again s') :
    (∃ replyInfo, reply = some replyInfo ∧ MovedTo replyInfo s'.clusterId) ∧ s'.origin = .redirect ∧
      s'.clusterId ∉ s.redirects ∧ s'.redirects = s.redirects ++ [s'.clusterId] := by
  cases reply with
  | none => simp [afterSend, hwrite] at h
  | some replyInfo =>
    simp only [afterSend] at h
    split at h
    case h_1 => cases h
    case h_2 => cases h
    case h_3 redirect out hreply =>
      split at h
      case isFalse => cases h
      case isTrue hneed =>
        split at h
        case isTrue => cases h
        case isFalse hnew =>
          obtain rfl := Next.again.inj h
          have hfresh : redirect.redirectInfo ∉ s.redirects := fun hmem =>
            hnew (List.contains_iff_mem.2 hmem)
          exact ⟨⟨replyInfo, rfl, handleReply_write hwrite hreply hneed⟩, rfl, hfresh, rfl⟩

/-! ### The trace of a write -/

def Follows (first second : Send) : Prop :=
  ∃ replyInfo, first.reply = some replyInfo ∧ MovedTo replyInfo second.clusterId

theorem commandLoop_write (hwrite : IsCommandWriteType commandType) :
    ∀ (turns : List Turn) (s : CallState),
      (∀ send, (commandLoop load commandType turns s).1.head? = some send → send.clusterId = s.clusterId) ∧
      (commandLoop load commandType turns s).1.IsChain Follows ∧
      ∀ send ∈ (commandLoop load commandType turns s).1, send.origin = s.origin ∨ send.origin = .redirect := by
  intro turns
  induction turns with
  | nil => intro s; simp [commandLoop]
  | cons turn turns ih =>
    intro s
    rw [commandLoop]
    split
    case h_1 => simp
    case h_2 clusterInfo hget =>
      cases hsend : afterSend load commandType s clusterInfo turn.reply with
      | ret success out => simp
      | fault => simp
      | again s' =>
        obtain ⟨⟨replyInfo, hreply, hmoved⟩, horigin, -, -⟩ := afterSend_write hwrite hsend
        obtain ⟨hhead, hchain, horigins⟩ := ih s'
        refine ⟨by simp, ?_, ?_⟩
        · refine List.isChain_cons.2 ⟨?_, hchain⟩
          intro second hsecond
          refine ⟨replyInfo, hreply, ?_⟩
          rw [hhead second hsecond]
          exact hmoved
        · intro send hmem
          obtain rfl | hmem := List.mem_cons.1 hmem
          · exact Or.inl rfl
          · right
            obtain h | h := horigins send hmem
            · rw [h, horigin]
            · exact h

end Write

theorem write_never_resent (load : Bytes → Option σ) (commandType : RedisCommandType)
    (hwrite : IsCommandWriteType commandType) (key : Bytes) (slotMap : StdMap ℕ Bytes) (turns : List Turn) :
    let sends := (doRedisCommandCluster load commandType key slotMap turns).1
    (∀ send ∈ sends, send.origin ≠ .bakClusterList) ∧
    (∀ before send after, sends = before ++ send :: after → send.reply = none → after = []) ∧
    ∀ before first second after, sends = before ++ first :: second :: after →
      ∃ replyInfo, first.reply = some replyInfo ∧ MovedTo replyInfo second.clusterId := by
  intro sends
  obtain ⟨hchain, horigins⟩ : sends.IsChain Follows ∧
      ∀ send ∈ sends, send.origin = .slot ∨ send.origin = .redirect := by
    simp only [sends, doRedisCommandCluster]
    split
    · simp
    · exact (commandLoop_write hwrite turns _).2
  have hfollows : ∀ before first second after, sends = before ++ first :: second :: after →
      Follows first second := by
    intro before first second after hsends
    rw [hsends] at hchain
    exact (List.isChain_append_cons_cons.1 hchain).2.1
  refine ⟨?_, ?_, hfollows⟩
  · intro send hmem
    obtain h | h := horigins send hmem <;> simp [h]
  · intro before send after hsends hfailed
    cases after with
    | nil => rfl
    | cons second after =>
      obtain ⟨replyInfo, hreply, -⟩ := hfollows before send second after hsends
      rw [hfailed] at hreply
      cases hreply

theorem write_never_resent_sample :
    let moved : RedisReplyInfo := ⟨.error, ascii "MOVED 12182 10.0.0.2:7002", 0, []⟩
    let map := ((∅ : ClusterMap).assign (ascii "10.0.0.1:7001") {}).assign (ascii "10.0.0.2:7002") {}
    let slotMap := (∅ : StdMap ℕ Bytes).assign (clusterSlot (ascii "foo")) (ascii "10.0.0.1:7001")
    let sends := (doRedisCommandCluster (fun _ => (none : Option Unit)) .set (ascii "foo") slotMap
      [⟨map, some moved⟩, ⟨map, none⟩]).1
    sends.map Send.clusterId = [ascii "10.0.0.1:7001", ascii "10.0.0.2:7002"] ∧
    ∀ before first second after, sends = before ++ first :: second :: after →
      ∃ replyInfo, first.reply = some replyInfo ∧ MovedTo replyInfo second.clusterId := by
  intro moved map slotMap sends
  constructor
  · decide +kernel
  · exact (write_never_resent (fun _ => (none : Option Unit)) .set (by decide) (ascii "foo") slotMap
      [⟨map, some moved⟩, ⟨map, none⟩]).2.2

end Routing

end GBDownLinker
