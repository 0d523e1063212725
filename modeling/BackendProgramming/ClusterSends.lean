/-
**How often a command is sent.**

A node is named by a `MOVED` reply at most once, and between two redirections the command goes to one node and
to its backup nodes; `sendsLeft` bounds the sends that are left.  A call ends with its result unless a reply to
`zscore` overruns the buffer it is copied to.
-/

import BackendProgramming.ClusterRouting

set_option autoImplicit false

namespace GBDownLinker

open List Option

namespace Routing

open CText StdString

variable {σ : Type} {load : Bytes → Option σ} {commandType : RedisCommandType}

/-! ### One turn -/

theorem afterSend_again {s s' : CallState} {clusterInfo : RedisClusterInfo}
    {reply : Option RedisReplyInfo} (h : afterSend load commandType s clusterInfo reply = .again s') :
    (s.bakClusterList = [] ∧ s'.redirects = s.redirects ∧
      s'.bakClusterList = clusterInfo.bakClusterList ∧ s'.bakIter = 0 ∧
      clusterInfo.bakClusterList ≠ []) ∨
    (s'.redirects = s.redirects ∧ s'.bakClusterList = s.bakClusterList ∧ s'.bakIter = s.bakIter + 1 ∧
      s.bakIter + 1 < s.bakClusterList.length) ∨
    (s'.clusterId ∉ s.redirects ∧ s'.redirects = s.redirects ++ [s'.clusterId] ∧
      s'.bakClusterList = []) := by
  have hbak : ∀ (list : List Bytes) (i : ℕ), tryBak (σ := σ) s list i = .again s' →
      i < list.length ∧ s'.redirects = s.redirects ∧ s'.bakClusterList = list ∧ s'.bakIter = i := by
    intro list i hi
    rw [tryBak] at hi
    split at hi
    case h_1 clusterId hget =>
      obtain rfl := Next.again.inj hi
      exact ⟨(List.getElem?_eq_some_iff.1 hget).1, rfl, rfl, rfl⟩
    case h_2 => cases hi
  cases reply with
  | none =>
    simp only [afterSend] at h
    split at h
    case isTrue => cases h
    case isFalse =>
      split at h
      case isTrue hempty =>
        obtain ⟨hlt, hredirects, hlist, hiter⟩ := hbak _ _ h
        exact .inl ⟨isEmpty_iff.1 hempty, hredirects, hlist, hiter, ne_nil_of_length_pos hlt⟩
      case isFalse =>
        obtain ⟨hlt, hredirects, hlist, hiter⟩ := hbak _ _ h
        exact .inr (.inl ⟨hredirects, hlist, hiter, hlt⟩)
  | some replyInfo =>
    simp only [afterSend] at h
    split at h
    case h_1 => cases h
    case h_2 => cases h
    case h_3 redirect out hreply =>
      split at h
      case isFalse => cases h
      case isTrue =>
        split at h
        case isTrue => cases h
        case isFalse hnew =>
          obtain rfl := Next.again.inj h
          exact .inr (.inr ⟨fun hmem => hnew (contains_iff_mem.2 hmem), rfl, rfl⟩)

/-! ### The bound -/

def sendsLeft (clusterMap : ClusterMap) (b : ℕ) (s : CallState) : ℕ :=
  if (clusterMap.get? s.clusterId).isSome then
    (clusterMap.keys.length - s.redirects.length) * (b + 1) +
      if s.bakClusterList.isEmpty then b + 1 else s.bakClusterList.length - s.bakIter
  else 0

structure CallState.Ok (clusterMap : ClusterMap) (b : ℕ) (s : CallState) : Prop where
  nodup : s.redirects.Nodup
  known : s.redirects ⊆ s.clusterId :: clusterMap.keys
  baks : s.bakClusterList.length ≤ b
  iter : s.bakClusterList ≠ [] → s.bakIter < s.bakClusterList.length

section Bound

variable {clusterMap : ClusterMap} {b : ℕ} {s s' : CallState}

theorem sendsLeft_lt {clusterInfo : RedisClusterInfo} {reply : Option RedisReplyInfo}
    (hok : s.Ok clusterMap b) (hget : clusterMap.get? s.clusterId = some clusterInfo)
    (hb : clusterInfo.bakClusterList.length ≤ b)
    (h : afterSend load commandType s clusterInfo reply = .again s') :
    s'.Ok clusterMap b ∧ sendsLeft clusterMap b s' < sendsLeft clusterMap b s := by
  have hkeys : s.redirects ⊆ clusterMap.keys := fun x hx =>
    (mem_cons.1 (hok.known hx)).elim (fun heq => heq ▸ StdMap.mem_keys_of_get? hget) id
  have hs : sendsLeft clusterMap b s = (clusterMap.keys.length - s.redirects.length) * (b + 1) +
      if s.bakClusterList.isEmpty then b + 1 else s.bakClusterList.length - s.bakIter := by
    simp [sendsLeft, hget]
  have hrest : 0 < if s.bakClusterList.isEmpty then b + 1 else s.bakClusterList.length - s.bakIter := by
    split
    · omega
    · next hne => exact Nat.sub_pos_of_lt (hok.iter (by simpa using hne))
  rcases afterSend_again h with ⟨hnil, hredirects, hlist, hiter, hne⟩ | ⟨hredirects, hlist, hiter, hlt⟩ |
    ⟨hnew, hredirects, hlist⟩
  · -- the first backup node
    refine ⟨⟨hredirects ▸ hok.nodup, ?_, hlist ▸ hb, ?_⟩, ?_⟩
    · rw [hredirects]
      exact fun x hx => mem_cons_of_mem _ (hkeys hx)
    · intro _
      rw [hiter, hlist]
      exact length_pos_of_ne_nil hne
    · rw [hs, sendsLeft, hredirects, hlist, hiter, hnil]
      simp only [isEmpty_nil, if_true, List.isEmpty_iff, hne, if_false]
      split <;> omega
  · -- the next one
    refine ⟨⟨hredirects ▸ hok.nodup, ?_, hlist ▸ hok.baks, ?_⟩, ?_⟩
    · rw [hredirects]
      exact fun x hx => mem_cons_of_mem _ (hkeys hx)
    · intro _
      rw [hiter, hlist]
      exact hlt
    · have hne : s.bakClusterList ≠ [] := ne_nil_of_length_pos (by omega)
      rw [hs, sendsLeft, hredirects, hlist, hiter]
      simp only [List.isEmpty_iff, hne, if_false]
      split <;> omega
  · -- a node that is named for the first time: it takes a round of its own, if it is known
    have hnodup : s'.redirects.Nodup := by
      rw [hredirects]
      exact nodup_append.2 ⟨hok.nodup, by simp, by
        intro x hx y hy
        rw [mem_singleton.1 hy]
        exact fun heq => hnew (heq ▸ hx)⟩
    refine ⟨⟨hnodup, ?_, by simp [hlist], by simp [hlist]⟩, ?_⟩
    · rw [hredirects]
      intro x hx
      rcases mem_append.1 hx with hx | hx
      · exact mem_cons_of_mem _ (hkeys hx)
      · rw [mem_singleton.1 hx]
        exact mem_cons_self
    · rw [hs, sendsLeft]
      split
      · next hsome =>
        obtain ⟨info, hinfo⟩ := Option.isSome_iff_exists.1 hsome
        have hsub : s'.redirects ⊆ clusterMap.keys := by
          rw [hredirects]
          intro x hx
          rcases mem_append.1 hx with hx | hx
          · exact hkeys hx
          · rw [mem_singleton.1 hx]
            exact StdMap.mem_keys_of_get? hinfo
        have hlen : s'.redirects.length ≤ clusterMap.keys.length :=
          (subperm_of_subset hnodup hsub).length_le
        rw [hredirects, length_append, length_singleton] at hlen
        obtain ⟨d, hd⟩ := Nat.exists_eq_add_of_le hlen
        rw [hlist, hredirects, length_append, length_singleton, hd,
          Nat.add_sub_cancel_left, show s.redirects.length + 1 + d - s.redirects.length = d + 1 by omega,
          Nat.add_mul, Nat.one_mul]
        simp only [isEmpty_nil, if_true]
        omega
      · omega

theorem commandLoop_sends (load : Bytes → Option σ) (commandType : RedisCommandType)
    (hb : ∀ x ∈ clusterMap.entries, x.2.bakClusterList.length ≤ b) (turns : List Turn)
    (hmap : ∀ turn ∈ turns, turn.clusterMap = clusterMap) (hok : s.Ok clusterMap b) :
    (commandLoop load commandType turns s).1.length ≤ sendsLeft clusterMap b s := by
  induction turns generalizing s with
  | nil => exact Nat.zero_le _
  | cons turn turns ih =>
    obtain ⟨hturn, hturns⟩ := forall_mem_cons.1 hmap
    rw [commandLoop, hturn]
    split
    case h_1 => exact Nat.zero_le _
    case h_2 clusterInfo hget =>
      have hpos : 0 < sendsLeft clusterMap b s := by
        rw [sendsLeft, hget]
        simp only [isSome_some, if_true]
        split
        · omega
        · next hne =>
          have := hok.iter (by simpa using hne)
          omega
      cases hsend : afterSend load commandType s clusterInfo turn.reply with
      | ret success out => exact hpos
      | fault => exact hpos
      | again s' =>
        obtain ⟨hok', hlt⟩ := sendsLeft_lt hok hget (hb _ (StdMap.get?_eq_some_iff.1 hget)) hsend
        have hrest := ih hturns hok'
        simp only [length_cons]
        omega

end Bound

/-! ### How a call ends -/

def Overruns (commandType : RedisCommandType) (reply : Option RedisReplyInfo) : Prop :=
  commandType = .zscore ∧ ∃ replyInfo element, reply = some replyInfo ∧ replyInfo.replyType = .string ∧
    replyInfo.arrayList.head? = some element ∧ element.replyType ≠ .nil ∧
    64 ≤ (element.arrayValue.getD []).length

theorem handleScore_fault {replyInfo : RedisReplyInfo} :
    handleScore (σ := σ) replyInfo = .fault ↔ Overruns .zscore (some replyInfo) := by
  constructor
  · intro h
    simp only [handleScore] at h
    split at h
    case isTrue => cases h
    case isFalse =>
      split at h
      case isTrue => cases h
      case isFalse htype =>
        split at h
        case h_1 => cases h
        case h_2 element rest hlist =>
          split at h
          case isTrue => cases h
          case isFalse hnil =>
            split at h
            case isTrue hlong => exact ⟨rfl, replyInfo, element, rfl, not_not.1 htype, by simp [hlist], hnil, hlong⟩
            case isFalse => cases h
  · rintro ⟨-, replyInfo', element, hsome, htype, hhead, hnil, hlong⟩
    cases hsome
    obtain ⟨rest, hlist⟩ := head?_eq_some_iff.1 hhead
    simp [handleScore, checkIfNeedRedirect, htype, hlist, hnil, hlong]

theorem expectReply_ne_fault {replyType : RedisReplyType} {replyInfo : RedisReplyInfo}
    {f : Redirect → Handled σ} (hf : ∀ redirect, f redirect ≠ .fault) :
    expectReply replyType replyInfo f ≠ .fault := by
  simp only [expectReply]
  split
  · exact hf _
  · split
    · simp
    · exact hf _

theorem handleDone_ne_fault {success : ℤ → Bool} {replyInfo : RedisReplyInfo} :
    handleDone (σ := σ) success replyInfo ≠ .fault := by
  refine expectReply_ne_fault ?_
  intro redirect
  repeat' split
  all_goals simp

theorem handleReply_fault (load : Bytes → Option σ) (replyInfo : RedisReplyInfo) :
    handleReply load commandType replyInfo = .fault ↔ Overruns commandType (some replyInfo) := by
  by_cases hscore : commandType = .zscore
  · subst hscore
    exact handleScore_fault
  · refine iff_of_false ?_ (fun h => hscore h.1)
    unfold handleReply
    split
    · refine expectReply_ne_fault ?_
      intro redirect
      repeat' split
      all_goals simp
    · exact expectReply_ne_fault (by intro redirect; simp)
    · exact expectReply_ne_fault (by intro redirect; simp)
    iterate 5 exact handleDone_ne_fault
    · simp only
      split <;> simp
    · exact handleDone_ne_fault
    iterate 7
      refine expectReply_ne_fault ?_
      intro redirect
      split <;> simp
    · exact absurd rfl hscore
    · simp only
      split <;> simp
    · simp only
      split <;> simp
    · simp

theorem afterSend_fault (load : Bytes → Option σ) (commandType : RedisCommandType) (s : CallState)
    (clusterInfo : RedisClusterInfo) (reply : Option RedisReplyInfo) :
    afterSend load commandType s clusterInfo reply = .fault ↔ Overruns commandType reply := by
  cases reply with
  | none =>
    refine iff_of_false ?_ (by simp [Overruns])
    have hbak : ∀ (list : List Bytes) (i : ℕ), tryBak (σ := σ) s list i ≠ .fault := by
      intro list i
      rw [tryBak]
      split <;> simp
    simp only [afterSend]
    repeat' split
    · simp
    · exact hbak _ _
    · exact hbak _ _
  | some replyInfo =>
    rw [← handleReply_fault load]
    simp only [afterSend]
    cases handleReply load commandType replyInfo with
    | ret success out => simp
    | fault => simp
    | goOn redirect out =>
      simp only [reduceCtorEq, iff_false]
      repeat' split
      all_goals simp

theorem commandLoop_fault (load : Bytes → Option σ) (commandType : RedisCommandType)
    (turns : List Turn) (s : CallState) :
    (commandLoop load commandType turns s).2 = .fault ↔
      ∃ send ∈ (commandLoop load commandType turns s).1, Overruns commandType send.reply := by
  induction turns generalizing s with
  | nil => simp [commandLoop]
  | cons turn turns ih =>
    rw [commandLoop]
    split
    case h_1 => simp
    case h_2 clusterInfo hget =>
      have hfault := afterSend_fault load commandType s clusterInfo turn.reply
      cases hsend : afterSend load commandType s clusterInfo turn.reply with
      | ret success out => simpa [hsend] using hfault
      | fault => simpa [hsend] using hfault
      | again s' =>
        rw [hsend] at hfault
        simp only [mem_cons, exists_eq_or_imp, ← hfault, reduceCtorEq, false_or]
        exact ih s'

theorem commandLoop_running_length (turns : List Turn) (s : CallState)
    (h : (commandLoop load commandType turns s).2 = .running) :
    (commandLoop load commandType turns s).1.length = turns.length := by
  induction turns generalizing s with
  | nil => rfl
  | cons turn turns ih =>
    rw [commandLoop] at h ⊢
    cases hget : turn.clusterMap.get? s.clusterId with
    | none => simp [hget] at h
    | some clusterInfo =>
      simp only [hget] at h ⊢
      cases hsend : afterSend load commandType s clusterInfo turn.reply with
      | ret success out => simp [hsend] at h
      | fault => simp [hsend] at h
      | again s' =>
        simp only [hsend] at h
        simpa using ih s' h

end Routing

end GBDownLinker
