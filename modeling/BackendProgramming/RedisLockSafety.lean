/-
**No lost update, as long as the watch survives.**

The watch belongs to the server's side of one connection.  If the connection closes and the next command, which
opens it again, is the `get` or the `multi` of a session, the transaction is executed without a watch.  If it
closes later, the transaction is lost together with the watch, and `exec` fails.
-/

import BackendProgramming.RedisLock

set_option autoImplicit false

namespace Norah

open CText GBDownLinker TxServer List Option

variable {ι : Type}

abbrev KeyNet (ι : Type) := Net ι ℕ Unit KeyOp (Option Bytes)

def repeats (fate : Fate) (call : Call) : Bool :=
  match fate with
  | .refused text => call.redirects.any fun target =>
    checkIfNeedRedirect (errorInfo text) = some target
  | _ => false

def Steady (σ : System ι) : Event ι → Prop
  | .send i fate =>
    match (σ.client i).pc with
    | .sending .watch call => ¬ repeats fate call
    | .sending .get _ => σ.net.opened (σ.client i).conn = true ∨ fate = .connectFailed
    | .sending .multi _ => σ.net.opened (σ.client i).conn = true ∨ fate = .connectFailed
    | _ => True
  | _ => True

instance (σ : System ι) (e : Event ι) : Decidable (Steady σ e) := by
  unfold Steady
  cases e with
  | send i fate => dsimp only; split <;> infer_instance
  | _ => exact inferInstanceAs (Decidable True)

/-! ### The invariant -/

def Guards (κ : Conn Unit KeyOp) (log : List (ι × KeyOp)) (n : ℕ) : Prop :=
  () ∈ κ.watched ∧ (κ.dirtyCas = false → log.length = n)

def Committed (log : List (ι × KeyOp)) (i : ι) (cl : Client) : Prop :=
  log[cl.commitAt]? = some (i, .set cl.value) ∧
    ∀ j x, cl.readAt ≤ j → j < cl.commitAt → log[j]? = some x → x.1 = i

def ClientInv (net : KeyNet ι) (i : ι) (cl : Client) : Prop :=
  let κ := net.server.conns cl.conn
  match cl.pc with
  | .sending .get _ => cl.lock ≠ [] ∧ (net.opened cl.conn = true → () ∈ κ.watched)
  | .held => cl.lock ≠ [] ∧ (net.opened cl.conn = true → Guards κ net.server.log cl.readAt)
  | .sending .multi _ =>
    cl.lock ≠ [] ∧ (net.opened cl.conn = true → Guards κ net.server.log cl.readAt)
  | .sending .set _ => cl.lock ≠ [] ∧
      ∀ q, κ.queue = some q → q = [] ∧ Guards κ net.server.log cl.readAt
  | .sending .exec _ => cl.lock ≠ [] ∧
      ∀ q, κ.queue = some q → q = [.op (.set cl.value)] ∧ Guards κ net.server.log cl.readAt
  | .returned true => Committed net.server.log i cl
  | _ => True

structure Inv (σ : System ι) : Prop where
  apart : ∀ i j, i ≠ j → (σ.client i).inSession = true → (σ.client j).inSession = true →
    (σ.client i).conn ≠ (σ.client j).conn
  client : ∀ i, ClientInv σ.net i (σ.client i)

theorem inv_initial (v : Option Bytes) : Inv (initial v : System ι) :=
  ⟨fun _ _ _ h => by simp [initial, Client.inSession] at h, fun _ => trivial⟩

/-! ### What the other clients see -/

theorem touches_keyMachine {o : KeyOp} (ho : keyMachine.isWrite o = true) :
    keyMachine.touches o () = true := by
  cases o with
  | get => cases ho
  | set v => rfl

theorem Guards.frame {st st' : Server ι ℕ Unit KeyOp (Option Bytes)} {c n : ℕ}
    (h : Guards (st.conns c) st.log n) (hf : Server.Frame keyMachine st st' c) :
    Guards (st'.conns c) st'.log n := by
  obtain ⟨l, hl, hd⟩ := hf.log
  refine ⟨hf.watched ▸ h.1, fun hclean => ?_⟩
  obtain ⟨hclean', hmiss⟩ := hd hclean
  have hnil : l = [] := by
    -- a write would have touched the watch
    refine eq_nil_iff_forall_not_mem.2 fun x hx => ?_
    obtain ⟨hw, hany⟩ := hmiss x hx
    exact absurd (any_eq_true.2 ⟨(), h.1, touches_keyMachine hw⟩) (by simp [hany])
  rw [hl, hnil, append_nil]
  exact h.2 hclean'

theorem Committed.append {log : List (ι × KeyOp)} {i : ι} {cl : Client} (h : Committed log i cl)
    (l : List (ι × KeyOp)) : Committed (log ++ l) i cl := by
  have hlt := (List.getElem?_eq_some_iff.1 h.1).1
  refine ⟨by rw [getElem?_append_left hlt, h.1], fun j x h₁ h₂ hx => ?_⟩
  rw [getElem?_append_left (h₂.trans hlt)] at hx
  exact h.2 j x h₁ h₂ hx

theorem ClientInv.frame {net net' : KeyNet ι} {i : ι} {cl : Client} (h : ClientInv net i cl)
    (hlog : ∃ l, net'.server.log = net.server.log ++ l)
    (hf : cl.inSession = true → Net.Frame keyMachine net net' cl.conn) : ClientInv net' i cl := by
  obtain ⟨pc, lock, conn, value, readAt, commitAt⟩ := cl
  cases pc with
  | idle => trivial
  | sending p call =>
    obtain ⟨hframe, hopen⟩ := hf rfl
    cases p with
    | get => exact ⟨h.1, fun ho => hframe.watched ▸ h.2 (hopen ▸ ho)⟩
    | multi => exact ⟨h.1, fun ho => (h.2 (hopen ▸ ho)).frame hframe⟩
    | set =>
      refine ⟨h.1, fun q hq => ?_⟩
      obtain ⟨hnil, hg⟩ := h.2 q (hframe.queue ▸ hq)
      exact ⟨hnil, hg.frame hframe⟩
    | exec =>
      refine ⟨h.1, fun q hq => ?_⟩
      obtain ⟨hnil, hg⟩ := h.2 q (hframe.queue ▸ hq)
      exact ⟨hnil, hg.frame hframe⟩
    | _ => trivial
  | held =>
    obtain ⟨hframe, hopen⟩ := hf rfl
    exact ⟨h.1, fun ho => (h.2 (hopen ▸ ho)).frame hframe⟩
  | returned ok =>
    cases ok with
    | false => trivial
    | true =>
      obtain ⟨l, hl⟩ := hlog
      have hc : Committed net'.server.log i _ := hl.symm ▸ Committed.append h l
      exact hc

theorem ClientInv.drop {net : KeyNet ι} {i : ι} {cl : Client} (h : ClientInv net i cl) (c : ℕ) :
    ClientInv (net.drop c) i cl := by
  rcases eq_or_ne cl.conn c with rfl | hne
  · have hopen : (net.drop cl.conn).opened cl.conn = false := by simp [Net.drop]
    have hqueue : ((net.drop cl.conn).server.conns cl.conn).queue = none := by
      simp [Net.drop, Server.close]
    obtain ⟨pc, lock, conn, value, readAt, commitAt⟩ := cl
    cases pc with
    | idle => trivial
    | sending p call =>
      cases p with
      | get => exact ⟨h.1, fun ho => absurd (ho.symm.trans hopen) (by decide)⟩
      | multi => exact ⟨h.1, fun ho => absurd (ho.symm.trans hopen) (by decide)⟩
      | set => exact ⟨h.1, fun q hq => absurd (hq.symm.trans hqueue) (by simp)⟩
      | exec => exact ⟨h.1, fun q hq => absurd (hq.symm.trans hqueue) (by simp)⟩
      | _ => trivial
    | held => exact ⟨h.1, fun ho => absurd (ho.symm.trans hopen) (by decide)⟩
    | returned ok =>
      cases ok with
      | false => trivial
      | true => exact h
  · exact h.frame ⟨[], by simp [Net.drop, Server.close]⟩ fun _ => Net.drop_frame keyMachine hne net

theorem sent_frame {net net' : KeyNet ι} {i : ι} {c : ℕ} {req : Request Unit KeyOp} {fate : Fate}
    {d : Delivery KeyResult Bytes RedisReplyType}
    (h : net.send keyMachine i c req fate = some (net', d)) :
    (∃ l, net'.server.log = net.server.log ++ l) ∧
      ∀ c', c' ≠ c → Net.Frame keyMachine net net' c' := by
  obtain ⟨l, hl, -⟩ := Net.send_log h
  exact ⟨⟨l, hl⟩, fun _ hne => Net.send_frame h hne⟩

/-! ### Replies -/

theorem afterSend_locked {load : Bytes → Bool} {lock : Bytes} (hlock : lock ≠ []) (call : Call)
    (clusterId : Bytes) (baks : List Bytes) (p : Phase) (ok : Bool) (info : RedisReplyInfo) :
    ∃ ret free, afterSend load lock call clusterId baks p ok info = .ret ret lock free ∧
      (ret = true → ok = true ∧ p.parse load info = .accepted) := by
  cases ok with
  | false => exact ⟨false, false, by simp [afterSend, hlock], by simp⟩
  | true =>
    cases hp : p.parse load info with
    | failed => exact ⟨false, false, by simp [afterSend, afterParse, hp], by simp⟩
    | accepted =>
      refine ⟨true, decide (p.request [] = .unwatch) && decide (info.resultString ≠ ascii "OK"),
        ?_, by simp⟩
      unfold afterSend
      rw [if_pos rfl, hp, afterParse, if_neg hlock]
    | redirect target =>
      refine ⟨false, decide (p.request [] = .unwatch) && decide (info.resultString ≠ ascii "OK"),
        ?_, by simp⟩
      unfold afterSend
      rw [if_pos rfl, hp, afterParse, if_pos hlock]

def Phase.check (load : Bytes → Bool) : Phase → RedisReplyInfo → Bool
  | .get => isLoaded load
  | .exec => isExecuted
  | _ => isStatus

theorem Phase.parse_eq (load : Bytes → Bool) (p : Phase) :
    p.parse load = parseReply (p.check load) := by
  cases p <;> rfl

theorem Phase.check_of_accepted {load : Bytes → Bool} {p : Phase} {info : RedisReplyInfo}
    (h : p.parse load info = .accepted) : p.check load info = true := by
  rw [Phase.parse_eq, parseReply] at h
  split at h
  · cases h
  · split at h
    · assumption
    · cases h

theorem Phase.redirect_of_parse {load : Bytes → Bool} {p : Phase} {info : RedisReplyInfo}
    {target : Bytes} (h : p.parse load info = .redirect target) :
    checkIfNeedRedirect info = some target := by
  rw [Phase.parse_eq, parseReply] at h
  cases hred : checkIfNeedRedirect info with
  | some t => simpa [hred] using h
  | none =>
    rw [hred] at h
    cases hc : p.check load info <;> simp [hc] at h

theorem Phase.parse_error {load : Bytes → Bool} {p : Phase} {info : RedisReplyInfo}
    (h : info.replyType = .error) : p.parse load info ≠ .accepted := by
  intro hp
  have := Phase.check_of_accepted hp
  cases p <;> simp [Phase.check, isLoaded, isStatus, isExecuted, h] at this

theorem send_accepted {load : Bytes → Bool} {i : ι} {c : ℕ} {req : Request Unit KeyOp}
    {net net' : KeyNet ι} {fate : Fate} {d : Delivery KeyResult Bytes RedisReplyType} {p : Phase}
    (h : net.send keyMachine i c req fate = some (net', d)) (hok : (received keyReplies d).1 = true)
    (hp : p.parse load (received keyReplies d).2 = .accepted) :
    fate = .delivered ∧ net'.server = (net.server.serve keyMachine i c req).1 ∧
      (received keyReplies d).2 = answerInfo keyReplies (net.server.serve keyMachine i c req).2 := by
  rcases Net.send_cases h with ⟨hf, hst, -, rfl⟩ | ⟨text, -, -, -, rfl⟩ | ⟨-, -, rfl | ⟨type, rfl⟩, -⟩
  · exact ⟨hf, hst, rfl⟩
  · exact absurd hp (Phase.parse_error rfl)
  · cases hok
  · cases hok

/-! ### The client that sends -/

section Accepted

variable {load : Bytes → Bool} {st : Server ι ℕ Unit KeyOp (Option Bytes)} {i : ι} {c : ℕ}

theorem watched_of_accepted
    (h : Phase.watch.parse load (answerInfo keyReplies (st.serve keyMachine i c (.watch ())).2) = .accepted) :
    () ∈ ((st.serve keyMachine i c (.watch ())).1.conns c).watched := by
  have hcheck := Phase.check_of_accepted h
  simp only [Server.serve] at hcheck ⊢
  split at hcheck
  · simp [Phase.check, isStatus, answerInfo, errorInfo] at hcheck
  · simp

theorem unchanged_of_accepted
    (h : Phase.get.parse load (answerInfo keyReplies (st.serve keyMachine i c (.op .get)).2) = .accepted) :
    (st.serve keyMachine i c (.op .get)).1.conns c = st.conns c ∧
      (st.serve keyMachine i c (.op .get)).1.log = st.log := by
  have hcheck := Phase.check_of_accepted h
  simp only [Server.serve] at hcheck ⊢
  split at hcheck
  · simp [Phase.check, isLoaded, answerInfo] at hcheck
  · refine ⟨?_, rfl⟩
    simp [Server.runOp, Conn.touch, keyMachine]

theorem opened_of_accepted
    (h : Phase.multi.parse load (answerInfo keyReplies (st.serve keyMachine i c .multi).2) = .accepted) :
    (st.serve keyMachine i c .multi).1.conns c = { st.conns c with queue := some [] } ∧
      (st.serve keyMachine i c .multi).1.log = st.log := by
  have hcheck := Phase.check_of_accepted h
  simp only [Server.serve] at hcheck ⊢
  split at hcheck
  · simp [Phase.check, isStatus, answerInfo, errorInfo] at hcheck
  · simp

theorem queue_set (value : Bytes) :
    (∃ q, (st.conns c).queue = some q ∧
      (st.serve keyMachine i c (.op (.set value))).1.conns c =
        { st.conns c with queue := some (q ++ [.op (.set value)]) } ∧
      (st.serve keyMachine i c (.op (.set value))).1.log = st.log) ∨
    ((st.serve keyMachine i c (.op (.set value))).1.conns c).queue = none := by
  simp only [Server.serve]
  split
  · rename_i q hq
    exact Or.inl ⟨q, hq, by simp, rfl⟩
  · rename_i hq
    refine Or.inr ?_
    simp only [Server.runOp, Conn.touch]
    split <;> exact hq

theorem executed_of_accepted
    (h : Phase.exec.parse load (answerInfo keyReplies (st.serve keyMachine i c .exec).2) = .accepted) :
    ∃ q, (st.conns c).queue = some q ∧ (st.conns c).dirtyCas = false ∧
      (st.serve keyMachine i c .exec).1.log = (st.runQueue keyMachine i q).1.log := by
  have hcheck := Phase.check_of_accepted h
  rcases Server.serve_exec keyMachine i c st with ⟨-, hans⟩ | ⟨q, hq, -, hclean, hserve⟩
  · rcases hans with hans | hans | hans <;> rw [hans] at hcheck <;> cases hcheck
  · exact ⟨q, hq, hclean, by rw [hserve]; rfl⟩

end Accepted

def CallStep.client (cm : ClusterMap) (cl : Client) (p : Phase) : CallStep → Client
  | .again call _ => { cl with pc := .sending p call }
  | .ret ok lock _ => onReturn cm { cl with lock := lock } p ok

theorem checkIfNeedRedirect_answerInfo (ans : Answer KeyResult) :
    checkIfNeedRedirect (answerInfo keyReplies ans) = none := by
  cases ans with
  | result r =>
    cases r with
    | stored => simp [checkIfNeedRedirect, answerInfo, keyReplies]
    | value v => cases v <;> simp [checkIfNeedRedirect, answerInfo, keyReplies]
  | results rs => simp [checkIfNeedRedirect, answerInfo, keyReplies]
  | _ => decide

theorem checkIfNeedRedirect_lost (type : RedisReplyType) :
    checkIfNeedRedirect { replyType := type } = none := by
  simp [checkIfNeedRedirect]

section Send

variable {cm : ClusterMap} {load : Bytes → Bool} {net net' : KeyNet ι} {i : ι} {cl : Client}
  {call : Call} {clusterId : Bytes} {baks : List Bytes} {fate : Fate}
  {d : Delivery KeyResult Bytes RedisReplyType}

def afterDelivery (cm : ClusterMap) (load : Bytes → Bool) (cl : Client) (call : Call)
    (clusterId : Bytes) (baks : List Bytes) (p : Phase) (fate : Fate) (n : ℕ)
    (d : Delivery KeyResult Bytes RedisReplyType) : Client :=
  (afterSend load cl.lock call clusterId baks p (received keyReplies d).1 (received keyReplies d).2).client cm
    (cl.mark p fate n) p

theorem afterDelivery_locked (P : Client → Prop) {p : Phase} {n : ℕ} (hlock : cl.lock ≠ [])
    (hfalse : P (onReturn cm (cl.mark p fate n) p false))
    (htrue : (received keyReplies d).1 = true → p.parse load (received keyReplies d).2 = .accepted →
      P (onReturn cm (cl.mark p fate n) p true)) :
    P (afterDelivery cm load cl call clusterId baks p fate n d) := by
  obtain ⟨ret, free, heq, hret⟩ :=
    @afterSend_locked load cl.lock hlock call clusterId baks p (received keyReplies d).1 (received keyReplies d).2
  have hmark : { cl.mark p fate n with lock := cl.lock } = cl.mark p fate n := by
    cases p <;> cases fate <;> rfl
  rw [afterDelivery, heq, CallStep.client, hmark]
  cases ret with
  | false => exact hfalse
  | true => exact htrue (hret rfl).1 (hret rfl).2

theorem send_watch {n : ℕ} (hfind : cm.find clusterId = some baks) (hsteady : ¬ repeats fate call)
    (h : net.send keyMachine i cl.conn (.watch ()) fate = some (net', d)) :
    ClientInv net' i (afterDelivery cm load cl call clusterId baks .watch fate n d) := by
  have hid : clusterId ≠ [] := by
    rintro rfl
    rw [cm.find_nil] at hfind
    cases hfind
  have hmark : cl.mark .watch fate n = cl := by cases fate <;> rfl
  have haccepted : (received keyReplies d).1 = true → Phase.watch.parse load (received keyReplies d).2 = .accepted →
      () ∈ (net'.server.conns cl.conn).watched := by
    intro hok hp
    obtain ⟨-, hst, hinfo⟩ := send_accepted h hok hp
    rw [hst]
    exact watched_of_accepted (hinfo ▸ hp)
  by_cases hlock : cl.lock ≠ []
  · refine afterDelivery_locked (ClientInv net' i) hlock trivial fun hok hp => ?_
    rw [hmark]
    exact ⟨hlock, fun _ => haccepted hok hp⟩
  · rw [not_not] at hlock
    rw [afterDelivery, hmark]
    unfold afterSend
    rcases Net.send_cases h with ⟨rfl, -, -, rfl⟩ | ⟨text, rfl, -, -, rfl⟩ | ⟨-, hclosed, hd, -⟩
    · -- answered: no answer is a redirection
      rw [if_pos (show (received keyReplies (.answered _)).1 = true from rfl)]
      cases hp : Phase.watch.parse load
          (received keyReplies (.answered (net.server.serve keyMachine i cl.conn (.watch ())).2)).2 with
      | failed => exact trivial
      | accepted =>
        rw [afterParse, if_pos hlock]
        exact ⟨hid, fun _ => haccepted rfl hp⟩
      | redirect target =>
        have hred := Phase.redirect_of_parse hp
        rw [received, checkIfNeedRedirect_answerInfo] at hred
        cases hred
    · -- refused: in a steady run a redirection is a new one
      rw [if_pos (show (received keyReplies (.refused text)).1 = true from rfl)]
      cases hp : Phase.watch.parse load (received keyReplies (.refused text)).2 with
      | failed => exact trivial
      | accepted => exact absurd hp (Phase.parse_error rfl)
      | redirect target =>
        have hnew : target ∉ call.redirects := by
          intro hmem
          refine hsteady (any_eq_true.2 ⟨target, hmem, ?_⟩)
          simpa [received] using Phase.redirect_of_parse hp
        rw [afterParse, if_neg (not_not.2 hlock), if_neg hnew]
        exact trivial
    · -- no reply: whatever the client makes of it, the connection is closed
      obtain ⟨type, hrec⟩ : ∃ type, received keyReplies d = (false, { replyType := type }) := by
        rcases hd with rfl | ⟨type, rfl⟩
        · exact ⟨.unknown, rfl⟩
        · exact ⟨type, rfl⟩
      rw [hrec, if_neg Bool.false_ne_true, if_neg (not_not.2 hlock)]
      cases baks with
      | cons b baks => exact trivial
      | nil =>
        cases hp : Phase.watch.parse load { replyType := type } with
        | failed => exact trivial
        | accepted =>
          rw [afterParse, if_pos hlock]
          exact ⟨hid, fun hopen => absurd (hopen.symm.trans hclosed) (by decide)⟩
        | redirect target =>
          have hred := Phase.redirect_of_parse hp
          rw [checkIfNeedRedirect_lost] at hred
          cases hred

theorem send_get (hinv : cl.lock ≠ [] ∧ (net.opened cl.conn = true →
      () ∈ (net.server.conns cl.conn).watched))
    (hsteady : net.opened cl.conn = true ∨ fate = .connectFailed)
    (h : net.send keyMachine i cl.conn (.op .get) fate = some (net', d)) :
    ClientInv net' i
      (afterDelivery cm load cl call clusterId baks .get fate net.server.log.length d) := by
  refine afterDelivery_locked (ClientInv net' i) hinv.1 trivial fun hok hp => ?_
  obtain ⟨rfl, hst, hinfo⟩ := send_accepted h hok hp
  obtain ⟨hconn, hlog⟩ := unchanged_of_accepted (hinfo ▸ hp)
  have hopen : net.opened cl.conn = true := hsteady.resolve_right (by simp)
  refine ⟨hinv.1, fun _ => ?_⟩
  have hconn' : net'.server.conns cl.conn = net.server.conns cl.conn := by rw [hst, hconn]
  refine ⟨hconn'.symm ▸ hinv.2 hopen, fun _ => ?_⟩
  rw [hst, hlog]
  rfl

theorem send_multi {n : ℕ} (hinv : cl.lock ≠ [] ∧ (net.opened cl.conn = true →
      Guards (net.server.conns cl.conn) net.server.log cl.readAt))
    (hsteady : net.opened cl.conn = true ∨ fate = .connectFailed)
    (h : net.send keyMachine i cl.conn .multi fate = some (net', d)) :
    ClientInv net' i (afterDelivery cm load cl call clusterId baks .multi fate n d) := by
  refine afterDelivery_locked (ClientInv net' i) hinv.1 trivial fun hok hp => ?_
  obtain ⟨rfl, hst, hinfo⟩ := send_accepted h hok hp
  obtain ⟨hconn, hlog⟩ := opened_of_accepted (hinfo ▸ hp)
  have hopen : net.opened cl.conn = true := hsteady.resolve_right (by simp)
  have hconn' : net'.server.conns cl.conn = { net.server.conns cl.conn with queue := some [] } := by
    rw [hst, hconn]
  have hguards : Guards (net'.server.conns cl.conn) net'.server.log cl.readAt := by
    rw [hconn', hst, hlog]
    exact hinv.2 hopen
  refine ⟨hinv.1, fun q hq => ⟨?_, hguards⟩⟩
  have hq' : (net'.server.conns cl.conn).queue = some q := hq
  rw [hconn'] at hq'
  exact (some.inj hq').symm

theorem send_set {n : ℕ} (hinv : cl.lock ≠ [] ∧ ∀ q, (net.server.conns cl.conn).queue = some q →
      q = [] ∧ Guards (net.server.conns cl.conn) net.server.log cl.readAt)
    (h : net.send keyMachine i cl.conn (.op (.set cl.value)) fate = some (net', d)) :
    ClientInv net' i (afterDelivery cm load cl call clusterId baks .set fate n d) := by
  refine afterDelivery_locked (ClientInv net' i) hinv.1 trivial fun hok hp => ?_
  obtain ⟨rfl, hst, -⟩ := send_accepted h hok hp
  refine ⟨hinv.1, fun q' hq' => ?_⟩
  have hq'' : (net'.server.conns cl.conn).queue = some q' := hq'
  rw [hst] at hq''
  rcases @queue_set ι net.server i cl.conn cl.value with ⟨q, hq, hconn, hlog⟩ | hnone
  · -- the set has joined the empty transaction
    obtain ⟨rfl, hg⟩ := hinv.2 q hq
    have hconn' : net'.server.conns cl.conn =
        { net.server.conns cl.conn with queue := some [.op (.set cl.value)] } := by
      rw [hst, hconn]
      rfl
    have hguards : Guards (net'.server.conns cl.conn) net'.server.log cl.readAt := by
      rw [hconn', hst, hlog]
      exact hg
    rw [hconn] at hq''
    exact ⟨(some.inj hq'').symm, hguards⟩
  · rw [hnone] at hq''
    cases hq''

theorem send_exec (hinv : cl.lock ≠ [] ∧ ∀ q, (net.server.conns cl.conn).queue = some q →
      q = [.op (.set cl.value)] ∧ Guards (net.server.conns cl.conn) net.server.log cl.readAt)
    (h : net.send keyMachine i cl.conn .exec fate = some (net', d)) :
    ClientInv net' i
      (afterDelivery cm load cl call clusterId baks .exec fate net.server.log.length d) := by
  refine afterDelivery_locked (ClientInv net' i) hinv.1 trivial fun hok hp => ?_
  obtain ⟨rfl, hst, hinfo⟩ := send_accepted h hok hp
  obtain ⟨q, hq, hclean, hlog⟩ := executed_of_accepted (hinfo ▸ hp)
  obtain ⟨rfl, hg⟩ := hinv.2 q hq
  have hread : net.server.log.length = cl.readAt := hg.2 hclean
  have hlog' : net'.server.log = net.server.log ++ [(i, .set cl.value)] := by
    rw [hst, hlog]
    rfl
  have hc : Committed net'.server.log i { cl with commitAt := net.server.log.length } := by
    refine ⟨by rw [hlog']; simp, fun j x h₁ h₂ _ => ?_⟩
    -- nothing lies between the read and the commit
    have h₁' : cl.readAt ≤ j := h₁
    have h₂' : j < net.server.log.length := h₂
    omega
  exact hc

end Send

/-! ### The step of the system -/

theorem send_inv (cm : ClusterMap) (load : Bytes → Bool) {σ : System ι} {net : KeyNet ι} {i : ι}
    {p : Phase} {call : Call} {clusterId : Bytes} {baks : List Bytes} {fate : Fate}
    {d : Delivery KeyResult Bytes RedisReplyType} (hpc : (σ.client i).pc = .sending p call)
    (hinv : ClientInv σ.net i (σ.client i)) (hfind : cm.find clusterId = some baks)
    (hsteady : Steady σ (.send i fate))
    (h : σ.net.send keyMachine i (σ.client i).conn (p.request (σ.client i).value) fate =
      some (net, d)) :
    ClientInv net i (afterDelivery cm load (σ.client i) call clusterId baks p fate
      σ.net.server.log.length d) := by
  simp only [Steady, hpc] at hsteady
  simp only [ClientInv, hpc] at hinv
  have hunwatch : ∀ q : Phase, (∀ cl : Client, ∀ ok, ClientInv net i (onReturn cm cl q ok)) →
      (∀ cl : Client, ∀ call, ClientInv net i { cl with pc := .sending q call }) →
      ClientInv net i (afterDelivery cm load (σ.client i) call clusterId baks q fate
        σ.net.server.log.length d) := by
    intro q hret hagain
    unfold afterDelivery
    cases afterSend load (σ.client i).lock call clusterId baks q (received keyReplies d).1
      (received keyReplies d).2 with
    | again call' free => exact hagain _ _
    | ret ok lock free => exact hret _ _
  cases p with
  | watch => exact send_watch hfind hsteady h
  | get => exact send_get hinv hsteady h
  | multi => exact send_multi hinv hsteady h
  | set => exact send_set hinv h
  | exec => exact send_exec hinv h
  | getUnwatch => exact hunwatch .getUnwatch (fun _ _ => trivial) fun _ _ => trivial
  | setUnwatch => exact hunwatch .setUnwatch (fun _ _ => trivial) fun _ _ => trivial
  | releaseUnwatch => exact hunwatch .releaseUnwatch (fun _ _ => trivial) fun _ _ => trivial

variable [DecidableEq ι]

theorem Inv.update {σ : System ι} (h : Inv σ) (i : ι) (cl : Client) (net : KeyNet ι)
    (hlog : ∃ l, net.server.log = σ.net.server.log ++ l)
    (hframe : ∀ j, j ≠ i → (σ.client j).inSession = true →
      Net.Frame keyMachine σ.net net (σ.client j).conn ∧
        (cl.inSession = true → (σ.client j).conn ≠ cl.conn))
    (hown : ClientInv net i cl) : Inv (System.setClient { σ with net := net } i cl) := by
  have hi : (System.setClient { σ with net := net } i cl).client i = cl := by
    simp [System.setClient]
  have hne : ∀ j, j ≠ i → (System.setClient { σ with net := net } i cl).client j = σ.client j := by
    intro j hj
    simp [System.setClient, hj]
  constructor
  · intro j k hjk hj hk
    rcases eq_or_ne j i with rfl | hji
    · rw [hi] at hj
      rw [hne k hjk.symm] at hk
      rw [hi, hne k hjk.symm]
      exact ((hframe k hjk.symm hk).2 hj).symm
    · rw [hne j hji] at hj
      rw [hne j hji]
      rcases eq_or_ne k i with rfl | hki
      · rw [hi] at hk
        rw [hi]
        exact (hframe j hji hj).2 hk
      · rw [hne k hki] at hk
        rw [hne k hki]
        exact h.apart j k hjk hj hk
  · intro j
    rcases eq_or_ne j i with rfl | hji
    · rw [hi]
      exact hown
    · rw [hne j hji]
      exact (h.client j).frame hlog fun hs => (hframe j hji hs).1

theorem Inv.move {σ : System ι} (h : Inv σ) (i : ι) (cl : Client)
    (hconn : cl.inSession = true → (σ.client i).inSession = true ∧ cl.conn = (σ.client i).conn)
    (hown : ClientInv σ.net i cl) : Inv (σ.setClient i cl) := by
  refine h.update i cl σ.net ⟨[], by simp⟩
    (fun j hj hs => ⟨⟨Server.Frame.refl keyMachine _ _, rfl⟩, ?_⟩) hown
  intro hcl
  obtain ⟨hold, heq⟩ := hconn hcl
  rw [heq]
  exact h.apart j i hj hs hold

theorem CallStep.conn_client (cm : ClusterMap) (cl : Client) (p : Phase) (cs : CallStep) :
    (cs.client cm cl p).conn = cl.conn := by
  cases cs with
  | again call free => rfl
  | ret ok lock free => cases p <;> cases ok <;> rfl

theorem conn_mark (cl : Client) (p : Phase) (fate : Fate) (n : ℕ) :
    (cl.mark p fate n).conn = cl.conn := by
  unfold Client.mark
  split <;> rfl

def CallStep.free : CallStep → Bool
  | .again _ free => free
  | .ret _ _ free => free

theorem System.settle_eq (cm : ClusterMap) (σ : System ι) (i : ι) (cl : Client) (p : Phase)
    (cs : CallStep) : σ.settle cm i cl p cs =
      System.setClient { σ with net := if cs.free then σ.net.drop cl.conn else σ.net } i
        (cs.client cm cl p) := by
  cases cs with
  | again call free => cases free <;> rfl
  | ret ok lock free => cases free <;> rfl

variable [Fintype ι]

theorem step_send {cm : ClusterMap} {load : Bytes → Bool} {σ σ' : System ι} {i : ι} {fate : Fate}
    (h : Inv σ) (hsteady : Steady σ (.send i fate))
    (hstep : step cm load σ (.send i fate) = some σ') : Inv σ' := by
  simp only [step] at hstep
  split at hstep
  · rename_i p call hpc
    split at hstep
    · cases hstep
    · rename_i clusterId _
      split at hstep
      · cases hstep
      · rename_i baks hfind
        obtain ⟨⟨net, d⟩, hsend, rfl⟩ := map_eq_some_iff.1 hstep
        obtain ⟨hlog, hframe⟩ := sent_frame hsend
        have hin : (σ.client i).inSession = true := by simp [Client.inSession, hpc]
        have hother : ∀ j, j ≠ i → (σ.client j).inSession = true →
            (σ.client j).conn ≠ (σ.client i).conn := fun j hj hs => h.apart j i hj hs hin
        have hown := send_inv cm load hpc (h.client i) hfind hsteady hsend
        rw [System.settle_eq]
        dsimp only
        split
        · -- the connection has been freed
          refine h.update i _ _ (by simpa [Net.drop, Server.close] using hlog)
            (fun j hj hs => ⟨?_, fun _ => ?_⟩) (hown.drop _)
          · rw [conn_mark]
            exact Net.Frame.trans (hframe _ (hother j hj hs)) (Net.drop_frame keyMachine (hother j hj hs) net)
          · rw [CallStep.conn_client, conn_mark]
            exact hother j hj hs
        · refine h.update i _ _ hlog (fun j hj hs => ⟨hframe _ (hother j hj hs), fun _ => ?_⟩) hown
          rw [CallStep.conn_client, conn_mark]
          exact hother j hj hs
  · cases hstep

theorem step_inv {cm : ClusterMap} {load : Bytes → Bool} (σ : System ι) (e : Event ι) (σ' : System ι)
    (h : Inv σ) (hsteady : Steady σ e) (hstep : step cm load σ e = some σ') : Inv σ' := by
  cases e with
  | start i c =>
    simp only [step] at hstep
    split at hstep
    · rename_i hc
      cases hstep
      refine h.update i _ σ.net ⟨[], by simp⟩
        (fun j hj hs => ⟨⟨Server.Frame.refl keyMachine _ _, rfl⟩, ?_⟩) trivial
      exact fun _ => hc.2 j hs
    · cases hstep
  | send i fate => exact step_send h hsteady hstep
  | lookupFails i =>
    simp only [step] at hstep
    split at hstep
    · rename_i p call hpc
      split at hstep
      · cases hstep
        refine h.move i _ (fun _ => ⟨by simp [Client.inSession, hpc], ?_⟩) ?_
        · cases p <;> rfl
        · cases p <;> trivial
      · cases hstep
    · cases hstep
  | setSerialWithLock i value =>
    simp only [step] at hstep
    split at hstep
    · rename_i hpc
      cases hstep
      have hinv := h.client i
      simp only [ClientInv, hpc] at hinv
      exact h.move i _ (fun _ => ⟨by simp [Client.inSession, hpc], rfl⟩) hinv
    · cases hstep
  | releaseLock i =>
    simp only [step] at hstep
    split at hstep
    · rename_i hpc
      split at hstep
      · cases hstep
        exact h
      · cases hstep
        exact h.move i _ (fun _ => ⟨by simp [Client.inSession, hpc], rfl⟩) trivial
    · cases hstep
  | pickUp i =>
    simp only [step] at hstep
    split at hstep
    · cases hstep
      exact h.move i _ (fun hs => by simp [Client.inSession] at hs) trivial
    · cases hstep
  | drop c =>
    cases hstep
    exact ⟨h.apart, fun i => (h.client i).drop c⟩

def oneNode : ClusterMap where
  bySlot := some (ascii "node")
  find := fun id => if id = ascii "node" then some [] else none
  find_nil := by decide

def readSession (i : Bool) (c : ℕ) : List (Event Bool) :=
  [.start i c, .send i .delivered, .send i .delivered]

def writeSession (i : Bool) (value : Bytes) : List (Event Bool) :=
  [.setSerialWithLock i value, .send i .delivered, .send i .delivered, .send i .delivered]

end Norah
