/-
**A server with optimistic transactions.**

A transaction is not executed if a watched key has been touched since, or if an operation was refused while it was
queued.  All of this is state of the *connection*.  The store is a parameter, a `Machine`; the log of the executed
writes is kept for the sake of statements about their order.
-/

import Mathlib.Tactic

set_option autoImplicit false

namespace TxServer

open List Option Function

structure Machine (K O S R : Type*) where
  run : O → S → S × R
  isWrite : O → Bool
  touches : O → K → Bool

inductive Queued (O : Type*) where
  | op (o : O)
  | unwatch
  deriving DecidableEq, Repr

structure Conn (K O : Type*) where
  watched : List K := []
  dirtyCas : Bool := false
  dirtyExec : Bool := false
  queue : Option (List (Queued O)) := none
  deriving DecidableEq, Repr

structure Server (A C K O S : Type*) where
  store : S
  conns : C → Conn K O
  log : List (A × O)

inductive Request (K O : Type*) where
  | op (o : O)
  | watch (k : K)
  | unwatch
  | multi
  | exec
  deriving DecidableEq, Repr

inductive Answer (R : Type*) where
  | ok
  | queued
  | result (r : R)
  | results (rs : List (Option R))
  | nil
  | nested
  | execWithoutMulti
  | watchInMulti
  | execAbort
  deriving DecidableEq, Repr

variable {A C K O S R : Type*}

def Conn.touch (m : Machine K O S R) (o : O) (κ : Conn K O) : Conn K O :=
  if m.isWrite o && κ.watched.any (m.touches o) then { κ with dirtyCas := true } else κ

namespace Server

def runOp (m : Machine K O S R) (a : A) (st : Server A C K O S) (o : O) :
    Server A C K O S × R :=
  let (s, r) := m.run o st.store
  ({ store := s
     conns := fun c => (st.conns c).touch m o
     log := if m.isWrite o then st.log ++ [(a, o)] else st.log }, r)

def runQueue (m : Machine K O S R) (a : A) (st : Server A C K O S) :
    List (Queued O) → Server A C K O S × List (Option R)
  | [] => (st, [])
  | .op o :: q =>
    let (st₁, r) := st.runOp m a o
    let (st₂, rs) := st₁.runQueue m a q
    (st₂, some r :: rs)
  | .unwatch :: q =>
    let (st₂, rs) := st.runQueue m a q
    (st₂, none :: rs)

def setConn [DecidableEq C] (st : Server A C K O S) (c : C) (κ : Conn K O) : Server A C K O S :=
  { st with conns := update st.conns c κ }

def serve [DecidableEq C] (m : Machine K O S R) (a : A) (c : C) (st : Server A C K O S) :
    Request K O → Server A C K O S × Answer R
  | .op o =>
    match (st.conns c).queue with
    | some q => (st.setConn c { st.conns c with queue := some (q ++ [.op o]) }, .queued)
    | none => let (st', r) := st.runOp m a o; (st', .result r)
  | .watch k =>
    match (st.conns c).queue with
    | some _ => (st, .watchInMulti)
    | none => (st.setConn c { st.conns c with watched := k :: (st.conns c).watched }, .ok)
  | .unwatch =>
    match (st.conns c).queue with
    | some q => (st.setConn c { st.conns c with queue := some (q ++ [.unwatch]) }, .queued)
    | none => (st.setConn c { st.conns c with watched := [], dirtyCas := false }, .ok)
  | .multi =>
    match (st.conns c).queue with
    | some _ => (st, .nested)
    | none => (st.setConn c { st.conns c with queue := some [] }, .ok)
  | .exec =>
    match (st.conns c).queue with
    | none => (st, .execWithoutMulti)
    | some q =>
      if (st.conns c).dirtyExec then (st.setConn c {}, .execAbort)
      else if (st.conns c).dirtyCas then (st.setConn c {}, .nil)
      else let (st', rs) := st.runQueue m a q; (st'.setConn c {}, .results rs)

def refuse [DecidableEq C] (c : C) (st : Server A C K O S) : Request K O → Server A C K O S
  | .op _ | .unwatch =>
    if (st.conns c).queue.isSome then st.setConn c { st.conns c with dirtyExec := true } else st
  | _ => st

def close [DecidableEq C] (c : C) (st : Server A C K O S) : Server A C K O S := st.setConn c {}

/-! ### Other connections -/

variable {m : Machine K O S R}

structure Frame (m : Machine K O S R) (st st' : Server A C K O S) (c : C) : Prop where
  watched : (st'.conns c).watched = (st.conns c).watched
  queue : (st'.conns c).queue = (st.conns c).queue
  dirtyExec : (st'.conns c).dirtyExec = (st.conns c).dirtyExec
  log : ∃ l, st'.log = st.log ++ l ∧
    ((st'.conns c).dirtyCas = false → (st.conns c).dirtyCas = false ∧
      ∀ x ∈ l, m.isWrite x.2 = true ∧ (st.conns c).watched.any (m.touches x.2) = false)

theorem Frame.refl (m : Machine K O S R) (st : Server A C K O S) (c : C) : Frame m st st c :=
  ⟨rfl, rfl, rfl, [], by simp, fun h => ⟨h, by simp⟩⟩

theorem Frame.trans {st₁ st₂ st₃ : Server A C K O S} {c : C} (h₁ : Frame m st₁ st₂ c)
    (h₂ : Frame m st₂ st₃ c) : Frame m st₁ st₃ c := by
  obtain ⟨l₁, hl₁, hd₁⟩ := h₁.log
  obtain ⟨l₂, hl₂, hd₂⟩ := h₂.log
  refine ⟨h₂.watched.trans h₁.watched, h₂.queue.trans h₁.queue, h₂.dirtyExec.trans h₁.dirtyExec,
    l₁ ++ l₂, by rw [hl₂, hl₁, append_assoc], fun hd => ?_⟩
  obtain ⟨hclean₂, hmiss₂⟩ := hd₂ hd
  obtain ⟨hclean₁, hmiss₁⟩ := hd₁ hclean₂
  refine ⟨hclean₁, fun x hx => ?_⟩
  rcases mem_append.1 hx with hx | hx
  · exact hmiss₁ x hx
  · exact h₁.watched ▸ hmiss₂ x hx

theorem runOp_frame (m : Machine K O S R) (a : A) (st : Server A C K O S) (o : O) (c : C) :
    Frame m st (st.runOp m a o).1 c := by
  have hconn : ((st.runOp m a o).1.conns c) = (st.conns c).touch m o := rfl
  have hlog : (st.runOp m a o).1.log = if m.isWrite o then st.log ++ [(a, o)] else st.log := rfl
  by_cases hw : m.isWrite o = true
  · refine ⟨?_, ?_, ?_, [(a, o)], by rw [hlog, if_pos hw], fun hd => ?_⟩
    · rw [hconn, Conn.touch]; split <;> rfl
    · rw [hconn, Conn.touch]; split <;> rfl
    · rw [hconn, Conn.touch]; split <;> rfl
    · -- a mark would have been set if the write touched a watch
      cases hany : (st.conns c).watched.any (m.touches o) with
      | true => simp [hconn, Conn.touch, hw, hany] at hd
      | false =>
        rw [hconn, Conn.touch, hany, Bool.and_false, if_neg Bool.false_ne_true] at hd
        exact ⟨hd, fun x hx => by rw [mem_singleton.1 hx]; exact ⟨hw, hany⟩⟩
  · have htouch : (st.conns c).touch m o = st.conns c := by
      rw [Conn.touch, if_neg (by simp [hw])]
    refine ⟨by rw [hconn, htouch], by rw [hconn, htouch], by rw [hconn, htouch], [], ?_,
      fun hd => ⟨?_, by simp⟩⟩
    · rw [hlog, if_neg hw, append_nil]
    · rwa [hconn, htouch] at hd

theorem runQueue_frame (m : Machine K O S R) (a : A) (q : List (Queued O))
    (st : Server A C K O S) (c : C) : Frame m st (st.runQueue m a q).1 c := by
  induction q generalizing st with
  | nil => exact Frame.refl m st c
  | cons x q ih =>
    cases x with
    | op o => exact (runOp_frame m a st o c).trans (ih _)
    | unwatch => exact ih st

theorem runQueue_op_log (m : Machine K O S R) (a : A) (os : List O) (st : Server A C K O S) :
    (st.runQueue m a (os.map .op)).1.log = st.log ++ (os.filter m.isWrite).map (Prod.mk a) := by
  induction os generalizing st with
  | nil => simp [runQueue]
  | cons o os ih =>
    rw [map_cons, runQueue]
    dsimp only
    rw [ih]
    by_cases hw : m.isWrite o = true
    · simp [runOp, hw]
    · simp [runOp, hw]

/-! ### The log -/

def LogGrows (a : A) (st st' : Server A C K O S) : Prop :=
  ∃ l, st'.log = st.log ++ l ∧ ∀ x ∈ l, x.1 = a

theorem LogGrows.of_eq (a : A) {st st' : Server A C K O S} (h : st'.log = st.log) :
    LogGrows a st st' :=
  ⟨[], by rw [h, append_nil], by simp⟩

theorem runOp_log (m : Machine K O S R) (a : A) (st : Server A C K O S) (o : O) :
    LogGrows a st (st.runOp m a o).1 := by
  by_cases hw : m.isWrite o = true
  · exact ⟨[(a, o)], by simp [runOp, hw], by simp⟩
  · exact ⟨[], by simp [runOp, hw], by simp⟩

theorem runQueue_log (m : Machine K O S R) (a : A) (q : List (Queued O))
    (st : Server A C K O S) : LogGrows a st (st.runQueue m a q).1 := by
  induction q generalizing st with
  | nil => exact .of_eq a rfl
  | cons x q ih =>
    cases x with
    | op o =>
      obtain ⟨l, hl, ha⟩ := runOp_log m a st o
      obtain ⟨l', hl', ha'⟩ := ih (st.runOp m a o).1
      refine ⟨l ++ l', by rw [runQueue, hl', hl, append_assoc], fun x hx => ?_⟩
      exact (mem_append.1 hx).elim (ha x) (ha' x)
    | unwatch => exact ih st

variable [DecidableEq C] {st : Server A C K O S}

@[simp] theorem setConn_log (st : Server A C K O S) (c : C) (κ : Conn K O) :
    (st.setConn c κ).log = st.log := rfl

@[simp] theorem setConn_conns_self (st : Server A C K O S) (c : C) (κ : Conn K O) :
    (st.setConn c κ).conns c = κ := by
  simp [setConn]

theorem setConn_conns_of_ne (st : Server A C K O S) {c c' : C} (κ : Conn K O) (h : c' ≠ c) :
    (st.setConn c κ).conns c' = st.conns c' := by
  simp [setConn, h]

theorem Frame.setConn {st' : Server A C K O S} {c c' : C} (h : Frame m st st' c') (κ : Conn K O)
    (hne : c' ≠ c) : Frame m st (st'.setConn c κ) c' := by
  have hc := setConn_conns_of_ne st' κ hne
  obtain ⟨l, hl, hd⟩ := h.log
  exact ⟨by rw [hc, h.watched], by rw [hc, h.queue], by rw [hc, h.dirtyExec], l, hl,
    fun hdirty => hd (by rwa [hc] at hdirty)⟩

theorem serve_frame (m : Machine K O S R) (a : A) {c c' : C} (hne : c' ≠ c)
    (st : Server A C K O S) (req : Request K O) : Frame m st (st.serve m a c req).1 c' := by
  cases req with
  | op o =>
    simp only [serve]
    split
    · exact (Frame.refl m st c').setConn _ hne
    · exact runOp_frame m a st o c'
  | watch k' =>
    simp only [serve]
    split
    · exact Frame.refl m st c'
    · exact (Frame.refl m st c').setConn _ hne
  | unwatch =>
    simp only [serve]
    split <;> exact (Frame.refl m st c').setConn _ hne
  | multi =>
    simp only [serve]
    split
    · exact Frame.refl m st c'
    · exact (Frame.refl m st c').setConn _ hne
  | exec =>
    simp only [serve]
    split
    · exact Frame.refl m st c'
    · rename_i q _
      split
      · exact (Frame.refl m st c').setConn _ hne
      · split
        · exact (Frame.refl m st c').setConn _ hne
        · exact (runQueue_frame m a q st c').setConn _ hne

theorem serve_log (m : Machine K O S R) (a : A) (c : C) (st : Server A C K O S)
    (req : Request K O) : LogGrows a st (st.serve m a c req).1 := by
  cases req with
  | op o =>
    simp only [serve]
    split
    · exact .of_eq a rfl
    · exact runOp_log m a st o
  | watch k =>
    simp only [serve]
    split <;> exact .of_eq a rfl
  | unwatch =>
    simp only [serve]
    split <;> exact .of_eq a rfl
  | multi =>
    simp only [serve]
    split <;> exact .of_eq a rfl
  | exec =>
    simp only [serve]
    split
    · exact .of_eq a rfl
    · rename_i q _
      split
      · exact .of_eq a rfl
      · split
        · exact .of_eq a rfl
        · exact runQueue_log m a q st

theorem serve_exec (m : Machine K O S R) (a : A) (c : C) (st : Server A C K O S) :
    ((st.serve m a c .exec).1.log = st.log ∧ ((st.serve m a c .exec).2 = .execWithoutMulti ∨
      (st.serve m a c .exec).2 = .execAbort ∨ (st.serve m a c .exec).2 = .nil)) ∨
    ∃ q, (st.conns c).queue = some q ∧ (st.conns c).dirtyExec = false ∧
      (st.conns c).dirtyCas = false ∧
      st.serve m a c .exec = ((st.runQueue m a q).1.setConn c {}, .results (st.runQueue m a q).2) := by
  cases hq : (st.conns c).queue with
  | none => exact .inl (by simp [serve, hq])
  | some q =>
    cases hexec : (st.conns c).dirtyExec with
    | true => exact .inl (by simp [serve, hq, hexec])
    | false =>
      cases hcas : (st.conns c).dirtyCas with
      | true => exact .inl (by simp [serve, hq, hexec, hcas])
      | false => exact .inr ⟨q, rfl, rfl, rfl, by simp [serve, hq, hexec, hcas]⟩

/-! ### The connection of a request -/

theorem serve_op_conn (m : Machine K O S R) (a : A) (c : C) (st : Server A C K O S) (o : O) :
    ((st.serve m a c (.op o)).1.conns c).queue.isSome = (st.conns c).queue.isSome ∧
      ((st.serve m a c (.op o)).1.conns c).watched = (st.conns c).watched := by
  cases hq : (st.conns c).queue with
  | some q => simp [serve, hq]
  | none =>
    have hframe := runOp_frame m a st o c
    simp only [serve, hq]
    exact ⟨by rw [hframe.queue, hq], hframe.watched⟩

theorem serve_multi_conn (m : Machine K O S R) (a : A) (c : C) (st : Server A C K O S) :
    ((st.serve m a c .multi).1.conns c).queue.isSome = true ∧
      ((st.serve m a c .multi).1.conns c).watched = (st.conns c).watched := by
  cases hq : (st.conns c).queue <;> simp [serve, hq]

theorem serve_exec_conn (m : Machine K O S R) (a : A) (c : C) (st : Server A C K O S) :
    ((st.serve m a c .exec).1.conns c).queue = none ∧
      (((st.serve m a c .exec).1.conns c).watched = (st.conns c).watched ∨
        ((st.serve m a c .exec).1.conns c).watched = []) := by
  cases hq : (st.conns c).queue with
  | none => simp [serve, hq]
  | some q =>
    cases hexec : (st.conns c).dirtyExec <;> cases hcas : (st.conns c).dirtyCas <;>
      simp [serve, hq, hexec, hcas]

theorem refuse_conn (c : C) (st : Server A C K O S) (req : Request K O) :
    ((st.refuse c req).conns c).queue = (st.conns c).queue ∧
      ((st.refuse c req).conns c).watched = (st.conns c).watched := by
  cases hq : (st.conns c).queue <;> cases req <;> simp [refuse, hq]

theorem refuse_log (c : C) (st : Server A C K O S) (req : Request K O) :
    (st.refuse c req).log = st.log := by
  cases req <;> simp only [refuse] <;> split <;> rfl

theorem refuse_frame (m : Machine K O S R) {c c' : C} (hne : c' ≠ c) (st : Server A C K O S) (req : Request K O) :
    Frame m st (st.refuse c req) c' := by
  cases req <;> simp only [refuse] <;> try exact Frame.refl m st c'
  all_goals
    split
    · exact (Frame.refl m st c').setConn _ hne
    · exact Frame.refl m st c'

theorem close_frame (m : Machine K O S R) {c c' : C} (hne : c' ≠ c) (st : Server A C K O S) :
    Frame m st (st.close c) c' := (Frame.refl m st c').setConn _ hne

end Server

/-! ### Sending a request -/

structure Net (A C K O S : Type*) where
  server : Server A C K O S
  opened : C → Bool

inductive Fate (E L : Type*) where
  | delivered
  | refused (e : E)
  | lostAfter (l : L)
  | lostBefore (l : L)
  | connectFailed
  deriving DecidableEq, Repr

inductive Delivery (R E L : Type*) where
  | answered (ans : Answer R)
  | refused (e : E)
  | lost (l : L)
  | notConnected
  deriving DecidableEq, Repr

namespace Net

variable {E L : Type*} [DecidableEq C]

def send (m : Machine K O S R) (a : A) (c : C) (req : Request K O) (net : Net A C K O S) :
    Fate E L → Option (Net A C K O S × Delivery R E L)
  | .delivered =>
    let (st, ans) := net.server.serve m a c req
    some (⟨st, update net.opened c true⟩, .answered ans)
  | .refused e =>
    some (⟨net.server.refuse c req, update net.opened c true⟩, .refused e)
  | .lostAfter l =>
    some (⟨(net.server.serve m a c req).1.close c, update net.opened c false⟩, .lost l)
  | .lostBefore l => some (⟨net.server.close c, update net.opened c false⟩, .lost l)
  | .connectFailed => if net.opened c then none else some (net, .notConnected)

def drop (c : C) (net : Net A C K O S) : Net A C K O S :=
  ⟨net.server.close c, update net.opened c false⟩

def Frame (m : Machine K O S R) (net net' : Net A C K O S) (c : C) : Prop :=
  Server.Frame m net.server net'.server c ∧ net'.opened c = net.opened c

variable {m : Machine K O S R} {a : A} {c : C} {req : Request K O} {net net' : Net A C K O S}
  {fate : Fate E L} {d : Delivery R E L}

omit [DecidableEq C] in
theorem Frame.trans {net net' net'' : Net A C K O S} {c : C} (h : Frame m net net' c)
    (h' : Frame m net' net'' c) : Frame m net net'' c :=
  ⟨Server.Frame.trans h.1 h'.1, h'.2.trans h.2⟩

theorem drop_frame (m : Machine K O S R) {c' : C} (hne : c' ≠ c) (net : Net A C K O S) :
    Frame m net (net.drop c) c' :=
  ⟨Server.close_frame m hne _, by simp [drop, hne]⟩

theorem send_server (h : net.send m a c req fate = some (net', d)) :
    (net'.server = (net.server.serve m a c req).1 ∨ net'.server = net.server.refuse c req ∨
      net'.server = (net.server.serve m a c req).1.close c ∨ net'.server = net.server.close c ∨
      net'.server = net.server) ∧ ∀ c', c' ≠ c → net'.opened c' = net.opened c' := by
  cases fate with
  | delivered =>
    obtain ⟨rfl, -⟩ := Prod.mk.inj (some.inj h)
    exact ⟨.inl rfl, fun c' hne => by simp [hne]⟩
  | refused e =>
    obtain ⟨rfl, -⟩ := Prod.mk.inj (some.inj h)
    exact ⟨.inr (.inl rfl), fun c' hne => by simp [hne]⟩
  | lostAfter l =>
    obtain ⟨rfl, -⟩ := Prod.mk.inj (some.inj h)
    exact ⟨.inr (.inr (.inl rfl)), fun c' hne => by simp [hne]⟩
  | lostBefore l =>
    obtain ⟨rfl, -⟩ := Prod.mk.inj (some.inj h)
    exact ⟨.inr (.inr (.inr (.inl rfl))), fun c' hne => by simp [hne]⟩
  | connectFailed =>
    rw [send] at h
    split at h
    · cases h
    · obtain ⟨rfl, -⟩ := Prod.mk.inj (some.inj h)
      exact ⟨.inr (.inr (.inr (.inr rfl))), fun _ _ => rfl⟩

theorem send_log (h : net.send m a c req fate = some (net', d)) :
    Server.LogGrows a net.server net'.server := by
  have hserve := Server.serve_log m a c net.server req
  rcases (send_server h).1 with hst | hst | hst | hst | hst
  · exact hst ▸ hserve
  · exact .of_eq a (hst ▸ Server.refuse_log c _ req)
  · rw [hst]
    exact hserve
  · exact .of_eq a (hst ▸ rfl)
  · exact .of_eq a (hst ▸ rfl)

theorem send_frame (h : net.send m a c req fate = some (net', d)) {c' : C} (hne : c' ≠ c) :
    Frame m net net' c' := by
  have hserve := Server.serve_frame m a hne net.server req
  obtain ⟨hst, hopen⟩ := send_server h
  refine ⟨?_, hopen c' hne⟩
  rcases hst with hst | hst | hst | hst | hst
  · exact hst ▸ hserve
  · exact hst ▸ Server.refuse_frame m hne _ _
  · exact hst ▸ hserve.trans (Server.close_frame m hne _)
  · exact hst ▸ Server.close_frame m hne _
  · exact hst ▸ Server.Frame.refl m _ c'

theorem send_cases (h : net.send m a c req fate = some (net', d)) :
    (fate = .delivered ∧ net'.server = (net.server.serve m a c req).1 ∧ net'.opened c = true ∧
      d = .answered (net.server.serve m a c req).2) ∨
    (∃ e, fate = .refused e ∧ net'.server = net.server.refuse c req ∧ net'.opened c = true ∧
      d = .refused e) ∨
    (fate ≠ .delivered ∧ net'.opened c = false ∧ (d = .notConnected ∨ ∃ l, d = .lost l) ∧
      (net' = net ∨ net'.server = net.server.close c ∨
        (∃ l, fate = .lostAfter l) ∧ net'.server = (net.server.serve m a c req).1.close c)) := by
  cases fate with
  | delivered =>
    cases h
    exact Or.inl ⟨rfl, rfl, by simp, rfl⟩
  | refused e =>
    cases h
    exact Or.inr (Or.inl ⟨e, rfl, rfl, by simp, rfl⟩)
  | lostAfter l =>
    cases h
    exact Or.inr (Or.inr ⟨by simp, by simp, Or.inr ⟨l, rfl⟩, Or.inr (Or.inr ⟨⟨l, rfl⟩, rfl⟩)⟩)
  | lostBefore l =>
    cases h
    exact Or.inr (Or.inr ⟨by simp, by simp, Or.inr ⟨l, rfl⟩, Or.inr (Or.inl rfl)⟩)
  | connectFailed =>
    rw [send] at h
    split at h
    · cases h
    · rename_i hclosed
      cases h
      exact Or.inr (Or.inr ⟨by simp, by simpa using hclosed, Or.inl rfl, Or.inl rfl⟩)

end Net

end TxServer
