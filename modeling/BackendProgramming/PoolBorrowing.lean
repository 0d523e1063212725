/-
**Borrowing connections from a pool.**

`RedisCluster` lends its connections.  One that was lent ten seconds ago or earlier is taken for abandoned: when
there is no other, the pool deletes it, whoever may be using it, and lends a new one in its place.  A connection
is known by its address, which `new` may hand out again; threads interleave at the critical sections, and times
are the 32 bits that the pool keeps of them.
-/

import BackendProgramming.Lts

set_option autoImplicit false

namespace GBDownLinker

open Function List Prod Except

namespace Borrowing

/-! ### The pool -/

inductive Failure where
  | undefined
  | impossible
  deriving DecidableEq, Repr

structure PooledConnection where
  available : Bool := false
  connectTime : UInt32 := 0
  canRelease : Bool := true
  deriving DecidableEq, Repr

abbrev Heap := ℕ → Option PooledConnection

structure Pool where
  connections : List ℕ
  tmpConnections : List ℕ := []
  heap : Heap

structure Call where
  currentTime : UInt32
  fresh : ℕ := 0
  connects : Bool := true
  deriving DecidableEq, Repr

def deref (heap : Heap) (conn : ℕ) : Except Failure PooledConnection :=
  match heap conn with
  | some o => .ok o
  | none => .error .undefined

def expired (currentTime : UInt32) (o : PooledConnection) : Bool := o.connectTime + 10 ≤ currentTime

def reapTmp (currentTime : UInt32) : List ℕ → Heap → Except Failure (List ℕ × Heap × List ℕ)
  | [], heap => .ok ([], heap, [])
  | conn :: rest, heap => do
    let o ← deref heap conn
    if expired currentTime o then
      let (kept, heap, closed) ← reapTmp currentTime rest (update heap conn none)
      .ok (kept, heap, conn :: closed)
    else
      let (kept, heap, closed) ← reapTmp currentTime rest heap
      .ok (conn :: kept, heap, closed)

def scan (p : PooledConnection → Bool) (heap : Heap) : List ℕ → Except Failure (Option ℕ)
  | [] => .ok none
  | conn :: rest => do
    let o ← deref heap conn
    if p o then .ok (some conn) else scan p heap rest

def recreate (pool : Pool) (conn : ℕ) (call : Call) : Except Failure (Pool × Option ℕ) :=
  let heap := update pool.heap conn none
  if (heap call.fresh).isSome then .error .impossible
  else if call.connects then
    .ok ({ pool with
      connections := pool.connections.replace conn call.fresh
      heap := update heap call.fresh (some { connectTime := call.currentTime }) }, some call.fresh)
  else .ok ({ pool with heap := update heap call.fresh (some {}) }, none)

def reclaimable (currentTime : UInt32) (o : PooledConnection) : Bool :=
  o.canRelease && expired currentTime o

def getAvailableConnection (pool : Pool) (call : Call) :
    Except Failure (Pool × Option ℕ × List ℕ) := do
  let (tmpConnections, heap, closed) ← reapTmp call.currentTime pool.tmpConnections pool.heap
  let pool := { pool with tmpConnections, heap }
  match ← scan (·.available) pool.heap pool.connections with
  | some conn =>
    let o ← deref pool.heap conn
    let o := { o with available := false, connectTime := call.currentTime }
    .ok ({ pool with heap := update pool.heap conn (some o) }, some conn, closed)
  | none =>
    match ← scan (reclaimable call.currentTime) pool.heap pool.connections with
    | some conn =>
      let (pool, result) ← recreate pool conn call
      .ok (pool, result, closed ++ [conn])
    | none => .ok (pool, none, closed)

def releaseConnection (pool : Pool) (conn : ℕ) : Except Failure (Pool × List ℕ) :=
  if conn ∈ pool.connections then do
    let o ← deref pool.heap conn
    .ok ({ pool with heap := update pool.heap conn (some { o with available := true }) }, [])
  else if conn ∈ pool.tmpConnections then do
    let _ ← deref pool.heap conn
    .ok ({ pool with
      tmpConnections := pool.tmpConnections.erase conn
      heap := update pool.heap conn none }, [conn])
  else .ok (pool, [])

def freeConnection (pool : Pool) (conn : ℕ) (call : Call) : Except Failure (Pool × List ℕ) :=
  if conn ∈ pool.connections then do
    let _ ← deref pool.heap conn
    let (pool, _) ← recreate pool conn call
    .ok (pool, [conn])
  else .ok (pool, [])

/-! ### The system -/

inductive Phase where
  | idle
  | opening
  | pushing (conn : ℕ)
  | holding (conn : ℕ)
  deriving DecidableEq, Repr

def Phase.conn : Phase → Option ℕ
  | .pushing conn => some conn
  | .holding conn => some conn
  | _ => none

structure System (B : Type) where
  pool : Pool
  phase : B → Phase := fun _ => .idle

inductive Event (B : Type) where
  | getAvailableConnection (b : B) (call : Call)
  | doRedisCommandOneConnection (b : B) (call : Call)
  | openTmp (b : B) (call : Call)
  | pushTmp (b : B)
  | setCanRelease (b : B) (canRelease : Bool)
  | releaseConnection (b : B)
  | freeConnection (b : B) (call : Call)
  deriving DecidableEq, Repr

variable {B : Type} [DecidableEq B]

def System.move (σ : System B) (b : B) (phase : Phase) : System B :=
  { σ with phase := update σ.phase b phase }

def borrow (σ : System B) (b : B) (call : Call) (nothing : Phase) :
    Except Failure (System B × List ℕ) :=
  match σ.phase b with
  | .idle => do
    let (pool, conn, closed) ← getAvailableConnection σ.pool call
    .ok ({ σ with pool }.move b (conn.elim nothing .holding), closed)
  | _ => .error .impossible

def stepClosing (σ : System B) : Event B → Except Failure (System B × List ℕ)
  | .getAvailableConnection b call => borrow σ b call .idle
  | .doRedisCommandOneConnection b call => borrow σ b call .opening
  | .openTmp b call =>
    match σ.phase b with
    | .opening =>
      if (σ.pool.heap call.fresh).isSome then .error .impossible
      else
        let o : PooledConnection := if call.connects then { connectTime := call.currentTime } else {}
        let heap := update σ.pool.heap call.fresh (some o)
        -- without a connection the function returns, and the caller has the object
        .ok ({ σ with pool := { σ.pool with heap } }.move b
          (if call.connects then .pushing call.fresh else .holding call.fresh), [])
    | _ => .error .impossible
  | .pushTmp b =>
    match σ.phase b with
    | .pushing conn =>
      let tmpConnections := σ.pool.tmpConnections ++ [conn]
      .ok ({ σ with pool := { σ.pool with tmpConnections } }.move b (.holding conn), [])
    | _ => .error .impossible
  | .setCanRelease b canRelease =>
    match σ.phase b with
    | .holding conn => do
      let o ← deref σ.pool.heap conn
      let heap := update σ.pool.heap conn (some { o with canRelease })
      .ok ({ σ with pool := { σ.pool with heap } }, [])
    | _ => .error .impossible
  | .releaseConnection b =>
    match σ.phase b with
    | .holding conn => do
      let (pool, closed) ← releaseConnection σ.pool conn
      .ok ({ σ with pool }.move b .idle, closed)
    | _ => .error .impossible
  | .freeConnection b call =>
    match σ.phase b with
    | .holding conn => do
      let (pool, closed) ← freeConnection σ.pool conn call
      .ok ({ σ with pool }.move b .idle, closed)
    | _ => .error .impossible

def step (σ : System B) (e : Event B) : Option (System B) :=
  match stepClosing σ e with
  | .ok (σ', _) => some σ'
  | .error _ => none

def start (connections : List ℕ) : System B :=
  { pool :=
    { connections
      heap := fun conn => if conn ∈ connections then some { available := true } else none } }

/-! ### The property and the condition -/

def Held (σ : System B) (conn : ℕ) : Prop := ∃ b, (σ.phase b).conn = some conn

def Event.givesBack : Event B → Option B
  | .releaseConnection b => some b
  | .freeConnection b _ => some b
  | _ => none

def Exclusive (σ : System B) (e : Event B) : Prop :=
  stepClosing σ e ≠ .error .undefined ∧
  ∀ σ' closed, stepClosing σ e = .ok (σ', closed) →
    (∀ b b' conn, (σ'.phase b).conn = some conn → (σ'.phase b').conn = some conn → b = b') ∧
    ∀ conn ∈ closed, ∀ b, (σ.phase b).conn = some conn → e.givesBack = some b

def reclaimed (pool : Pool) (currentTime : UInt32) : Option ℕ :=
  if pool.connections.any fun conn => (pool.heap conn).any (·.available) then none
  else pool.connections.find? fun conn => (pool.heap conn).any (reclaimable currentTime)

def Timely (σ : System B) : Event B → Prop
  | .getAvailableConnection _ call | .doRedisCommandOneConnection _ call =>
    (∀ conn ∈ σ.pool.tmpConnections, (σ.pool.heap conn).any (expired call.currentTime) = true →
      ¬ Held σ conn) ∧
    ∀ conn, reclaimed σ.pool call.currentTime = some conn → ¬ Held σ conn
  | _ => True

def Possible (σ : System B) (e : Event B) : Prop := stepClosing σ e ≠ .error .impossible

def Event.Reconnects : Event B → Prop
  | .getAvailableConnection _ call => call.connects = true
  | .doRedisCommandOneConnection _ call => call.connects = true
  | .freeConnection _ call => call.connects = true
  | _ => True

/-! ### Loops over the pool -/

variable {l : List ℕ}

section Loops

variable {heap : Heap}

theorem deref_eq {conn : ℕ} {o : PooledConnection} (h : heap conn = some o) : deref heap conn = .ok o := by
  rw [deref, h]

theorem bind_defined {α β : Type} {x : Except Failure α} {f : α → Except Failure β}
    (hx : x ≠ .error .undefined) (hf : ∀ a, x = .ok a → f a ≠ .error .undefined) :
    (x >>= f) ≠ .error .undefined := by
  cases x with
  | error failure =>
    intro h
    exact hx (congrArg error (error.inj h))
  | ok a => exact hf a rfl

theorem ok_defined {α : Type} (a : α) : (ok a : Except Failure α) ≠ .error .undefined := by
  intro h
  cases h

theorem bind_eq_ok {α β : Type} {x : Except Failure α} {f : α → Except Failure β} {r : β} :
    (x >>= f) = .ok r ↔ ∃ a, x = .ok a ∧ f a = .ok r := by
  cases x with
  | error failure => exact ⟨nofun, fun ⟨_, h, _⟩ => nomatch h⟩
  | ok a => exact ⟨fun h => ⟨a, rfl, h⟩, fun ⟨_, ha, h⟩ => ok.inj ha ▸ h⟩

theorem recreate_defined (pool : Pool) (conn : ℕ) (call : Call) :
    recreate pool conn call ≠ .error .undefined := by
  simp only [recreate]
  split
  · exact nofun
  · split <;> exact nofun

theorem scan_eq {p : PooledConnection → Bool} (halive : ∀ conn ∈ l, (heap conn).isSome = true) :
    scan p heap l = .ok (l.find? fun conn => (heap conn).any p) := by
  induction l with
  | nil => rfl
  | cons conn l ih =>
    obtain ⟨o, ho⟩ := Option.isSome_iff_exists.1 (halive conn (mem_cons_self ..))
    have hrest := ih fun conn' h => halive conn' (mem_cons_of_mem _ h)
    rw [scan, deref_eq ho]
    cases hp : p o with
    | true => simp [bind, Except.bind, ho, hp]
    | false => simp [bind, Except.bind, ho, hp, hrest]

theorem reapTmp_eq (currentTime : UInt32) (hnodup : l.Nodup)
    (halive : ∀ conn ∈ l, (heap conn).isSome = true) :
    reapTmp currentTime l heap = .ok
      (l.filter fun conn => !(heap conn).any (expired currentTime),
        fun conn => if conn ∈ l ∧ (heap conn).any (expired currentTime) = true then none else heap conn,
        l.filter fun conn => (heap conn).any (expired currentTime)) := by
  induction l generalizing heap with
  | nil => simp [reapTmp]
  | cons conn l ih =>
    obtain ⟨hnew, hnodup⟩ := nodup_cons.1 hnodup
    obtain ⟨o, ho⟩ := Option.isSome_iff_exists.1 (halive conn (mem_cons_self ..))
    have hne : ∀ conn' ∈ l, conn' ≠ conn := fun conn' h heq => hnew (heq ▸ h)
    rw [reapTmp, deref_eq ho]
    cases hexp : expired currentTime o with
    | true =>
      -- the rest of the list does not see that this object is gone
      have halive' : ∀ conn' ∈ l, (update heap conn none conn').isSome = true := by
        intro conn' h
        rw [update_of_ne (hne conn' h)]
        exact halive conn' (mem_cons_of_mem _ h)
      have hrest := ih hnodup halive'
      have hfilter : ∀ p : Bool → Bool, (l.filter fun conn' =>
          p ((update heap conn none conn').any (expired currentTime))) =
          l.filter fun conn' => p ((heap conn').any (expired currentTime)) := by
        intro p
        refine filter_congr fun conn' h => ?_
        rw [update_of_ne (hne conn' h)]
      rw [hfilter (! ·), hfilter (·)] at hrest
      simp only [bind, Except.bind, if_true, hrest, filter_cons, ho, Option.any_some, hexp,
        Bool.not_true, Bool.false_eq_true, if_false, mem_cons, Except.ok.injEq, mk.injEq,
        true_and, and_true]
      funext conn'
      by_cases hc : conn' = conn
      · subst hc
        simp [ho, hexp]
      · simp [hc]
    | false =>
      have hrest := ih hnodup fun conn' h => halive conn' (mem_cons_of_mem _ h)
      simp only [bind, Except.bind, Bool.false_eq_true, if_false, hrest, filter_cons, ho,
        Option.any_some, hexp, Bool.not_false, if_true, mem_cons, Except.ok.injEq, mk.injEq,
        true_and, and_true]
      funext conn'
      by_cases hc : conn' = conn
      · subst hc
        simp [ho, hexp]
      · simp [hc]

end Loops

/-! ### The invariant -/

structure Inv (σ : System B) : Prop where
  nodup : (σ.pool.connections ++ σ.pool.tmpConnections).Nodup
  alive : ∀ conn ∈ σ.pool.connections ++ σ.pool.tmpConnections, (σ.pool.heap conn).isSome = true
  held : ∀ conn, Held σ conn → (σ.pool.heap conn).isSome = true
  busy : ∀ conn ∈ σ.pool.connections, Held σ conn → (σ.pool.heap conn).any (·.available) = false
  alone : ∀ b b' conn, (σ.phase b).conn = some conn → (σ.phase b').conn = some conn → b = b'
  pushing : ∀ b conn, σ.phase b = .pushing conn → conn ∉ σ.pool.connections ++ σ.pool.tmpConnections

omit [DecidableEq B] in
theorem inv_start {connections : List ℕ} (hnodup : connections.Nodup) :
    Inv (start connections : System B) where
  nodup := by simpa [start] using hnodup
  alive := by
    intro conn hconn
    have : conn ∈ connections := by simpa [start] using hconn
    simp [start, this]
  held := by rintro conn ⟨b, hb⟩; simp [start, Phase.conn] at hb
  busy := by rintro conn - ⟨b, hb⟩; simp [start, Phase.conn] at hb
  alone := by intro b b' conn hb; simp [start, Phase.conn] at hb
  pushing := by intro b conn hb; simp [start] at hb

section Moves

variable {σ : System B} {conn : ℕ} (b : B) (phase : Phase)

theorem held_move_iff {b : B} {phase : Phase} {conn' : ℕ} : Held (σ.move b phase) conn' ↔
    phase.conn = some conn' ∨ ∃ b', b' ≠ b ∧ (σ.phase b').conn = some conn' := by
  constructor
  · rintro ⟨b', hb'⟩
    by_cases hb : b' = b
    · subst hb
      exact Or.inl (by simpa [System.move] using hb')
    · exact Or.inr ⟨b', hb, by simpa [System.move, hb] using hb'⟩
  · rintro (h | ⟨b', hb, h⟩)
    · exact ⟨b, by simpa [System.move] using h⟩
    · exact ⟨b', by simpa [System.move, hb] using h⟩

theorem Inv.leave (h : Inv σ) (hphase : phase.conn = none) : Inv (σ.move b phase) := by
  have hheld : ∀ conn', Held (σ.move b phase) conn' → Held σ conn' := by
    intro conn' hc
    obtain hc | ⟨b', -, hb'⟩ := held_move_iff.1 hc
    · rw [hphase] at hc
      cases hc
    · exact ⟨b', hb'⟩
  have hother : ∀ b' conn', ((σ.move b phase).phase b').conn = some conn' →
      (σ.phase b').conn = some conn' := by
    intro b' conn' hb'
    by_cases hb : b' = b
    · subst hb
      simp [System.move, hphase] at hb'
    · simpa [System.move, hb] using hb'
  refine ⟨h.nodup, h.alive, fun conn' hc => h.held conn' (hheld conn' hc),
    fun conn' hmem hc => h.busy conn' hmem (hheld conn' hc),
    fun b₁ b₂ conn' h₁ h₂ => h.alone b₁ b₂ conn' (hother b₁ conn' h₁) (hother b₂ conn' h₂), ?_⟩
  intro b' conn' hb'
  by_cases hb : b' = b
  · subst hb
    have : phase = .pushing conn' := by simpa [System.move] using hb'
    rw [this] at hphase
    cases hphase
  · exact h.pushing b' conn' (by simpa [System.move, hb] using hb')

theorem Inv.not_held_of_leave {b : B} (h : Inv σ) (hb : (σ.phase b).conn = some conn)
    (hphase : phase.conn = none) : ¬ Held (σ.move b phase) conn := by
  intro hc
  obtain hc | ⟨b', hne, hb'⟩ := held_move_iff.1 hc
  · rw [hphase] at hc
    cases hc
  · exact hne (h.alone b' b conn hb' hb)

theorem Inv.give (h : Inv σ) (hphase : phase.conn = some conn)
    (hfree : ¬ Held σ conn) (halive : (σ.pool.heap conn).isSome = true)
    (hbusy : conn ∈ σ.pool.connections → (σ.pool.heap conn).any (·.available) = false)
    (hpushing : phase = .pushing conn → conn ∉ σ.pool.connections ++ σ.pool.tmpConnections) :
    Inv (σ.move b phase) := by
  have hheld : ∀ conn', Held (σ.move b phase) conn' → conn' = conn ∨ Held σ conn' := by
    intro conn' hc
    obtain hc | ⟨b', -, hb'⟩ := held_move_iff.1 hc
    · exact Or.inl (Option.some.inj (hc.symm.trans hphase))
    · exact Or.inr ⟨b', hb'⟩
  refine ⟨h.nodup, h.alive, ?_, ?_, ?_, ?_⟩
  · intro conn' hc
    obtain rfl | hc := hheld conn' hc
    · exact halive
    · exact h.held conn' hc
  · intro conn' hmem hc
    obtain rfl | hc := hheld conn' hc
    · exact hbusy hmem
    · exact h.busy conn' hmem hc
  · intro b₁ b₂ conn' h₁ h₂
    by_cases hb₁ : b₁ = b <;> by_cases hb₂ : b₂ = b
    · rw [hb₁, hb₂]
    · subst hb₁
      have heq : conn' = conn := by simpa [System.move, hphase, eq_comm] using h₁
      exact absurd ⟨b₂, by simpa [System.move, hb₂, heq] using h₂⟩ hfree
    · subst hb₂
      have heq : conn' = conn := by simpa [System.move, hphase, eq_comm] using h₂
      exact absurd ⟨b₁, by simpa [System.move, hb₁, heq] using h₁⟩ hfree
    · exact h.alone b₁ b₂ conn' (by simpa [System.move, hb₁] using h₁) (by simpa [System.move, hb₂] using h₂)
  · intro b' conn' hb'
    by_cases hb : b' = b
    · subst hb
      have hp : phase = .pushing conn' := by simpa [System.move] using hb'
      have heq : conn' = conn := by
        rw [hp] at hphase
        exact Option.some.inj hphase
      exact heq ▸ hpushing (heq ▸ hp)
    · exact h.pushing b' conn' (by simpa [System.move, hb] using hb')

end Moves

variable {pool : Pool}

section Objects

omit [DecidableEq B]

variable {σ : System B} {conn : ℕ}

theorem Inv.setObject (h : Inv σ) (conn : ℕ) (o : PooledConnection)
    (hfree : conn ∈ σ.pool.connections → o.available = true → ¬ Held σ conn) :
    Inv { σ with pool := { σ.pool with heap := update σ.pool.heap conn (some o) } } := by
  have halive : ∀ conn', (σ.pool.heap conn').isSome = true →
      (update σ.pool.heap conn (some o) conn').isSome = true := by
    intro conn' hc
    by_cases heq : conn' = conn
    · simp [heq]
    · simpa [heq] using hc
  refine ⟨h.nodup, fun conn' hmem => halive conn' (h.alive conn' hmem),
    fun conn' hc => halive conn' (h.held conn' hc), ?_, h.alone, h.pushing⟩
  intro conn' hmem hc
  by_cases heq : conn' = conn
  · subst heq
    cases havail : o.available with
    | true => exact absurd hc (hfree hmem havail)
    | false => simp [havail]
  · simpa [heq] using h.busy conn' hmem hc

theorem Inv.addTmp (h : Inv σ) (hout : conn ∉ σ.pool.connections ++ σ.pool.tmpConnections)
    (halive : (σ.pool.heap conn).isSome = true) (hfree : ¬ Held σ conn) :
    Inv { σ with pool := { σ.pool with tmpConnections := σ.pool.tmpConnections ++ [conn] } } := by
  have hmem : ∀ conn', conn' ∈ σ.pool.connections ++ (σ.pool.tmpConnections ++ [conn]) ↔
      conn' ∈ σ.pool.connections ++ σ.pool.tmpConnections ∨ conn' = conn := by
    simp [or_assoc]
  refine ⟨?_, ?_, h.held, h.busy, h.alone, ?_⟩
  · change (σ.pool.connections ++ (σ.pool.tmpConnections ++ [conn])).Nodup
    rw [← append_assoc]
    refine nodup_append.2 ⟨h.nodup, by simp, ?_⟩
    rintro x hx y hy rfl
    exact hout (mem_singleton.1 hy ▸ hx)
  · intro conn' hc
    obtain hc | rfl := (hmem conn').1 hc
    · exact h.alive conn' hc
    · exact halive
  · intro b conn' hb hc
    obtain hc | rfl := (hmem conn').1 hc
    · exact h.pushing b conn' hb hc
    · exact hfree ⟨b, by rw [hb]; rfl⟩

theorem Inv.delete {tmpConnections : List ℕ} {heap : Heap} (h : Inv σ)
    (hsub : tmpConnections.Sublist σ.pool.tmpConnections)
    (hkept : ∀ conn', conn' ∈ σ.pool.connections ++ tmpConnections ∨ Held σ conn' →
      heap conn' = σ.pool.heap conn') :
    Inv { σ with pool := { σ.pool with tmpConnections, heap } } := by
  have hmem : ∀ conn', conn' ∈ σ.pool.connections ++ tmpConnections →
      conn' ∈ σ.pool.connections ++ σ.pool.tmpConnections :=
    fun conn' hc => (hsub.append_left σ.pool.connections).subset hc
  refine ⟨h.nodup.sublist (hsub.append_left _), ?_, ?_, ?_, h.alone, ?_⟩
  · intro conn' hc
    exact (congrArg Option.isSome (hkept conn' (Or.inl hc))).trans (h.alive conn' (hmem conn' hc))
  · intro conn' hc
    exact (congrArg Option.isSome (hkept conn' (Or.inr hc))).trans (h.held conn' hc)
  · intro conn' hc hheld
    exact (congrArg (Option.any (·.available)) (hkept conn' (Or.inr hheld))).trans
      (h.busy conn' hc hheld)
  · intro b conn' hb hc
    exact h.pushing b conn' hb (hmem conn' hc)

theorem replace_eq_map {fresh : ℕ} (hnodup : l.Nodup) :
    l.replace conn fresh = l.map fun conn' => if conn' = conn then fresh else conn' := by
  induction l with
  | nil => rfl
  | cons conn' l ih =>
    obtain ⟨hnew, hnodup⟩ := nodup_cons.1 hnodup
    by_cases heq : conn' = conn
    · subst heq
      have hrest : (l.map fun x => if x = conn' then fresh else x) = l := by
        conv_rhs => rw [← map_id l]
        refine map_congr_left fun x hx => if_neg ?_
        rintro rfl
        exact hnew hx
      simp [hrest]
    · have hbeq : (conn == conn') = false := beq_eq_false_iff_ne.2 (Ne.symm heq)
      simp [replace_cons, hbeq, heq, ih hnodup]

theorem mem_replace_iff {conn fresh x : ℕ} (hnodup : l.Nodup) (hmem : conn ∈ l) :
    x ∈ l.replace conn fresh ↔ x = fresh ∨ (x ∈ l ∧ x ≠ conn) := by
  rw [replace_eq_map hnodup, mem_map]
  constructor
  · rintro ⟨y, hy, rfl⟩
    by_cases heq : y = conn
    · exact Or.inl (if_pos heq)
    · rw [if_neg heq]
      exact Or.inr ⟨hy, heq⟩
  · rintro (rfl | ⟨hx, hne⟩)
    · exact ⟨conn, hmem, if_pos rfl⟩
    · exact ⟨x, hx, if_neg hne⟩

theorem nodup_replace_append {l' : List ℕ} {conn fresh : ℕ} (hnodup : (l ++ l').Nodup) (hmem : conn ∈ l)
    (hfresh : ∀ x ∈ l ++ l', x ≠ conn → x ≠ fresh) : (l.replace conn fresh ++ l').Nodup := by
  obtain ⟨hl, hl', hapart⟩ := nodup_append.1 hnodup
  refine nodup_append.2 ⟨?_, hl', ?_⟩
  · rw [replace_eq_map hl]
    refine Nodup.map_on (fun x hx y hy heq => ?_) hl
    have hx' := hfresh x (mem_append_left _ hx)
    have hy' := hfresh y (mem_append_left _ hy)
    by_cases hxc : x = conn <;> by_cases hyc : y = conn
    · rw [hxc, hyc]
    · rw [if_pos hxc, if_neg hyc] at heq
      exact absurd heq.symm (hy' hyc)
    · rw [if_neg hxc, if_pos hyc] at heq
      exact absurd heq (hx' hxc)
    · rwa [if_neg hxc, if_neg hyc] at heq
  · rintro x hx y hy rfl
    rcases (mem_replace_iff hl hmem).1 hx with rfl | ⟨hx, -⟩
    · exact hfresh x (mem_append_right _ hy) (fun heq => hapart conn hmem x hy heq.symm) rfl
    · exact hapart x hx x hy rfl

theorem Inv.recreate {call : Call} {result : Option ℕ} (h : Inv σ)
    (hmem : conn ∈ σ.pool.connections) (hfree : ¬ Held σ conn) (hconnects : call.connects = true)
    (hrun : recreate σ.pool conn call = .ok (pool, result)) :
    Inv { σ with pool } ∧ result = some call.fresh ∧ ¬ Held σ call.fresh ∧
      pool.heap call.fresh = some { connectTime := call.currentTime } := by
  have hdead : update σ.pool.heap conn none call.fresh = none := by
    by_contra hne
    have hsome := Option.isSome_iff_ne_none.2 hne
    simp [Borrowing.recreate, hsome] at hrun
  -- an address that is in use is the address of another object than the new one
  have hne : ∀ conn', (σ.pool.heap conn').isSome = true → conn' ≠ conn → conn' ≠ call.fresh := by
    rintro conn' halive hc rfl
    rw [update_of_ne hc] at hdead
    simp [hdead] at halive
  simp only [Borrowing.recreate, hdead, Option.isSome_none, Bool.false_eq_true, if_false, hconnects,
    if_true, ok.injEq, mk.injEq] at hrun
  obtain ⟨rfl, rfl⟩ := hrun
  have hheldne : ∀ conn', Held σ conn' → conn' ≠ conn ∧ conn' ≠ call.fresh := by
    intro conn' hc
    have hcc : conn' ≠ conn := fun heq => hfree (heq ▸ hc)
    exact ⟨hcc, hne conn' (h.held conn' hc) hcc⟩
  have hsplit := nodup_append.1 h.nodup
  -- what stands in the new lists is the new connection or another one that was there before
  have hin : ∀ conn', conn' ∈ σ.pool.connections.replace conn call.fresh ++ σ.pool.tmpConnections →
      conn' = call.fresh ∨ conn' ∈ σ.pool.connections ++ σ.pool.tmpConnections ∧ conn' ≠ conn := by
    intro conn' hc
    rcases mem_append.1 hc with hc | hc
    · exact ((mem_replace_iff hsplit.1 hmem).1 hc).imp_right fun hold =>
        ⟨mem_append_left _ hold.1, hold.2⟩
    · exact Or.inr ⟨mem_append_right _ hc, fun heq => hsplit.2.2 conn hmem conn' hc heq.symm⟩
  refine ⟨⟨?_, ?_, ?_, ?_, h.alone, ?_⟩, rfl, ?_, by simp⟩
  · exact nodup_replace_append h.nodup hmem fun x hx => hne x (h.alive x hx)
  · intro conn' hc
    obtain rfl | ⟨hold, hcc⟩ := hin conn' hc
    · simp
    · have := h.alive conn' hold
      simpa [hcc, hne conn' this hcc] using this
  · intro conn' hc
    obtain ⟨hcc, hcf⟩ := hheldne conn' hc
    simpa [hcc, hcf] using h.held conn' hc
  · intro conn' hc hheld
    obtain ⟨hcc, hcf⟩ := hheldne conn' hheld
    obtain rfl | ⟨hold, -⟩ := (mem_replace_iff hsplit.1 hmem).1 hc
    · exact absurd rfl hcf
    · simpa [hcc, hcf] using h.busy conn' hold hheld
  · intro b conn' hb hc
    have hheld : Held σ conn' := ⟨b, by rw [hb]; rfl⟩
    obtain rfl | ⟨hold, -⟩ := hin conn' hc
    · exact (hheldne _ hheld).2 rfl
    · exact h.pushing b conn' hb hold
  · intro hc
    exact (hheldne _ hc).2 rfl

end Objects

/-! ### One call of `getAvailableConnection` -/

def reaped (pool : Pool) (currentTime : UInt32) : Pool :=
  { pool with
    tmpConnections :=
      pool.tmpConnections.filter fun conn => !(pool.heap conn).any (expired currentTime)
    heap := fun conn =>
      if conn ∈ pool.tmpConnections ∧ (pool.heap conn).any (expired currentTime) = true then none
      else pool.heap conn }

def expiredTmp (pool : Pool) (currentTime : UInt32) : List ℕ :=
  pool.tmpConnections.filter fun conn => (pool.heap conn).any (expired currentTime)

section Get

omit [DecidableEq B]

variable {σ : System B} {call : Call}

variable {currentTime : UInt32}

theorem Inv.reaped_heap (h : Inv σ) {conn : ℕ} (hmem : conn ∈ σ.pool.connections) :
    (reaped σ.pool currentTime).heap conn = σ.pool.heap conn := by
  have htmp : conn ∉ σ.pool.tmpConnections := fun hc =>
    (nodup_append.1 h.nodup).2.2 conn hmem conn hc rfl
  simp [reaped, htmp]

theorem Inv.reapTmp_eq (h : Inv σ) :
    reapTmp currentTime σ.pool.tmpConnections σ.pool.heap =
      .ok ((reaped σ.pool currentTime).tmpConnections, (reaped σ.pool currentTime).heap,
        expiredTmp σ.pool currentTime) :=
  Borrowing.reapTmp_eq currentTime (nodup_append.1 h.nodup).2.1
    fun conn hc => h.alive conn (mem_append_right _ hc)

theorem Inv.scan_reaped (h : Inv σ) (p : PooledConnection → Bool) :
    scan p (reaped σ.pool currentTime).heap σ.pool.connections =
      .ok (σ.pool.connections.find? fun conn => (σ.pool.heap conn).any p) := by
  refine (scan_eq fun conn hc => ?_).trans (congrArg _ (find?_congr fun conn hc => ?_))
  · rw [h.reaped_heap hc]
    exact h.alive conn (mem_append_left _ hc)
  · rw [h.reaped_heap hc]

theorem Inv.deref_found (h : Inv σ) {p : PooledConnection → Bool} {conn : ℕ}
    (hfind : (σ.pool.connections.find? fun conn => (σ.pool.heap conn).any p) = some conn) :
    ∃ o, σ.pool.heap conn = some o ∧ p o = true ∧ deref (reaped σ.pool currentTime).heap conn = .ok o := by
  have hmem := mem_of_find?_eq_some hfind
  have hany : (σ.pool.heap conn).any p = true := by simpa using find?_some hfind
  obtain ⟨o, ho, hp⟩ := (Option.any_eq_true p (σ.pool.heap conn)).1 hany
  exact ⟨o, ho, hp, deref_eq ((h.reaped_heap hmem).trans ho)⟩

theorem reclaimed_of_available
    (hfind : (σ.pool.connections.find? fun conn => (σ.pool.heap conn).any (·.available)) = none)
    (currentTime : UInt32) : reclaimed σ.pool currentTime =
      σ.pool.connections.find? fun conn => (σ.pool.heap conn).any (reclaimable currentTime) :=
  if_neg (by simpa using hfind)

theorem Inv.get_defined (h : Inv σ) : getAvailableConnection σ.pool call ≠ .error .undefined := by
  refine bind_defined (h.reapTmp_eq.trans_ne (ok_defined _)) fun r hr => ?_
  obtain rfl := ok.inj (h.reapTmp_eq.symm.trans hr)
  refine bind_defined ((h.scan_reaped _).trans_ne (ok_defined _)) fun found hfound => ?_
  obtain rfl := ok.inj ((h.scan_reaped _).symm.trans hfound)
  split
  · next hfind =>
    obtain ⟨o, -, -, hderef⟩ := h.deref_found hfind
    exact bind_defined (hderef.trans_ne (ok_defined _)) fun _ _ => ok_defined _
  · refine bind_defined ((h.scan_reaped _).trans_ne (ok_defined _)) fun found hfound => ?_
    cases found with
    | none => exact ok_defined _
    | some conn => exact bind_defined (recreate_defined _ _ _) fun _ _ => ok_defined _

theorem Inv.get_cases (h : Inv σ) {result : Option ℕ} {closed : List ℕ}
    (hrun : getAvailableConnection σ.pool call = .ok (pool, result, closed)) :
    (∃ conn o, conn ∈ σ.pool.connections ∧ σ.pool.heap conn = some o ∧ o.available = true ∧
      reclaimed σ.pool call.currentTime = none ∧
      pool = { reaped σ.pool call.currentTime with
        heap := update (reaped σ.pool call.currentTime).heap conn
          (some { o with available := false, connectTime := call.currentTime }) } ∧
      result = some conn ∧ closed = expiredTmp σ.pool call.currentTime) ∨
    (∃ conn, reclaimed σ.pool call.currentTime = some conn ∧
      Borrowing.recreate (reaped σ.pool call.currentTime) conn call = .ok (pool, result) ∧
      closed = expiredTmp σ.pool call.currentTime ++ [conn]) ∨
    reclaimed σ.pool call.currentTime = none ∧ pool = reaped σ.pool call.currentTime ∧ result = none ∧
      closed = expiredTmp σ.pool call.currentTime := by
  obtain ⟨r, hr, hrun⟩ := bind_eq_ok.1 hrun
  obtain rfl := ok.inj (h.reapTmp_eq.symm.trans hr)
  obtain ⟨found, hfound, hrun⟩ := bind_eq_ok.1 hrun
  obtain rfl := ok.inj ((h.scan_reaped _).symm.trans hfound)
  split at hrun
  · next conn hfind =>
    have hmem := mem_of_find?_eq_some hfind
    obtain ⟨o, ho, havail, hderef⟩ := h.deref_found hfind
    obtain ⟨o', ho', hrun⟩ := bind_eq_ok.1 hrun
    obtain rfl := ok.inj (hderef.symm.trans ho')
    obtain ⟨rfl, hrest⟩ := mk.inj (ok.inj hrun)
    obtain ⟨rfl, rfl⟩ := mk.inj hrest
    refine Or.inl ⟨conn, o, hmem, ho, havail, if_pos ?_, rfl, rfl, rfl⟩
    exact any_eq_true.2 ⟨conn, hmem, by rw [ho]; exact havail⟩
  · next hfind =>
    obtain ⟨found, hfound, hrun⟩ := bind_eq_ok.1 hrun
    have hre : reclaimed σ.pool call.currentTime = found :=
      (reclaimed_of_available hfind _).trans (ok.inj ((h.scan_reaped _).symm.trans hfound))
    cases found with
    | none =>
      obtain ⟨rfl, hrest⟩ := mk.inj (ok.inj hrun)
      obtain ⟨rfl, rfl⟩ := mk.inj hrest
      exact Or.inr (Or.inr ⟨hre, rfl, rfl, rfl⟩)
    | some conn =>
      obtain ⟨⟨pool', result'⟩, hrec, hrun⟩ := bind_eq_ok.1 hrun
      obtain ⟨rfl, hrest⟩ := mk.inj (ok.inj hrun)
      obtain ⟨rfl, rfl⟩ := mk.inj hrest
      exact Or.inr (Or.inl ⟨conn, hre, hrec, rfl⟩)

theorem Inv.get_closed (h : Inv σ) {result : Option ℕ} {closed : List ℕ}
    (hrun : getAvailableConnection σ.pool call = .ok (pool, result, closed)) (conn : ℕ) :
    conn ∈ closed ↔
      (conn ∈ σ.pool.tmpConnections ∧ (σ.pool.heap conn).any (expired call.currentTime) = true) ∨
        reclaimed σ.pool call.currentTime = some conn := by
  have hexpired : conn ∈ expiredTmp σ.pool call.currentTime ↔
      conn ∈ σ.pool.tmpConnections ∧ (σ.pool.heap conn).any (expired call.currentTime) = true :=
    mem_filter
  rw [← hexpired]
  obtain ⟨_, _, -, -, -, hre, -, -, rfl⟩ | ⟨conn', hre, -, rfl⟩ | ⟨hre, -, -, rfl⟩ := h.get_cases hrun
  all_goals simp [hre, eq_comm]

theorem Inv.reap (h : Inv σ)
    (hfree : ∀ conn ∈ σ.pool.tmpConnections, (σ.pool.heap conn).any (expired currentTime) = true →
      ¬ Held σ conn) :
    Inv { σ with pool := reaped σ.pool currentTime } := by
  refine h.delete filter_sublist fun conn hc => ?_
  obtain hc | hc := hc
  · obtain hc | hc := mem_append.1 hc
    · exact h.reaped_heap hc
    · have hyoung : (σ.pool.heap conn).any (expired currentTime) = false := by
        simpa using (mem_filter.1 hc).2
      exact if_neg fun hold => by simp [hyoung] at hold
  · exact if_neg fun hold => hfree conn hold.1 hold.2 hc

theorem reclaimed_mem {conn : ℕ}
    (h : reclaimed pool currentTime = some conn) : conn ∈ pool.connections := by
  rw [reclaimed] at h
  split at h
  · cases h
  · exact mem_of_find?_eq_some h

end Get

theorem Inv.get {σ : System B} {call : Call} {b : B} {nothing : Phase} {result : Option ℕ}
    {closed : List ℕ} (h : Inv σ) (hconnects : call.connects = true)
    (htmp : ∀ conn ∈ σ.pool.tmpConnections, (σ.pool.heap conn).any (expired call.currentTime) = true →
      ¬ Held σ conn)
    (hreclaimed : ∀ conn, reclaimed σ.pool call.currentTime = some conn → ¬ Held σ conn)
    (hnothing : nothing.conn = none)
    (hrun : getAvailableConnection σ.pool call = .ok (pool, result, closed)) :
    Inv ({ σ with pool }.move b (result.elim nothing .holding)) := by
  have hreap := h.reap htmp
  obtain ⟨conn, o, hmem, ho, havail, -, rfl, rfl, -⟩ | ⟨conn, hre, hrec, -⟩ | ⟨-, rfl, rfl, -⟩ :=
    h.get_cases hrun
  · have hfree : ¬ Held σ conn := fun hc => by
      have hbusy := h.busy conn hmem hc
      simp [ho, havail] at hbusy
    have hset := hreap.setObject conn
      { o with available := false, connectTime := call.currentTime } (by simp)
    exact hset.give b (.holding conn) rfl hfree (by simp) (fun _ => by simp) (by simp)
  · have hmem : conn ∈ σ.pool.connections := reclaimed_mem hre
    obtain ⟨hinv, rfl, hfree, hheap⟩ := hreap.recreate hmem (hreclaimed conn hre) hconnects hrec
    exact hinv.give b (.holding call.fresh) rfl hfree (by simp [hheap]) (fun _ => by simp [hheap]) (by simp)
  · exact hreap.leave b nothing hnothing

/-! ### One event -/

section Step

variable {σ σ' : System B} {e : Event B} {b : B} {call : Call} {nothing : Phase} {closed : List ℕ}

theorem borrow_eq_ok (hrun : borrow σ b call nothing = .ok (σ', closed)) :
    ∃ pool result, getAvailableConnection σ.pool call = .ok (pool, result, closed) ∧
      σ' = { σ with pool }.move b (result.elim nothing .holding) := by
  rw [borrow] at hrun
  split at hrun
  · obtain ⟨⟨pool, result, closed'⟩, hget, hrun⟩ := bind_eq_ok.1 hrun
    obtain ⟨rfl, rfl⟩ := mk.inj (ok.inj hrun)
    exact ⟨pool, result, hget, rfl⟩
  · cases hrun

theorem Inv.give_back {conn : ℕ} (h : Inv σ) (hb : σ.phase b = .holding conn) :
    (∃ o, deref σ.pool.heap conn = .ok o ∧ σ.pool.heap conn = some o) ∧ Inv (σ.move b .idle) ∧
      ¬ Held (σ.move b .idle) conn := by
  have hconn : (σ.phase b).conn = some conn := by rw [hb]; rfl
  obtain ⟨o, ho⟩ := Option.isSome_iff_exists.1 (h.held conn ⟨b, hconn⟩)
  exact ⟨⟨o, deref_eq ho, ho⟩, h.leave b .idle rfl, h.not_held_of_leave .idle hconn rfl⟩

theorem Inv.defined (h : Inv σ) (e : Event B) : stepClosing σ e ≠ .error .undefined := by
  have hborrow : ∀ (b : B) (call : Call) (nothing : Phase), borrow σ b call nothing ≠ .error .undefined := by
    intro b call nothing
    rw [borrow]
    split
    · exact bind_defined h.get_defined fun _ _ => nofun
    · exact nofun
  have hderef : ∀ b conn, σ.phase b = .holding conn → deref σ.pool.heap conn ≠ .error .undefined := by
    intro b conn hb
    obtain ⟨⟨o, ho, -⟩, -⟩ := h.give_back hb
    exact ho.trans_ne nofun
  cases e with
  | getAvailableConnection b call | doRedisCommandOneConnection b call => exact hborrow b call _
  | openTmp b call =>
    rw [stepClosing]
    split
    · split <;> exact nofun
    · exact nofun
  | pushTmp b =>
    rw [stepClosing]
    split <;> exact nofun
  | setCanRelease b canRelease =>
    rw [stepClosing]
    split
    · next conn hb => exact bind_defined (hderef b conn hb) fun _ _ => nofun
    · exact nofun
  | releaseConnection b =>
    rw [stepClosing]
    split
    · next conn hb =>
      refine bind_defined ?_ fun _ _ => nofun
      rw [Borrowing.releaseConnection]
      split
      · exact bind_defined (hderef b conn hb) fun _ _ => nofun
      · split
        · exact bind_defined (hderef b conn hb) fun _ _ => nofun
        · exact nofun
    · exact nofun
  | freeConnection b call =>
    rw [stepClosing]
    split
    · next conn hb =>
      refine bind_defined ?_ fun _ _ => nofun
      rw [Borrowing.freeConnection]
      split
      · exact bind_defined (hderef b conn hb) fun _ _ =>
          bind_defined (recreate_defined _ _ _) fun _ _ => nofun
      · exact nofun
    · exact nofun

theorem Inv.borrow (h : Inv σ) (hconnects : call.connects = true) (hnothing : nothing.conn = none)
    (htimely : Timely σ (.getAvailableConnection b call))
    (hrun : Borrowing.borrow σ b call nothing = .ok (σ', closed)) :
    Inv σ' ∧ ∀ conn ∈ closed, ¬ Held σ conn := by
  obtain ⟨pool, result, hget, rfl⟩ := borrow_eq_ok hrun
  refine ⟨h.get hconnects htimely.1 htimely.2 hnothing hget, ?_⟩
  intro conn hconn
  obtain ⟨hmem, hold⟩ | hre := (h.get_closed hget conn).1 hconn
  · exact htimely.1 conn hmem hold
  · exact htimely.2 conn hre

theorem Inv.release {conn : ℕ} (h : Inv σ) (hb : σ.phase b = .holding conn)
    (hrun : Borrowing.releaseConnection σ.pool conn = .ok (pool, closed)) :
    Inv ({ σ with pool }.move b .idle) ∧ ∀ conn' ∈ closed, conn' = conn := by
  obtain ⟨⟨o, ho, -⟩, hleft, hfree⟩ := h.give_back hb
  rw [Borrowing.releaseConnection, ho] at hrun
  split at hrun
  · obtain ⟨rfl, rfl⟩ := mk.inj (ok.inj hrun)
    exact ⟨hleft.setObject conn { o with available := true } fun _ _ => hfree, nofun⟩
  · next hmem =>
    split at hrun
    · obtain ⟨rfl, rfl⟩ := mk.inj (ok.inj hrun)
      refine ⟨hleft.delete erase_sublist ?_, fun conn' h' => mem_singleton.1 h'⟩
      intro conn' hc
      refine update_of_ne ?_ _ _
      rintro rfl
      obtain hc | hc := hc
      · obtain hc | hc := mem_append.1 hc
        · exact hmem hc
        · exact (nodup_append.1 h.nodup).2.1.not_mem_erase hc
      · exact hfree hc
    · obtain ⟨rfl, rfl⟩ := mk.inj (ok.inj hrun)
      exact ⟨hleft, nofun⟩

theorem Inv.free {conn : ℕ} (h : Inv σ) (hb : σ.phase b = .holding conn)
    (hconnects : call.connects = true)
    (hrun : Borrowing.freeConnection σ.pool conn call = .ok (pool, closed)) :
    Inv ({ σ with pool }.move b .idle) ∧ ∀ conn' ∈ closed, conn' = conn := by
  obtain ⟨⟨o, ho, -⟩, hleft, hfree⟩ := h.give_back hb
  rw [Borrowing.freeConnection, ho] at hrun
  split at hrun
  · next hmem =>
    obtain ⟨-, -, hrun⟩ := bind_eq_ok.1 hrun
    obtain ⟨⟨pool', result⟩, hrec, hrun⟩ := bind_eq_ok.1 hrun
    obtain ⟨rfl, rfl⟩ := mk.inj (ok.inj hrun)
    exact ⟨(hleft.recreate hmem hfree hconnects hrec).1, fun conn' h' => mem_singleton.1 h'⟩
  · obtain ⟨rfl, rfl⟩ := mk.inj (ok.inj hrun)
    exact ⟨hleft, nofun⟩

theorem Inv.step (h : Inv σ) (hrec : e.Reconnects) (htimely : Timely σ e)
    (hrun : stepClosing σ e = .ok (σ', closed)) :
    Inv σ' ∧ ∀ conn ∈ closed, ∀ b, (σ.phase b).conn = some conn → e.givesBack = some b := by
  -- a borrower that gives its connection back is the only one to hold it
  have hback : ∀ b conn, σ.phase b = .holding conn → (∀ conn' ∈ closed, conn' = conn) →
      ∀ conn' ∈ closed, ∀ b', (σ.phase b').conn = some conn' → some b = some b' := by
    intro b conn hb hclosed conn' hc b' hb'
    rw [hclosed conn' hc] at hb'
    exact congrArg some (h.alone b b' conn (by rw [hb]; rfl) hb')
  cases e with
  | getAvailableConnection b call | doRedisCommandOneConnection b call =>
    obtain ⟨hinv, hclosed⟩ := h.borrow hrec rfl htimely hrun
    exact ⟨hinv, fun conn hc b' hb' => absurd ⟨b', hb'⟩ (hclosed conn hc)⟩
  | openTmp b call =>
    rw [stepClosing] at hrun
    split at hrun
    · split at hrun
      · cases hrun
      · next hb hdead =>
        obtain ⟨rfl, rfl⟩ := mk.inj (ok.inj hrun)
        have hnew : ¬ Held σ call.fresh := fun hc => hdead (h.held _ hc)
        have hout : call.fresh ∉ σ.pool.connections ++ σ.pool.tmpConnections :=
          fun hc => hdead (h.alive _ hc)
        have hset := h.setObject call.fresh
          (if call.connects then { connectTime := call.currentTime } else {}) (fun _ _ => hnew)
        refine ⟨hset.give b _ ?_ hnew (by simp) ?_ fun _ => hout, nofun⟩
        · cases call.connects <;> rfl
        · exact fun hc => absurd (mem_append_left _ hc) hout
    · cases hrun
  | pushTmp b =>
    rw [stepClosing] at hrun
    split at hrun
    · next conn hb =>
      obtain ⟨rfl, rfl⟩ := mk.inj (ok.inj hrun)
      have hconn : (σ.phase b).conn = some conn := by rw [hb]; rfl
      have hout := h.pushing b conn hb
      have hfree := h.not_held_of_leave .idle hconn rfl
      have hadd := (h.leave b .idle rfl).addTmp hout (h.held conn ⟨b, hconn⟩) hfree
      have hgive := hadd.give b (.holding conn) rfl hfree (h.held conn ⟨b, hconn⟩)
        (fun hc => absurd (mem_append_left _ hc) hout) nofun
      refine ⟨?_, nofun⟩
      simpa [System.move] using hgive
    · cases hrun
  | setCanRelease b canRelease =>
    rw [stepClosing] at hrun
    split at hrun
    · next conn hb =>
      have hheld : Held σ conn := ⟨b, by rw [hb]; rfl⟩
      obtain ⟨⟨o, hderef, ho⟩, -⟩ := h.give_back hb
      rw [hderef] at hrun
      obtain ⟨rfl, rfl⟩ := mk.inj (ok.inj hrun)
      refine ⟨h.setObject conn { o with canRelease } ?_, nofun⟩
      intro hmem havail
      have hbusy := h.busy conn hmem hheld
      rw [ho] at hbusy
      exact absurd havail (by simpa using hbusy)
    · cases hrun
  | releaseConnection b =>
    rw [stepClosing] at hrun
    split at hrun
    · next conn hb =>
      obtain ⟨⟨pool, closed'⟩, hrel, hrun⟩ := bind_eq_ok.1 hrun
      obtain ⟨rfl, rfl⟩ := mk.inj (ok.inj hrun)
      obtain ⟨hinv, hclosed⟩ := h.release hb hrel
      exact ⟨hinv, hback b conn hb hclosed⟩
    · cases hrun
  | freeConnection b call =>
    rw [stepClosing] at hrun
    split at hrun
    · next conn hb =>
      obtain ⟨⟨pool, closed'⟩, hfree, hrun⟩ := bind_eq_ok.1 hrun
      obtain ⟨rfl, rfl⟩ := mk.inj (ok.inj hrun)
      obtain ⟨hinv, hclosed⟩ := h.free hb hrec hfree
      exact ⟨hinv, hback b conn hb hclosed⟩
    · cases hrun

end Step

/-! ### Runs -/

theorem exclusive_iff_timely (connections : List ℕ) (hnodup : connections.Nodup) (events : List (Event B))
    (hevents : Lts.Along step (fun σ e => Possible σ e ∧ e.Reconnects) (start connections) events) :
    Lts.Along step Exclusive (start connections) events ↔
      Lts.Along step Timely (start connections) events := by
  refine Lts.Along.iff_of_invariant ?_ (inv_start hnodup) hevents
  rintro σ e h ⟨hpossible, hrec⟩
  -- an event that can happen leads to a state, since it is defined
  obtain ⟨σ', closed, hrun⟩ : ∃ σ' closed, stepClosing σ e = .ok (σ', closed) := by
    cases hrun : stepClosing σ e with
    | ok r => exact ⟨r.1, r.2, rfl⟩
    | error failure =>
      cases failure with
      | undefined => exact absurd hrun (h.defined e)
      | impossible => exact absurd hrun hpossible
  have hstep : step σ e = some σ' := by rw [step, hrun]
  refine ⟨⟨fun hexcl => ?_, fun htimely => ⟨h.defined e, ?_⟩⟩, fun htimely τ hτ => ?_⟩
  · obtain ⟨-, hclosed⟩ := hexcl.2 σ' closed hrun
    have hborrow : ∀ b call nothing, borrow σ b call nothing = .ok (σ', closed) → e.givesBack = none →
        Timely σ (.getAvailableConnection b call) := by
      intro b call nothing hborrow hback
      obtain ⟨pool, result, hget, -⟩ := borrow_eq_ok hborrow
      have hfree : ∀ conn ∈ closed, ¬ Held σ conn := by
        rintro conn hc ⟨b', hb'⟩
        exact nomatch hback.symm.trans (hclosed conn hc b' hb')
      exact ⟨fun conn hmem hold => hfree conn ((h.get_closed hget conn).2 (Or.inl ⟨hmem, hold⟩)),
        fun conn hre => hfree conn ((h.get_closed hget conn).2 (Or.inr hre))⟩
    cases e with
    | getAvailableConnection b call | doRedisCommandOneConnection b call => exact hborrow b call _ hrun rfl
    | _ => trivial
  · intro τ closed' hτ
    obtain ⟨rfl, rfl⟩ := mk.inj (ok.inj (hrun.symm.trans hτ))
    obtain ⟨hinv, hclosed⟩ := h.step hrec htimely hrun
    exact ⟨hinv.alone, hclosed⟩
  · obtain rfl := Option.some.inj (hstep.symm.trans hτ)
    exact (h.step hrec htimely hrun).1

theorem exclusive_iff_timely_sample :
    let events : List (Event Bool) :=
      [.getAvailableConnection false ⟨0, 2, true⟩, .releaseConnection false,
        .getAvailableConnection true ⟨30, 2, true⟩]
    Lts.Along step Exclusive (start [1]) events := by
  intro events
  refine (exclusive_iff_timely [1] (by simp) events ?_).2 ?_
  · refine ⟨⟨nofun, rfl⟩, ?_⟩
    rintro _ ⟨⟩
    refine ⟨⟨nofun, trivial⟩, ?_⟩
    rintro _ ⟨⟩
    exact ⟨⟨nofun, rfl⟩, fun _ _ => trivial⟩
  · refine ⟨⟨nofun, nofun⟩, ?_⟩
    rintro _ ⟨⟩
    refine ⟨trivial, ?_⟩
    rintro _ ⟨⟩
    exact ⟨⟨nofun, nofun⟩, fun _ _ => trivial⟩

theorem lent_twice :
    let events : List (Event Bool) :=
      [.getAvailableConnection false ⟨0, 2, true⟩, .getAvailableConnection true ⟨10, 1, true⟩]
    (Lts.run step (start [1]) events).map (fun σ => (σ.phase false, σ.phase true)) =
      some (.holding 1, .holding 1) ∧ ¬ Lts.Along step Exclusive (start [1]) events := by
  intro events
  refine ⟨rfl, ?_⟩
  rintro ⟨-, hrest⟩
  obtain ⟨⟨-, hexcl⟩, -⟩ := hrest _ rfl
  obtain ⟨halone, -⟩ := hexcl _ _ rfl
  exact absurd (halone false true 1 rfl rfl) (by decide)

end Borrowing

end GBDownLinker
