/-
**The lists of a connection pool and the objects they point to.**

What is deleted has to leave the lists.  It does so except on two failure paths: `initConnectPool` deletes all
connections when one cannot be opened, and the list keeps their addresses; and a place keeps the address of the
connection that was to be replaced if the new one cannot connect.
-/

import BackendProgramming.PoolBorrowing

set_option autoImplicit false

namespace GBDownLinker

open Function List Option Except

namespace Borrowing

/-! ### The functions -/

def deleteAll : List ℕ → Heap → Except Failure Heap
  | [], heap => .ok heap
  | conn :: rest, heap => do
    let _ ← deref heap conn
    deleteAll rest (update heap conn none)

def initConnectPool (pool : Pool) : List (ℕ × Bool) → Except Failure (Pool × Bool)
  | [] => .ok (pool, true)
  | (fresh, connects) :: rest =>
    if (pool.heap fresh).isSome then .error .impossible
    else if connects then
      initConnectPool
        { pool with
          connections := pool.connections ++ [fresh]
          heap := update pool.heap fresh (some { available := true }) } rest
    else do
      let heap ← deleteAll pool.connections pool.heap
      .ok ({ pool with heap }, false)

def freeConnectPool (pool : Pool) : Except Failure Pool := do
  let heap ← deleteAll pool.connections pool.heap
  let heap ← deleteAll pool.tmpConnections heap
  .ok { connections := [], tmpConnections := [], heap }

/-! ### Sequences of calls -/

inductive PoolOp where
  | initConnectPool (attempts : List (ℕ × Bool))
  | getAvailableConnection (call : Call)
  | releaseConnection (conn : ℕ)
  | freeConnection (conn : ℕ) (call : Call)
  | freeConnectPool
  deriving DecidableEq, Repr

def Pool.exec (pool : Pool) : PoolOp → Except Failure (Pool × Option ℕ)
  | .initConnectPool attempts => (initConnectPool pool attempts).map fun r => (r.1, none)
  | .getAvailableConnection call => (getAvailableConnection pool call).map fun r => (r.1, r.2.1)
  | .releaseConnection conn => (releaseConnection pool conn).map fun r => (r.1, none)
  | .freeConnection conn call => (freeConnection pool conn call).map fun r => (r.1, none)
  | .freeConnectPool => (freeConnectPool pool).map fun pool => (pool, none)

structure Lending where
  pool : Pool
  held : List ℕ := []

namespace Lending

def new : Lending := ⟨⟨[], [], fun _ => none⟩, []⟩

def givenBack (held : List ℕ) : PoolOp → List ℕ
  | .releaseConnection conn => held.erase conn
  | .freeConnection conn _ => held.erase conn
  | _ => held

def exec (s : Lending) (op : PoolOp) : Except Failure Lending :=
  (s.pool.exec op).map fun r => ⟨r.1, givenBack s.held op ++ r.2.toList⟩

def step (s : Lending) (op : PoolOp) : Option Lending :=
  match s.exec op with
  | .ok s' => some s'
  | .error _ => none

end Lending

def Pool.stored (pool : Pool) : List ℕ := pool.connections ++ pool.tmpConnections

namespace Lending

structure Integrity (s : Lending) : Prop where
  alive : ∀ conn ∈ s.pool.stored, (s.pool.heap conn).isSome = true
  nodup : s.pool.stored.Nodup
  owned : ∀ conn, (s.pool.heap conn).isSome = true → conn ∈ s.pool.stored ∨ conn ∈ s.held

def Intact (s : Lending) (op : PoolOp) : Prop :=
  s.exec op ≠ .error .undefined ∧ ∀ s', s.step op = some s' → s'.Integrity

def Possible (s : Lending) (op : PoolOp) : Prop := s.exec op ≠ .error .impossible

def Clean (s : Lending) : PoolOp → Prop
  | .initConnectPool attempts =>
    (∀ a ∈ attempts, a.2 = true) ∨ (s.pool.connections = [] ∧ ∃ a ∈ attempts.head?, a.2 = false)
  | .getAvailableConnection call =>
    ∀ conn, reclaimed s.pool call.currentTime = some conn → call.connects = true ∨ call.fresh = conn
  | .freeConnection conn call =>
    conn ∈ s.pool.connections → call.connects = true ∨ call.fresh = conn
  | .releaseConnection _ => True
  | .freeConnectPool => True

end Lending

/-! ### What each function does -/

namespace Pool

structure Sound (pool : Pool) : Prop where
  nodup : pool.stored.Nodup
  exists_iff : ∀ conn, (pool.heap conn).isSome = true ↔ conn ∈ pool.stored

def Dangling (pool : Pool) : Prop := ∃ conn ∈ pool.stored, pool.heap conn = none

def Outcome (run : Except Failure Pool) (clean : Prop) : Prop :=
  run ≠ .error .undefined ∧
    ∀ pool, run = .ok pool → (clean → pool.Sound) ∧ (¬ clean → pool.Dangling)

variable {pool : Pool} {conn : ℕ} {call : Call} {clean clean' : Prop}

theorem Outcome.congr {run run' : Except Failure Pool} (h : Outcome run clean) (hrun : run' = run)
    (hiff : clean ↔ clean') : Outcome run' clean' := by
  rwa [hrun, ← hiff]

theorem outcome_impossible : Outcome (.error .impossible) clean :=
  ⟨by simp, fun pool hrun => by cases hrun⟩

theorem outcome_sound (h : pool.Sound) (hclean : clean) : Outcome (.ok pool) clean := by
  refine ⟨by simp, fun pool' hrun => ?_⟩
  cases hrun
  exact ⟨fun _ => h, fun hno => absurd hclean hno⟩

theorem outcome_dangling (h : pool.Dangling) (hclean : ¬ clean) : Outcome (.ok pool) clean := by
  refine ⟨by simp, fun pool' hrun => ?_⟩
  cases hrun
  exact ⟨fun hyes => absurd hyes hclean, fun _ => h⟩

theorem sound_new : Lending.new.pool.Sound where
  nodup := nodup_nil
  exists_iff := fun conn => by simp [stored, Lending.new]

theorem deleteAll_eq {l : List ℕ} {heap : Heap} (hnodup : l.Nodup)
    (halive : ∀ conn ∈ l, (heap conn).isSome = true) :
    deleteAll l heap = .ok fun conn => if conn ∈ l then none else heap conn := by
  induction l generalizing heap with
  | nil => simp [deleteAll]
  | cons conn l ih =>
    obtain ⟨hnew, hnodup⟩ := nodup_cons.1 hnodup
    obtain ⟨o, ho⟩ := isSome_iff_exists.1 (halive conn (mem_cons_self ..))
    rw [deleteAll, deref_eq ho]
    refine (ih hnodup fun conn' hc => ?_).trans (congrArg ok (funext fun conn' => ?_))
    · have hne : conn' ≠ conn := fun heq => hnew (heq ▸ hc)
      rw [update_of_ne hne]
      exact halive conn' (mem_cons_of_mem _ hc)
    · by_cases heq : conn' = conn <;> simp [heq]

namespace Sound

theorem alive (h : pool.Sound) (hmem : conn ∈ pool.stored) : (pool.heap conn).isSome = true :=
  (h.exists_iff conn).2 hmem

theorem exists_object (h : pool.Sound) (hmem : conn ∈ pool.stored) : ∃ o, pool.heap conn = some o :=
  isSome_iff_exists.1 (h.alive hmem)

theorem toInv (h : pool.Sound) : Inv (⟨pool, fun _ => .idle⟩ : System Unit) where
  nodup := h.nodup
  alive := fun _ hmem => h.alive hmem
  held := by rintro conn ⟨b, hb⟩; simp [Phase.conn] at hb
  busy := by rintro conn - ⟨b, hb⟩; simp [Phase.conn] at hb
  alone := by intro b b' conn hb; simp [Phase.conn] at hb
  pushing := by intro b conn hb; simp at hb

theorem setObject (h : pool.Sound) (hmem : conn ∈ pool.stored) (o : PooledConnection) :
    Sound { pool with heap := update pool.heap conn (some o) } where
  nodup := h.nodup
  exists_iff := by
    intro conn'
    show (update pool.heap conn (some o) conn').isSome = true ↔ conn' ∈ pool.stored
    by_cases heq : conn' = conn
    · simp [heq, hmem]
    · simpa [heq] using h.exists_iff conn'

theorem reaped (h : pool.Sound) (currentTime : UInt32) : (reaped pool currentTime).Sound where
  nodup := h.nodup.sublist (filter_sublist.append_left _)
  exists_iff := by
    intro conn
    have hstored := h.exists_iff conn
    have hapart : conn ∈ pool.connections → conn ∉ pool.tmpConnections := fun hc ht =>
      (nodup_append.1 h.nodup).2.2 conn hc conn ht rfl
    simp only [stored, Borrowing.reaped, mem_append, mem_filter, Bool.not_eq_true'] at hstored ⊢
    by_cases hold : conn ∈ pool.tmpConnections ∧ (pool.heap conn).any (expired currentTime) = true
    · simp [hold, mt hapart (not_not.2 hold.1)]
    · rw [if_neg hold, hstored, ← Bool.not_eq_true]
      tauto

theorem push {fresh : ℕ} (h : pool.Sound) (hfree : pool.heap fresh = none) (o : PooledConnection) :
    Sound { pool with
      connections := pool.connections ++ [fresh]
      heap := update pool.heap fresh (some o) } := by
  have hnew : fresh ∉ pool.stored := fun hmem => by simpa [hfree] using h.alive hmem
  have hperm : (pool.connections ++ [fresh] ++ pool.tmpConnections).Perm (fresh :: pool.stored) := by
    rw [append_assoc]
    exact perm_middle
  refine ⟨hperm.nodup_iff.2 (nodup_cons.2 ⟨hnew, h.nodup⟩), fun conn => ?_⟩
  refine Iff.trans ?_ hperm.mem_iff.symm
  by_cases heq : conn = fresh
  · simp [heq]
  · simpa [heq] using h.exists_iff conn

theorem replaced {fresh : ℕ} (h : pool.Sound) (hmem : conn ∈ pool.connections)
    (hfree : update pool.heap conn none fresh = none) (o : PooledConnection) :
    Sound { pool with
      connections := pool.connections.replace conn fresh
      heap := update (update pool.heap conn none) fresh (some o) } := by
  obtain ⟨hnodup, -, hapart⟩ := nodup_append.1 h.nodup
  have hnew : ∀ x ∈ pool.stored, x ≠ conn → x ≠ fresh := by
    rintro x hx hne rfl
    rw [update_of_ne hne] at hfree
    simpa [hfree] using h.alive hx
  refine ⟨nodup_replace_append h.nodup hmem hnew, fun x => ?_⟩
  have hne : x ∈ pool.tmpConnections → x ≠ conn := fun hx heq => hapart conn hmem x hx heq.symm
  have hstored := h.exists_iff x
  simp only [stored, mem_append, mem_replace_iff hnodup hmem] at hstored ⊢
  by_cases hxf : x = fresh
  · simp [hxf]
  · rw [update_of_ne hxf]
    by_cases hxc : x = conn
    · subst hxc
      simpa [hxf] using fun hx => hne hx rfl
    · rw [update_of_ne hxc, hstored]
      tauto

theorem recreate (h : pool.Sound) (hmem : conn ∈ pool.connections) (call : Call) :
    Outcome ((recreate pool conn call).map Prod.fst) (call.connects = true ∨ call.fresh = conn) := by
  rw [Borrowing.recreate]
  by_cases hfree : update pool.heap conn none call.fresh = none
  · simp only [hfree, isSome_none, Bool.false_eq_true, if_false]
    by_cases hconnects : call.connects = true
    · simp only [hconnects, if_true]
      exact outcome_sound (h.replaced hmem hfree _) (Or.inl trivial)
    · simp only [hconnects, Bool.false_eq_true, if_false, false_or]
      by_cases hsame : call.fresh = conn
      · simp only [hsame, update_idem]
        exact outcome_sound (h.setObject (mem_append_left _ hmem) _) trivial
      · refine outcome_dangling ⟨conn, mem_append_left _ hmem, ?_⟩ hsame
        simp [Ne.symm hsame]
  · simp only [isSome_iff_ne_none.2 hfree, if_true]
    exact outcome_impossible

theorem initConnectPool (h : pool.Sound) (attempts : List (ℕ × Bool)) :
    Outcome ((initConnectPool pool attempts).map Prod.fst)
      ((∀ a ∈ attempts, a.2 = true) ∨ (pool.connections = [] ∧ ∃ a ∈ attempts.head?, a.2 = false)) := by
  induction attempts generalizing pool with
  | nil => exact outcome_sound h (Or.inl fun a ha => absurd ha not_mem_nil)
  | cons attempt rest ih =>
    obtain ⟨fresh, connects⟩ := attempt
    rw [Borrowing.initConnectPool]
    by_cases hfree : pool.heap fresh = none
    · rw [if_neg (by simp [hfree])]
      cases connects with
      | true =>
        rw [if_pos rfl]
        exact (ih (h.push hfree { available := true })).congr rfl (by simp)
      | false =>
        rw [if_neg Bool.false_ne_true, deleteAll_eq (nodup_append.1 h.nodup).1
          fun conn hc => h.alive (mem_append_left _ hc)]
        cases hconns : pool.connections with
        | nil =>
          have hsame : (fun conn => if conn ∈ ([] : List ℕ) then none else pool.heap conn) =
              pool.heap := by simp
          rw [hsame]
          exact outcome_sound (hconns ▸ h) (Or.inr ⟨rfl, (fresh, false), rfl, rfl⟩)
        | cons conn conns =>
          refine outcome_dangling ⟨conn, ?_, ?_⟩ (by simp)
          · simp [stored]
          · simp
    · rw [if_pos (isSome_iff_ne_none.2 hfree)]
      exact outcome_impossible

theorem freeConnectPool (h : pool.Sound) : Outcome (freeConnectPool pool) True := by
  obtain ⟨hconns, htmp, hapart⟩ := nodup_append.1 h.nodup
  have hfirst := deleteAll_eq hconns fun conn hc => h.alive (mem_append_left _ hc)
  have hsecond : deleteAll pool.tmpConnections
      (fun conn => if conn ∈ pool.connections then none else pool.heap conn) = .ok fun _ => none := by
    refine (deleteAll_eq htmp fun conn hc => ?_).trans (congrArg ok (funext fun conn => ?_))
    · rw [if_neg fun hc' => hapart conn hc' conn hc rfl]
      exact h.alive (mem_append_right _ hc)
    · split
      · rfl
      · split
        · rfl
        · rename_i ht hc
          exact not_isSome_iff_eq_none.1 fun hsome =>
            (mem_append.1 ((h.exists_iff conn).1 hsome)).elim hc ht
  rw [Borrowing.freeConnectPool, hfirst]
  show Outcome (deleteAll pool.tmpConnections _ >>= _) True
  rw [hsecond]
  exact outcome_sound ⟨nodup_nil, fun conn => by simp [stored]⟩ trivial

theorem getAvailableConnection (h : pool.Sound) :
    Outcome ((getAvailableConnection pool call).map Prod.fst)
      (∀ conn, reclaimed pool call.currentTime = some conn →
        call.connects = true ∨ call.fresh = conn) := by
  have hdefined : Borrowing.getAvailableConnection pool call ≠ .error .undefined := h.toInv.get_defined
  cases hget : Borrowing.getAvailableConnection pool call with
  | error failure => exact ⟨fun hno => hdefined (hget.trans (congrArg _ (error.inj hno))), nofun⟩
  | ok r =>
    obtain ⟨conn, o, hmem, -, -, hre, hpool, -⟩ | ⟨conn, hre, hrec, -⟩ | ⟨hre, hpool, -⟩ :=
      h.toInv.get_cases hget
    · have hsound := (h.reaped call.currentTime).setObject (mem_append_left _ hmem)
        { o with available := false, connectTime := call.currentTime }
      exact outcome_sound (hpool ▸ hsound) fun conn' hconn' => nomatch hre.symm.trans hconn'
    · have hmem : conn ∈ pool.connections := reclaimed_mem hre
      refine ((h.reaped call.currentTime).recreate hmem call).congr ?_ (by simp [hre])
      rw [hrec]
      rfl
    · exact outcome_sound (hpool ▸ h.reaped _) fun conn' hconn' => nomatch hre.symm.trans hconn'

theorem releaseConnection (h : pool.Sound) (conn : ℕ) :
    Outcome ((releaseConnection pool conn).map Prod.fst) True := by
  rw [Borrowing.releaseConnection]
  split
  · rename_i hmem
    obtain ⟨o, ho⟩ := h.exists_object (mem_append_left _ hmem)
    rw [deref_eq ho]
    exact outcome_sound (h.setObject (mem_append_left _ hmem) _) trivial
  · rename_i hconns
    split
    · rename_i hmem
      obtain ⟨hnodup, htmp, hapart⟩ := nodup_append.1 h.nodup
      obtain ⟨o, ho⟩ := h.exists_object (mem_append_right _ hmem)
      rw [deref_eq ho]
      refine outcome_sound ⟨h.nodup.sublist (erase_sublist.append_left _), fun x => ?_⟩ trivial
      have hstored := h.exists_iff x
      simp only [stored, mem_append, htmp.mem_erase_iff] at hstored ⊢
      by_cases heq : x = conn
      · simp [heq, hconns]
      · simpa [heq] using hstored
    · exact outcome_sound h trivial

theorem freeConnection (h : pool.Sound) :
    Outcome ((freeConnection pool conn call).map Prod.fst)
      (conn ∈ pool.connections → call.connects = true ∨ call.fresh = conn) := by
  rw [Borrowing.freeConnection]
  split
  · rename_i hmem
    obtain ⟨o, ho⟩ := h.exists_object (mem_append_left _ hmem)
    rw [deref_eq ho]
    refine (h.recreate hmem call).congr ?_ (by simp [hmem])
    show Except.map Prod.fst (Borrowing.recreate pool conn call >>= _) = _
    cases Borrowing.recreate pool conn call <;> rfl
  · rename_i hmem
    exact outcome_sound h fun hc => absurd hc hmem

end Sound

theorem Sound.exec {s : Lending} (h : s.pool.Sound) (op : PoolOp) :
    Outcome ((s.pool.exec op).map Prod.fst) (s.Clean op) := by
  cases op with
  | initConnectPool attempts =>
    refine (h.initConnectPool attempts).congr ?_ Iff.rfl
    rw [Pool.exec]
    cases Borrowing.initConnectPool s.pool attempts <;> rfl
  | getAvailableConnection call =>
    refine h.getAvailableConnection.congr ?_ Iff.rfl
    rw [Pool.exec]
    cases Borrowing.getAvailableConnection s.pool call <;> rfl
  | releaseConnection conn =>
    refine (h.releaseConnection conn).congr ?_ Iff.rfl
    rw [Pool.exec]
    cases Borrowing.releaseConnection s.pool conn <;> rfl
  | freeConnection conn call =>
    refine h.freeConnection.congr ?_ Iff.rfl
    rw [Pool.exec]
    cases Borrowing.freeConnection s.pool conn call <;> rfl
  | freeConnectPool =>
    refine h.freeConnectPool.congr ?_ Iff.rfl
    rw [Pool.exec]
    cases Borrowing.freeConnectPool s.pool <;> rfl

end Pool

/-! ### Sequences of calls -/

theorem Pool.Sound.integrity {s : Lending} (h : s.pool.Sound) : s.Integrity where
  alive := fun _ hmem => h.alive hmem
  nodup := h.nodup
  owned := fun conn hexists => Or.inl ((h.exists_iff conn).1 hexists)

theorem Pool.Dangling.not_integrity {s : Lending} (h : s.pool.Dangling) : ¬ s.Integrity := by
  obtain ⟨conn, hmem, hnone⟩ := h
  intro hint
  simpa [hnone] using hint.alive conn hmem

theorem intact_iff {s : Lending} {op : PoolOp} (h : s.pool.Sound) (hpossible : s.Possible op) :
    (s.Intact op ↔ s.Clean op) ∧ (s.Clean op → ∀ s', s.step op = some s' → s'.pool.Sound) := by
  obtain ⟨hdefined, houtcome⟩ := h.exec op
  rw [Lending.Possible, Lending.exec] at hpossible
  simp only [Lending.Intact, Lending.step, Lending.exec]
  cases hrun : s.pool.exec op with
  | error failure =>
    rw [hrun] at hdefined hpossible
    cases failure with
    | undefined => exact absurd rfl hdefined
    | impossible => exact absurd rfl hpossible
  | ok r =>
    obtain ⟨hsound, hdangling⟩ := houtcome r.1 (by rw [hrun]; rfl)
    simp only [Except.map, some.injEq, forall_eq', ne_eq, reduceCtorEq, not_false_eq_true,
      true_and]
    refine ⟨⟨fun hint => by_contra fun hno => ?_, fun hclean => ?_⟩, hsound⟩
    · exact Pool.Dangling.not_integrity (hdangling hno) hint
    · exact Pool.Sound.integrity (hsound hclean)

theorem integrity_iff {s : Lending} (h : s.pool.Sound) (ops : List PoolOp)
    (hpossible : Lts.Along Lending.step Lending.Possible s ops) :
    Lts.Along Lending.step Lending.Intact s ops ↔ Lts.Along Lending.step Lending.Clean s ops :=
  Lts.Along.iff_of_invariant (fun _ _ hs hp => intact_iff hs hp) h hpossible

theorem integrity_lending :
    Lts.Along Lending.step Lending.Intact .new
      [.initConnectPool [(1, true)], .getAvailableConnection ⟨5, 2, true⟩, .releaseConnection 1,
        .freeConnectPool] := by
  refine (integrity_iff Pool.sound_new _ ?_).2 ?_
  · refine ⟨by rintro ⟨⟩, ?_⟩
    rintro _ ⟨⟩
    refine ⟨by rintro ⟨⟩, ?_⟩
    rintro _ ⟨⟩
    refine ⟨by rintro ⟨⟩, ?_⟩
    rintro _ ⟨⟩
    exact ⟨by rintro ⟨⟩, fun _ _ => trivial⟩
  · refine ⟨Or.inl (by simp), ?_⟩
    rintro _ ⟨⟩
    exact ⟨fun _ _ => Or.inl rfl, fun _ _ => ⟨trivial, fun _ _ => ⟨trivial, fun _ _ => trivial⟩⟩⟩

theorem failed_init_dangles :
    ∃ s, Lending.new.step (.initConnectPool [(1, true), (2, false)]) = some s ∧
      1 ∈ s.pool.connections ∧ s.pool.heap 1 = none ∧ ¬ s.Integrity ∧
      s.exec (.initConnectPool [(2, false)]) = .error .undefined := by
  refine ⟨_, rfl, mem_singleton_self 1, rfl, fun h => ?_, rfl⟩
  exact absurd (h.alive 1 (mem_singleton_self 1)) Bool.false_ne_true

end Borrowing

end GBDownLinker
