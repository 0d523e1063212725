/-
**The read-write lock of the restorer (`rwmutex.cpp`).**

`RWMutex` keeps one signed counter: the number of readers, or `-1` for a writer.  Unless `m_maxOperationNumber` is
one, a `ReadGuard` writes, and a `WriteGuard` counts itself with `acquireCertainWrite(1)`, whose test does not see
the `-1` of a writer.  An event is what a thread does between a lock and an unlock or a wait.
-/

import BackendProgramming.Lts

set_option autoImplicit false

namespace GBDownLinker

open List Option

/-! ### The lock -/

structure RWMutex where
  maxOperationNumber : ℤ := 1
  refCount : ℤ := 0
  numWaitingWriters : ℤ := 0
  numWaitingReads : ℤ := 0
  deriving DecidableEq, Repr

inductive Acquire where
  | read
  | write
  | certainWrite (num : ℤ)
  deriving DecidableEq, Repr

inductive Signal where
  | nothing
  | waitingWriters
  | waitingReads
  deriving DecidableEq, Repr

def increment (n : ℤ) : Option ℤ := if n < 2 ^ 31 - 1 then some (n + 1) else none

namespace RWMutex

def blocked (m : RWMutex) : Acquire → Bool
  | .read => m.refCount < 0 || m.numWaitingWriters > 0
  | .write => m.refCount != 0
  | .certainWrite num => m.refCount ≥ num

def wait (m : RWMutex) : Acquire → Option RWMutex
  | .read => (increment m.numWaitingReads).map fun n => { m with numWaitingReads := n }
  | _ => (increment m.numWaitingWriters).map fun n => { m with numWaitingWriters := n }

def woken (m : RWMutex) : Acquire → RWMutex
  | .read => { m with numWaitingReads := m.numWaitingReads - 1 }
  | _ => { m with numWaitingWriters := m.numWaitingWriters - 1 }

def enter (m : RWMutex) : Acquire → Option RWMutex
  | .write => some { m with refCount := -1 }
  | _ => (increment m.refCount).map fun n => { m with refCount := n }

def acquire (m : RWMutex) (a : Acquire) : Option (Bool × RWMutex) :=
  if m.blocked a then (m.wait a).map (false, ·) else (m.enter a).map (true, ·)

def drop (m : RWMutex) : Option RWMutex :=
  if m.refCount > 0 then some { m with refCount := m.refCount - 1 }
  else if m.refCount = -1 then some { m with refCount := 0 }
  else none

def releaseCertain (m : RWMutex) : Option (RWMutex × Signal) :=
  m.drop.map fun m => (m, if m.numWaitingWriters > 0 then .waitingWriters else .nothing)

def release (m : RWMutex) : Option (RWMutex × Signal) :=
  m.drop.map fun m =>
    (m, if m.numWaitingWriters > 0 ∧ m.refCount = 0 then .waitingWriters
      else if m.numWaitingReads > 0 ∧ m.numWaitingWriters = 0 then .waitingReads
      else .nothing)

end RWMutex

/-! ### The guards -/

inductive GuardKind where
  | read
  | write
  deriving DecidableEq, Repr

def GuardKind.acquire (max : ℤ) : GuardKind → Acquire
  | .read => if max = 1 then .read else .write
  | .write => if max = 1 then .write else .certainWrite 1

def destructorRelease (m : RWMutex) : Option (RWMutex × Signal) :=
  if m.maxOperationNumber = 1 then m.release else m.releaseCertain

abbrev Guard := ℕ × GuardKind

structure RwSystem where
  mutex : RWMutex
  leftLocked : Bool := false
  waiting : List Guard := []
  guards : List Guard := []
  deriving DecidableEq

inductive RwEvent where
  | construct (g : Guard)
  | wake (g : Guard)
  | destroy (g : Guard)
  deriving DecidableEq

def RwSystem.turn (s : RwSystem) (m : RWMutex) (g : Guard) : Option RwSystem :=
  (m.acquire (g.2.acquire m.maxOperationNumber)).map fun x =>
    if x.1 then { s with mutex := x.2, guards := g :: s.guards }
    else { s with mutex := x.2, waiting := g :: s.waiting }

def RwSystem.step (s : RwSystem) : RwEvent → Option RwSystem
  | .construct g => if s.leftLocked then none else s.turn s.mutex g
  | .wake g =>
    if s.leftLocked ∨ g ∉ s.waiting then none
    else { s with waiting := s.waiting.erase g }.turn
      (s.mutex.woken (g.2.acquire s.mutex.maxOperationNumber)) g
  | .destroy g =>
    if s.leftLocked ∨ g ∉ s.guards then none
    else
      match destructorRelease s.mutex with
      -- the signal has no effect of its own, since a waiting guard may wake without it
      | some (m, _) => some { s with mutex := m, guards := s.guards.erase g }
      | none => some { s with leftLocked := true, guards := s.guards.erase g }

def RwSystem.start (max : ℤ) : RwSystem := ⟨{ maxOperationNumber := max }, false, [], []⟩

def RwSystem.Exclusive (s : RwSystem) : Prop := ∀ g ∈ s.guards, g.2 = .write → s.guards = [g]

instance (s : RwSystem) : Decidable s.Exclusive := inferInstanceAs (Decidable (∀ _ ∈ _, _))

/-! ### The counter -/

structure Counted (s : RwSystem) : Prop where
  max_eq : s.mutex.maxOperationNumber = 1
  unlocked : s.leftLocked = false
  held : ((∀ g ∈ s.guards, g.2 = .read) ∧ s.mutex.refCount = s.guards.length) ∨
    ∃ g, g.2 = .write ∧ s.guards = [g] ∧ s.mutex.refCount = -1

section Counted

variable {s s' : RwSystem} {m m' : RWMutex} {g : Guard}

theorem Counted.exclusive (h : Counted s) : s.Exclusive := by
  intro g hg hwrite
  rcases h.held with ⟨hread, -⟩ | ⟨g', -, hguards, -⟩
  · rw [hread g hg] at hwrite
    cases hwrite
  · rw [hguards, mem_singleton] at hg
    rw [hguards, hg]

theorem acquire_cases {a : Acquire} {taken : Bool} (h : m.acquire a = some (taken, m')) :
    m'.maxOperationNumber = m.maxOperationNumber ∧
      (taken = false ∧ m'.refCount = m.refCount ∨
        taken = true ∧ m.blocked a = false ∧ m'.refCount = if a = .write then -1 else m.refCount + 1) := by
  rw [RWMutex.acquire] at h
  split at h
  · obtain ⟨w, hw, heq⟩ := map_eq_some_iff.1 h
    cases heq
    cases a with
    | read =>
      obtain ⟨n, -, rfl⟩ := map_eq_some_iff.1 hw
      exact ⟨rfl, .inl ⟨rfl, rfl⟩⟩
    | write =>
      obtain ⟨n, -, rfl⟩ := map_eq_some_iff.1 hw
      exact ⟨rfl, .inl ⟨rfl, rfl⟩⟩
    | certainWrite num =>
      obtain ⟨n, -, rfl⟩ := map_eq_some_iff.1 hw
      exact ⟨rfl, .inl ⟨rfl, rfl⟩⟩
  · next hfree =>
    obtain ⟨w, hw, heq⟩ := map_eq_some_iff.1 h
    cases heq
    rw [Bool.not_eq_true] at hfree
    have hcount : ∀ {n : ℤ}, increment m.refCount = some n → n = m.refCount + 1 := by
      intro n hn
      rw [increment] at hn
      split at hn
      · exact (some.inj hn).symm
      · cases hn
    cases a with
    | write =>
      cases hw
      exact ⟨rfl, .inr ⟨rfl, hfree, rfl⟩⟩
    | read =>
      obtain ⟨n, hn, rfl⟩ := map_eq_some_iff.1 hw
      exact ⟨rfl, .inr ⟨rfl, hfree, hcount hn⟩⟩
    | certainWrite num =>
      obtain ⟨n, hn, rfl⟩ := map_eq_some_iff.1 hw
      exact ⟨rfl, .inr ⟨rfl, hfree, hcount hn⟩⟩

theorem Counted.turn (h : Counted s) (hmax : m.maxOperationNumber = 1) (hcount : m.refCount = s.mutex.refCount)
    (hturn : s.turn m g = some s') : Counted s' := by
  obtain ⟨⟨taken, m'⟩, hacquire, rfl⟩ := map_eq_some_iff.1 hturn
  obtain ⟨hmax', hcases⟩ := acquire_cases hacquire
  rcases hcases with ⟨rfl, hsame⟩ | ⟨rfl, hfree, hnew⟩
  · refine ⟨hmax'.trans hmax, h.unlocked, ?_⟩
    have hheld := h.held
    rw [← hcount, ← hsame] at hheld
    exact hheld
  · refine ⟨hmax'.trans hmax, h.unlocked, ?_⟩
    dsimp only
    rw [if_pos rfl]
    obtain ⟨n, kind⟩ := g
    cases kind with
    | read =>
      -- the counter is not negative, so that all guards are readers
      have hread : GuardKind.acquire m.maxOperationNumber .read = .read := if_pos hmax
      rw [hread] at hfree hnew
      have hpos : ¬ m.refCount < 0 := by
        intro hneg
        simp [RWMutex.blocked, hneg] at hfree
      rcases h.held with ⟨hall, hlen⟩ | ⟨g', -, -, hneg⟩
      · refine .inl ⟨?_, ?_⟩
        · intro g' hg'
          rcases mem_cons.1 hg' with rfl | hg'
          · rfl
          · exact hall g' hg'
        · rw [hnew, if_neg (by simp), hcount, hlen]
          simp
      · omega
    | write =>
      have hwrite : GuardKind.acquire m.maxOperationNumber .write = .write := if_pos hmax
      rw [hwrite] at hfree hnew
      have hzero : m.refCount = 0 := by simpa [RWMutex.blocked] using hfree
      rcases h.held with ⟨-, hlen⟩ | ⟨g', -, -, hneg⟩
      · have hnone : s.guards = [] := length_eq_zero_iff.1 (by omega)
        exact .inr ⟨_, rfl, by rw [hnone], hnew⟩
      · omega

theorem Counted.destroy (h : Counted s) (hg : g ∈ s.guards) :
    ∃ m signal, destructorRelease s.mutex = some (m, signal) ∧
      Counted { s with mutex := m, guards := s.guards.erase g } := by
  have hrelease : destructorRelease s.mutex = s.mutex.release := if_pos h.max_eq
  rw [hrelease, RWMutex.release, RWMutex.drop]
  rcases h.held with ⟨hall, hlen⟩ | ⟨g', -, hguards, hneg⟩
  · have hpos : 0 < s.guards.length := length_pos_of_mem hg
    rw [if_pos (by omega)]
    refine ⟨_, _, rfl, h.max_eq, h.unlocked, .inl ⟨fun g' hg' => hall g' (mem_of_mem_erase hg'), ?_⟩⟩
    simp only [length_erase_of_mem hg, hlen]
    omega
  · rw [if_neg (by omega), if_pos hneg]
    refine ⟨_, _, rfl, h.max_eq, h.unlocked, .inl ?_⟩
    rw [hguards, mem_singleton] at hg
    subst hg
    simp [hguards]

theorem Counted.step {e : RwEvent} (h : Counted s) (hstep : s.step e = some s') : Counted s' := by
  cases e with
  | construct g =>
    rw [RwSystem.step, if_neg (by simp [h.unlocked])] at hstep
    exact h.turn h.max_eq rfl hstep
  | wake g =>
    rw [RwSystem.step] at hstep
    split at hstep
    · cases hstep
    · have hsame : Counted { s with waiting := s.waiting.erase g } := ⟨h.max_eq, h.unlocked, h.held⟩
      refine hsame.turn ?_ ?_ hstep
      · cases GuardKind.acquire s.mutex.maxOperationNumber g.2 <;> exact h.max_eq
      · cases GuardKind.acquire s.mutex.maxOperationNumber g.2 <;> rfl
  | destroy g =>
    rw [RwSystem.step] at hstep
    split at hstep
    · cases hstep
    · next hguard =>
      have hg : g ∈ s.guards := by
        by_contra hnot
        exact hguard (.inr hnot)
      obtain ⟨m, signal, hrelease, hcounted⟩ := h.destroy hg
      rw [hrelease] at hstep
      cases hstep
      exact hcounted

end Counted

theorem counted_start : Counted (RwSystem.start 1) := ⟨rfl, rfl, .inl ⟨by simp [RwSystem.start], rfl⟩⟩

theorem run_read_write {max : ℤ} (hmax : max ≠ 1) :
    Lts.run RwSystem.step (RwSystem.start max) [.construct (0, .read), .construct (1, .write)] =
      some ⟨{ maxOperationNumber := max }, false, [], [(1, .write), (0, .read)]⟩ := by
  simp [Lts.run, RwSystem.step, RwSystem.start, RwSystem.turn, GuardKind.acquire, hmax, RWMutex.acquire,
    RWMutex.blocked, RWMutex.enter, increment]

theorem guards_exclusive_iff (max : ℤ) :
    (∀ es s, Lts.run RwSystem.step (RwSystem.start max) es = some s → s.Exclusive) ↔ max = 1 := by
  constructor
  · intro h
    by_contra hmax
    have hboth := h _ _ (run_read_write hmax) (1, .write) (by simp) rfl
    simp at hboth
  · rintro rfl es s hrun
    have hcounted : Counted s :=
      Lts.run_invariant (G := fun _ _ => True) (fun _ _ _ h _ hstep => h.step hstep) counted_start
        (Lts.Along.of_true _ es) hrun
    exact hcounted.exclusive

theorem write_beside_read :
    ∃ s, Lts.run RwSystem.step (RwSystem.start 2) [.construct (0, .read), .construct (1, .write)] = some s ∧
      (0, .read) ∈ s.guards ∧ (1, .write) ∈ s.guards ∧ ¬ s.Exclusive :=
  ⟨_, rfl, by decide, by decide, by decide⟩

end GBDownLinker
