/-
**Who writes the status of the restorer.**

`workStatus_` has no lock.  Here every access to it is a transition of its own, so that any thread may come between
a test and the write that follows it: a callback may write after the restorer thread has left its loop.
-/

import BackendProgramming.RestorerQueue

set_option autoImplicit false

namespace GBDownLinker

open CText List Option Lts

namespace StatusMachine

/-! ### The system -/

section Model

variable (T : EntityTypes) (C : Type)

inductive Callback where
  | outside
  | testUnrecoverable (isNormal : Bool)
  | testNormal (isNormal : Bool)
  | setRecoverable
  | testRecoverable (isNormal : Bool)
  | setNormal
  | testNeedClear
  | testStarted
  | clearBackupData (calls : List (DataRestorerOperation T))
  deriving DecidableEq

inductive ThreadFunc where
  | absent
  | loop
  | testUnrecoverable
  | testRecoverable
  | counting
  | setUnrecoverable
  | clearing
  | assertNormal
  | waiting
  | inHand (op : DataRestorerOperation T)
  | exited
  deriving DecidableEq

structure State where
  workStatus : RestorerWorkStatus
  needClearBackupData : Bool := false
  starting : Bool := false
  started : Bool := false
  forceThreadExit : Bool := false
  queue : List (DataRestorerOperation T) := []
  thread : ThreadFunc T := .absent
  callbacks : C → Callback T := fun _ => .outside
  managerCalls : List (DataRestorerOperation T) := []

inductive Event where
  | report (c : C) (isNormal : Bool)
  | callback (c : C) (g : Bytes) (n : ℕ)
  | thread
  | push (op : DataRestorerOperation T)
  | start
  | startFails
  | startReturns
  | stop
  | stopReturns

end Model

variable {T : EntityTypes} {C : Type} [DecidableEq C]

def State.move (s : State T C) (c : C) (callback : Callback T) : State T C :=
  { s with callbacks := Function.update s.callbacks c callback }

def clearBackupData (g : Bytes) (n : ℕ) : List (DataRestorerOperation T) :=
  .clearDevice g :: .clearChannel g :: (range n).map fun idx => .clearInvite g idx

def callbackStep (s : State T C) (c : C) (g : Bytes) (n : ℕ) : Option (State T C) :=
  match s.callbacks c with
  | .outside => none
  | .testUnrecoverable isNormal =>
    some (s.move c (if s.workStatus = .unrecoverableException then .outside else .testNormal isNormal))
  | .testNormal isNormal =>
    some (s.move c (if s.workStatus = .normal ∧ isNormal = false then .setRecoverable
      else .testRecoverable isNormal))
  | .setRecoverable => some ({ s with workStatus := .recoverableException }.move c .outside)
  | .testRecoverable isNormal =>
    some (s.move c (if s.workStatus = .recoverableException ∧ isNormal = true then .setNormal
      else .outside))
  | .setNormal => some ({ s with workStatus := .normal }.move c .testNeedClear)
  | .testNeedClear => some (s.move c (if s.needClearBackupData then .testStarted else .outside))
  | .testStarted => some (s.move c (.clearBackupData (if s.started then clearBackupData g n else [])))
  | .clearBackupData [] => some ({ s with needClearBackupData := false }.move c .outside)
  | .clearBackupData (call :: calls) =>
    some ({ s with managerCalls := s.managerCalls ++ [call] }.move c (.clearBackupData calls))

def threadStep (asserts : Bool) (s : State T C) : Option (State T C) :=
  match s.thread with
  | .absent | .exited => none
  | .loop => some { s with thread := if s.forceThreadExit then .exited else .testUnrecoverable }
  | .testUnrecoverable =>
    some { s with
      thread := if s.workStatus = .unrecoverableException then .clearing else .testRecoverable }
  | .testRecoverable =>
    some { s with thread := if s.workStatus = .recoverableException then .counting else .assertNormal }
  | .counting =>
    some { s with
      thread := if Restorer.unrecoverableQueueThreshold < s.queue.length then .setUnrecoverable
        else .loop }
  | .setUnrecoverable => some { s with workStatus := .unrecoverableException, thread := .clearing }
  | .clearing => some { s with queue := [], thread := .exited }
  | .assertNormal =>
    if asserts = true ∧ s.workStatus ≠ .normal then none else some { s with thread := .waiting }
  | .waiting =>
    if s.forceThreadExit then some { s with thread := .exited }
    else
      match s.queue with
      | [] => some s
      | op :: queue => some { s with queue := queue, thread := .inHand op }
  | .inHand op => some { s with managerCalls := s.managerCalls ++ [op], thread := .loop }

def step (asserts : Bool) (s : State T C) : Event T C → Option (State T C)
  | .report c isNormal =>
    if s.callbacks c = .outside then some (s.move c (.testUnrecoverable isNormal)) else none
  | .callback c g n => callbackStep s c g n
  | .thread => threadStep asserts s
  | .push op => some { s with queue := s.queue ++ [op] }
  | .start =>
    if s.started = false ∧ s.starting = false ∧ s.workStatus ≠ .unrecoverableException then
      some { s with starting := true, thread := .loop }
    else none
  | .startFails =>
    -- there is no thread then, and none is created
    if s.started = false ∧ s.starting = false ∧ s.workStatus ≠ .unrecoverableException then
      some { s with workStatus := .unrecoverableException, thread := .absent }
    else none
  | .startReturns => if s.starting then some { s with starting := false, started := true } else none
  | .stop => if s.started then some { s with forceThreadExit := true } else none
  | .stopReturns =>
    if s.started = true ∧ s.forceThreadExit = true ∧ s.thread = .exited then
      some { s with started := false }
    else none

def State.Runs (s : State T C) : Prop := s.started = true ∨ s.starting = true

def Pending (s : State T C) (c : C) : Prop :=
  match s.callbacks c with
  | .setRecoverable | .setNormal | .clearBackupData (_ :: _) => True
  | .testNeedClear => s.needClearBackupData = true ∧ s.Runs
  | .testStarted => s.Runs
  | _ => False

/-! ### The restorer thread -/

def ThreadFunc.Leaving : ThreadFunc T → Prop
  | .absent | .loop | .testUnrecoverable | .clearing | .exited => True
  | _ => False

def Settled (s : State T C) : Prop := s.workStatus = .unrecoverableException → s.thread.Leaving

theorem callbackStep_thread {s s' : State T C} {c : C} {g : Bytes} {n : ℕ}
    (h : callbackStep s c g n = some s') : s'.thread = s.thread ∧
      (s'.workStatus = s.workStatus ∨ s'.workStatus ≠ .unrecoverableException) := by
  rw [callbackStep] at h
  split at h
  · cases h
  all_goals
    cases h
    simp [State.move]

omit [DecidableEq C] in
theorem threadStep_workStatus {asserts : Bool} {s s' : State T C} (h : threadStep asserts s = some s') :
    s'.workStatus = s.workStatus ∨ s'.thread = .clearing := by
  rw [threadStep] at h
  cases hthread : s.thread with
  | setUnrecoverable =>
    rw [hthread] at h
    cases h
    exact Or.inr rfl
  | absent | exited =>
    rw [hthread] at h
    cases h
  | assertNormal =>
    simp only [hthread, ite_none_left_eq_some, some.injEq] at h
    exact Or.inl (h.2 ▸ rfl)
  | waiting =>
    rw [hthread] at h
    dsimp only at h
    split at h
    · exact Or.inl (some.inj h ▸ rfl)
    · split at h <;> exact Or.inl (some.inj h ▸ rfl)
  | _ =>
    rw [hthread] at h
    exact Or.inl (some.inj h ▸ rfl)

omit [DecidableEq C] in
theorem threadStep_leaving {asserts : Bool} {s s' : State T C}
    (hstatus : s.workStatus = .unrecoverableException) (hleaving : s.thread.Leaving)
    (h : threadStep asserts s = some s') :
    s'.workStatus = .unrecoverableException ∧ s'.thread.Leaving ∧
      (∀ c, Pending s' c ↔ Pending s c) ∧ s'.managerCalls = s.managerCalls := by
  rw [threadStep] at h
  cases hthread : s.thread with
  | loop =>
    rw [hthread] at h
    cases h
    refine ⟨hstatus, ?_, fun c => Iff.rfl, rfl⟩
    dsimp only
    split <;> trivial
  | testUnrecoverable =>
    rw [hthread] at h
    cases h
    refine ⟨hstatus, ?_, fun c => Iff.rfl, rfl⟩
    dsimp only
    rw [if_pos hstatus]
    trivial
  | clearing =>
    rw [hthread] at h
    cases h
    exact ⟨hstatus, trivial, fun c => Iff.rfl, rfl⟩
  | absent | exited =>
    rw [hthread] at h
    cases h
  | _ =>
    rw [hthread] at hleaving
    exact hleaving.elim

theorem Settled.step {asserts : Bool} {s s' : State T C} {e : Event T C} (h : Settled s)
    (hstep : step asserts s e = some s') : Settled s' := by
  intro hunrec'
  cases e with
  | report c isNormal =>
    rw [StatusMachine.step] at hstep
    split at hstep
    · cases hstep
      exact h hunrec'
    · cases hstep
  | callback c g n =>
    obtain ⟨hthread, hstatus⟩ := callbackStep_thread hstep
    rw [hthread]
    rcases hstatus with hstatus | hstatus
    · exact h (hstatus.symm.trans hunrec')
    · exact absurd hunrec' hstatus
  | thread =>
    rcases threadStep_workStatus hstep with hstatus | hclearing
    · have hunrec : s.workStatus = .unrecoverableException := hstatus.symm.trans hunrec'
      exact (threadStep_leaving hunrec (h hunrec) hstep).2.1
    · rw [hclearing]
      trivial
  | push op =>
    cases hstep
    exact h hunrec'
  | start | startFails =>
    obtain ⟨-, hs'⟩ := ite_none_right_eq_some.1 hstep
    cases hs'
    trivial
  | startReturns | stop | stopReturns =>
    obtain ⟨-, hs'⟩ := ite_none_right_eq_some.1 hstep
    cases hs'
    exact h hunrec'

/-! ### The callbacks -/

structure Quiet (s : State T C) : Prop where
  workStatus : s.workStatus = .unrecoverableException
  leaving : s.thread.Leaving
  callbacks : ∀ c, ¬ Pending s c

omit [DecidableEq C] in
theorem Quiet.of_members {s s' : State T C} (h : Quiet s) (hstatus : s'.workStatus = s.workStatus)
    (hthread : s'.thread = s.thread) (hcallbacks : s'.callbacks = s.callbacks)
    (hclear : s'.needClearBackupData = true → s.needClearBackupData = true) (hruns : s'.Runs → s.Runs) :
    Quiet s' := by
  refine ⟨hstatus.trans h.workStatus, hthread ▸ h.leaving, fun c hpending => h.callbacks c ?_⟩
  rw [Pending, hcallbacks] at hpending
  rw [Pending]
  split at hpending <;> simp_all

theorem Quiet.move {s : State T C} (h : Quiet s) (c : C) {callback : Callback T}
    (hcallback : ¬ Pending (s.move c callback) c) : Quiet (s.move c callback) := by
  refine ⟨h.workStatus, h.leaving, fun c' => ?_⟩
  by_cases heq : c' = c
  · exact heq ▸ hcallback
  · have hother := h.callbacks c'
    simp only [Pending, State.move, Function.update_of_ne heq] at hother ⊢
    exact hother

theorem Quiet.callbackStep {s s' : State T C} {c : C} {g : Bytes} {n : ℕ} (h : Quiet s)
    (hstep : callbackStep s c g n = some s') : Quiet s' ∧ s'.managerCalls = s.managerCalls := by
  have hc := h.callbacks c
  have hunrec := h.workStatus
  rw [StatusMachine.callbackStep] at hstep
  rw [Pending] at hc
  cases hcallback : s.callbacks c with
  | outside =>
    rw [hcallback] at hstep
    cases hstep
  | testUnrecoverable isNormal | testNormal isNormal | testRecoverable isNormal =>
    rw [hcallback] at hstep
    cases hstep
    exact ⟨h.move c (by simp [Pending, State.move, hunrec]), rfl⟩
  | testNeedClear =>
    rw [hcallback] at hstep hc
    cases hstep
    refine ⟨h.move c ?_, rfl⟩
    by_cases hclear : s.needClearBackupData = true
    · have hruns : ¬ s.Runs := fun hruns => hc ⟨hclear, hruns⟩
      simpa [Pending, State.move, State.Runs, hclear] using hruns
    · simp [Pending, State.move, hclear]
  | testStarted =>
    rw [hcallback] at hstep hc
    cases hstep
    have hstarted : s.started = false := Bool.eq_false_iff.2 fun hstarted => hc (Or.inl hstarted)
    exact ⟨h.move c (by simp [Pending, State.move, hstarted]), rfl⟩
  | clearBackupData calls =>
    cases calls with
    | nil =>
      rw [hcallback] at hstep
      cases hstep
      have hcleared : Quiet { s with needClearBackupData := false } :=
        h.of_members rfl rfl rfl (fun hno => by cases hno) id
      exact ⟨hcleared.move c (by simp [Pending, State.move]), rfl⟩
    | cons call calls =>
      rw [hcallback] at hc
      exact absurd trivial hc
  | setRecoverable | setNormal =>
    rw [hcallback] at hc
    exact absurd trivial hc

theorem Quiet.step {asserts : Bool} {s s' : State T C} {e : Event T C} (h : Quiet s)
    (hstep : step asserts s e = some s') : Quiet s' ∧ s'.managerCalls = s.managerCalls := by
  cases e with
  | report c isNormal =>
    rw [StatusMachine.step] at hstep
    split at hstep
    · cases hstep
      exact ⟨h.move c (by simp [Pending, State.move]), rfl⟩
    · cases hstep
  | callback c g n => exact h.callbackStep hstep
  | thread =>
    obtain ⟨hstatus, hleaving, hpending, hcalls⟩ := threadStep_leaving h.workStatus h.leaving hstep
    exact ⟨⟨hstatus, hleaving, fun c => mt (hpending c).1 (h.callbacks c)⟩, hcalls⟩
  | push op =>
    cases hstep
    exact ⟨h.of_members rfl rfl rfl id id, rfl⟩
  | start | startFails =>
    obtain ⟨⟨-, -, hstatus⟩, -⟩ := ite_none_right_eq_some.1 hstep
    exact absurd h.workStatus hstatus
  | startReturns =>
    obtain ⟨hstarting, hs'⟩ := ite_none_right_eq_some.1 hstep
    cases hs'
    exact ⟨h.of_members rfl rfl rfl id fun _ => Or.inr hstarting, rfl⟩
  | stop =>
    obtain ⟨-, hs'⟩ := ite_none_right_eq_some.1 hstep
    cases hs'
    exact ⟨h.of_members rfl rfl rfl id id, rfl⟩
  | stopReturns =>
    obtain ⟨⟨hstarted, -⟩, hs'⟩ := ite_none_right_eq_some.1 hstep
    cases hs'
    exact ⟨h.of_members rfl rfl rfl id fun _ => Or.inl hstarted, rfl⟩

def Disturbable (asserts : Bool) (s : State T C) : Prop :=
  ∃ es s', run (step asserts) s es = some s' ∧
    (s'.workStatus ≠ .unrecoverableException ∨ s'.managerCalls ≠ s.managerCalls)

section Disturbable

variable {asserts : Bool} {s : State T C} {c : C}

theorem Disturbable.of_step (e : Event T C) (t : State T C) (hstep : step asserts s e = some t)
    (hdisturbs : t.workStatus ≠ .unrecoverableException ∨ t.managerCalls ≠ s.managerCalls) :
    Disturbable asserts s :=
  ⟨[e], t, by rw [run, hstep]; rfl, hdisturbs⟩

theorem Disturbable.cons {t : State T C} (h : Disturbable asserts t) (e : Event T C)
    (hstep : step asserts s e = some t) (hcalls : t.managerCalls = s.managerCalls) :
    Disturbable asserts s := by
  obtain ⟨es, u, hrun, hdisturbs⟩ := h
  refine ⟨e :: es, u, ?_, hcalls ▸ hdisturbs⟩
  rw [run, hstep]
  exact hrun

theorem disturbable_of_clearBackupData {call : DataRestorerOperation T}
    {calls : List (DataRestorerOperation T)}
    (hcallback : s.callbacks c = .clearBackupData (call :: calls)) : Disturbable asserts s := by
  refine Disturbable.of_step (.callback c [] 0)
    ({ s with managerCalls := s.managerCalls ++ [call] }.move c (.clearBackupData calls)) ?_
    (Or.inr (by simp [State.move]))
  simp [step, callbackStep, hcallback]

theorem disturbable_of_testStarted (hcallback : s.callbacks c = .testStarted) (hruns : s.Runs) :
    Disturbable asserts s := by
  -- the callback sees that `Start` has returned
  have hstarted : ∀ s : State T C, s.callbacks c = .testStarted → s.started = true →
      Disturbable asserts s := by
    intro s hcallback hstarted
    have hclear : (s.move c (.clearBackupData (clearBackupData [] 0))).callbacks c =
        .clearBackupData (clearBackupData [] 0) := by simp [State.move]
    refine (disturbable_of_clearBackupData hclear).cons (.callback c [] 0) ?_ rfl
    simp [step, callbackStep, hcallback, hstarted]
  rcases hruns with hruns | hruns
  · exact hstarted s hcallback hruns
  · exact (hstarted { s with starting := false, started := true } hcallback rfl).cons .startReturns
      (if_pos hruns) rfl

theorem Pending.disturbable (h : Pending s c) (asserts : Bool) : Disturbable asserts s := by
  rw [Pending] at h
  cases hcallback : s.callbacks c with
  | setRecoverable =>
    refine Disturbable.of_step (.callback c [] 0)
      ({ s with workStatus := .recoverableException }.move c .outside) ?_
      (Or.inl (by simp [State.move]))
    simp [step, callbackStep, hcallback]
  | setNormal =>
    refine Disturbable.of_step (.callback c [] 0)
      ({ s with workStatus := .normal }.move c .testNeedClear) ?_ (Or.inl (by simp [State.move]))
    simp [step, callbackStep, hcallback]
  | testNeedClear =>
    rw [hcallback] at h
    have hstarted : (s.move c .testStarted).callbacks c = .testStarted := by simp [State.move]
    refine (disturbable_of_testStarted hstarted h.2).cons (.callback c [] 0) ?_ rfl
    simp [step, callbackStep, hcallback, h.1]
  | testStarted =>
    rw [hcallback] at h
    exact disturbable_of_testStarted hcallback h
  | clearBackupData calls =>
    rw [hcallback] at h
    cases calls with
    | nil => exact h.elim
    | cons call calls => exact disturbable_of_clearBackupData hcallback
  | _ =>
    rw [hcallback] at h
    exact h.elim

end Disturbable

/-! ### Whole runs -/

theorem unrecoverable_final_iff (asserts : Bool) {s t : State T C} (hstart : s.thread = .absent)
    {es : List (Event T C)} (hrun : run (step asserts) s es = some t)
    (hunrec : t.workStatus = .unrecoverableException) :
    (∀ more u, run (step asserts) t more = some u →
      u.workStatus = .unrecoverableException ∧ u.managerCalls = t.managerCalls) ↔
      ∀ c, ¬ Pending t c := by
  constructor
  · intro hfinal c hpending
    obtain ⟨more, u, hmore, hdisturbs⟩ := hpending.disturbable asserts
    obtain ⟨hstatus, hcalls⟩ := hfinal more u hmore
    exact hdisturbs.elim (absurd hstatus) (absurd hcalls)
  · intro hpending more u hmore
    have hsettled : Settled t :=
      run_invariant (fun _ _ _ h _ hstep => Settled.step h hstep)
        (fun _ => by rw [hstart]; trivial) (Lts.Along.of_true s es) hrun
    have hquiet : Quiet u ∧ u.managerCalls = t.managerCalls := by
      refine run_invariant (I := fun v => Quiet v ∧ v.managerCalls = t.managerCalls) ?_
        ⟨⟨hunrec, hsettled hunrec, hpending⟩, rfl⟩ (Lts.Along.of_true t more) hmore
      rintro v e v' ⟨hv, hcalls⟩ - hstep
      obtain ⟨hv', hcalls'⟩ := hv.step hstep
      exact ⟨hv', hcalls'.trans hcalls⟩
    exact ⟨hquiet.1.workStatus, hquiet.2⟩

theorem unrecoverable_final_failed :
    let lost : List (Event sampleTypes Unit) :=
      [.report () false, .callback () [] 0, .callback () [] 0, .callback () [] 0, .startFails]
    ∃ t, run (step true) { workStatus := .normal } lost = some t ∧
      ∀ more u, run (step true) t more = some u →
        u.workStatus = .unrecoverableException ∧ u.managerCalls = t.managerCalls := by
  intro lost
  obtain ⟨t, hrun, hunrec, houtside⟩ : ∃ t, run (step true) { workStatus := .normal } lost = some t ∧
      t.workStatus = .unrecoverableException ∧ t.callbacks () = .outside := ⟨_, rfl, rfl, rfl⟩
  refine ⟨t, hrun, (unrecoverable_final_iff true rfl hrun hunrec).2 fun c => ?_⟩
  simp [Pending, houtside]

section Overflow

variable {asserts : Bool} {s : State T C}

theorem run_push (op : DataRestorerOperation T) (n : ℕ) :
    run (step asserts) s (replicate n (.push op)) =
      some { s with queue := s.queue ++ replicate n op } := by
  induction n generalizing s with
  | zero => simp [run]
  | succ n ih => simp [replicate_succ, run, StatusMachine.step, ih]

theorem run_overflow (hthread : s.thread = .loop) (hforce : s.forceThreadExit = false)
    (hstatus : s.workStatus = .recoverableException)
    (hqueue : Restorer.unrecoverableQueueThreshold < s.queue.length) :
    run (step asserts) s (replicate 5 .thread) =
      some { s with workStatus := .unrecoverableException, thread := .clearing } := by
  simp [replicate, run, StatusMachine.step, threadStep, hthread, hforce, hstatus, hqueue]

end Overflow

theorem unrecoverable_overwritten :
    let s : State sampleTypes Unit := { workStatus := .recoverableException }
    let tested : List (Event sampleTypes Unit) :=
      [.report () true, .callback () [] 0, .callback () [] 0, .callback () [] 0]
    (∃ t u, run (step true) s ([.start, .startReturns] ++ tested ++
        replicate 30001 (.push (.clearDevice [])) ++ replicate 5 .thread) = some t ∧
      t.workStatus = .unrecoverableException ∧
      step true t (.callback () [] 0) = some u ∧ u.workStatus = .normal) ∧
    ∃ t u, run (step true) s (tested ++ [.startFails]) = some t ∧
      t.workStatus = .unrecoverableException ∧
      step true t (.callback () [] 0) = some u ∧ u.workStatus = .normal := by
  intro s tested
  refine ⟨?_, _, _, rfl, rfl, rfl, rfl⟩
  obtain ⟨t, hrun, hthread, hforce, hstatus, hcallback⟩ :
      ∃ t, run (step true) s ([.start, .startReturns] ++ tested) = some t ∧ t.thread = .loop ∧
        t.forceThreadExit = false ∧ t.workStatus = .recoverableException ∧
        t.callbacks () = .setNormal := ⟨_, rfl, rfl, rfl, rfl, rfl⟩
  rw [run_append, run_append, hrun, bind_some, run_push, bind_some]
  let full : State sampleTypes Unit :=
    { t with queue := t.queue ++ replicate 30001 (.clearDevice []) }
  have hfull : Restorer.unrecoverableQueueThreshold < full.queue.length := by
    rw [length_append, length_replicate, Restorer.unrecoverableQueueThreshold]
    omega
  refine ⟨_, { full with workStatus := .normal, thread := .clearing }.move () .testNeedClear,
    run_overflow (s := full) hthread hforce hstatus hfull, rfl, ?_, rfl⟩
  simp only [step, callbackStep, full, hcallback]

end StatusMachine

end GBDownLinker
