/-
**Runs of a system with a partial step function.**

In a state an event either cannot happen or leads to the next state.  `Along` states conditions on the events
of a run, and `run_invariant` is the rule for properties of its states.
-/

import Mathlib.Tactic

set_option autoImplicit false

namespace Lts

open Option

variable {S E : Type*}

def run (step : S → E → Option S) (s : S) : List E → Option S
  | [] => some s
  | e :: es => (step s e).bind fun s' => run step s' es

def Along (step : S → E → Option S) (G : S → E → Prop) (s : S) : List E → Prop
  | [] => True
  | e :: es => G s e ∧ ∀ s', step s e = some s' → Along step G s' es

variable {step : S → E → Option S} {G : S → E → Prop}

theorem run_cons {s s' : S} {e : E} {es : List E} (h : run step s (e :: es) = some s') :
    ∃ t, step s e = some t ∧ run step t es = some s' :=
  Option.bind_eq_some_iff.1 h

instance decidableAlong [∀ s e, Decidable (G s e)] :
    ∀ (s : S) (es : List E), Decidable (Along step G s es)
  | _, [] => isTrue trivial
  | s, e :: es =>
    match h : step s e with
    | none => decidable_of_iff (G s e)
        ⟨fun hG => ⟨hG, fun s' hs' => by rw [h] at hs'; cases hs'⟩, fun hG => hG.1⟩
    | some t =>
      haveI := decidableAlong t es
      decidable_of_iff (G s e ∧ Along step G t es)
        ⟨fun hG => ⟨hG.1, fun s' hs' => by
          rw [h] at hs'
          exact some.inj hs' ▸ hG.2⟩, fun hG => ⟨hG.1, hG.2 t h⟩⟩

theorem run_append (s : S) (es es' : List E) :
    run step s (es ++ es') = (run step s es).bind fun t => run step t es' := by
  induction es generalizing s with
  | nil => rfl
  | cons e es ih =>
    rw [List.cons_append, run, run, bind_assoc]
    exact congrArg _ (funext ih)

theorem run_concat (s : S) (es : List E) (e : E) :
    run step s (es ++ [e]) = (run step s es).bind fun t => step t e := by
  rw [run_append]
  exact congrArg _ (funext fun t => by simp [run])

theorem Along.concat {s : S} {es : List E} {e : E} (h : Along step G s (es ++ [e])) :
    Along step G s es ∧ ∀ t, run step s es = some t → G t e := by
  induction es generalizing s with
  | nil =>
    refine ⟨trivial, fun t ht => ?_⟩
    cases ht
    exact h.1
  | cons e' es ih =>
    refine ⟨⟨h.1, fun s' hs' => (ih (h.2 s' hs')).1⟩, fun t ht => ?_⟩
    obtain ⟨s', hs', hrun⟩ := run_cons ht
    exact (ih (h.2 s' hs')).2 t hrun

theorem Along.of_true (s : S) (es : List E) : Along step (fun _ _ => True) s es := by
  induction es generalizing s with
  | nil => trivial
  | cons e es ih => exact ⟨trivial, fun s' _ => ih s'⟩

theorem run_invariant {I : S → Prop}
    (hstep : ∀ s e s', I s → G s e → step s e = some s' → I s') {s s' : S} {es : List E}
    (hs : I s) (hG : Along step G s es) (h : run step s es = some s') : I s' := by
  induction es generalizing s with
  | nil =>
    cases h
    exact hs
  | cons e es ih =>
    obtain ⟨t, ht, hrun⟩ := run_cons h
    exact ih (hstep s e t hs hG.1 ht) (hG.2 t ht) hrun

theorem exists_run {I : S → Prop} (hstep : ∀ s e, I s → G s e → ∃ s', step s e = some s' ∧ I s') {s : S}
    {es : List E} (hs : I s) (hG : Along step G s es) : ∃ s', run step s es = some s' ∧ I s' := by
  induction es generalizing s with
  | nil => exact ⟨s, rfl, hs⟩
  | cons e es ih =>
    obtain ⟨t, ht, hI⟩ := hstep s e hs hG.1
    rw [run, ht]
    exact ih hI (hG.2 t ht)

theorem Along.of_invariant {I : S → Prop} {Q : S → E → Prop}
    (hstep : ∀ s e, I s → G s e → Q s e ∧ ∀ s', step s e = some s' → I s') {s : S} {es : List E}
    (hs : I s) (hG : Along step G s es) : Along step Q s es := by
  induction es generalizing s with
  | nil => trivial
  | cons e es ih =>
    obtain ⟨hQ, hI⟩ := hstep s e hs hG.1
    exact ⟨hQ, fun s' hs' => ih (hI s' hs') (hG.2 s' hs')⟩

theorem Along.iff_of_invariant {I : S → Prop} {P Q : S → E → Prop}
    (hstep : ∀ s e, I s → G s e → (P s e ↔ Q s e) ∧ (Q s e → ∀ s', step s e = some s' → I s'))
    {s : S} {es : List E} (hs : I s) (hG : Along step G s es) : Along step P s es ↔ Along step Q s es := by
  induction es generalizing s with
  | nil => exact Iff.rfl
  | cons e es ih =>
    obtain ⟨hiff, hI⟩ := hstep s e hs hG.1
    constructor
    · rintro ⟨hP, hrest⟩
      have hQ := hiff.1 hP
      exact ⟨hQ, fun s' hs' => (ih (hI hQ s' hs') (hG.2 s' hs')).1 (hrest s' hs')⟩
    · rintro ⟨hQ, hrest⟩
      exact ⟨hiff.2 hQ, fun s' hs' => (ih (hI hQ s' hs') (hG.2 s' hs')).2 (hrest s' hs')⟩

end Lts
