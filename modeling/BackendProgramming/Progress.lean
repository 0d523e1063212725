/-
**Whether a run ends.**

A step is a function of the time and the state.  If each step lowers a measure, ends the run or is idle, the
run ends if and only if it is not idle from some time on.
-/

import Mathlib.Tactic

set_option autoImplicit false

namespace Progress

variable {σ : Type*} {step : ℕ → σ → σ} {s : σ}

def states (step : ℕ → σ → σ) (s : σ) : ℕ → σ
  | 0 => s
  | t + 1 => step t (states step s t)

theorem states_rel {r : σ → σ → Prop} (hrefl : ∀ s, r s s) (htrans : ∀ {a b c}, r a b → r b c → r a c)
    (hstep : ∀ t s, r s (step t s)) {t t' : ℕ} (h : t ≤ t') : r (states step s t) (states step s t') := by
  induction h with
  | refl => exact hrefl _
  | step h ih => exact htrans ih (hstep _ _)

theorem states_eq_of_fixed {t : ℕ} (hfixed : ∀ u ≥ t, step u (states step s t) = states step s t) {t' : ℕ}
    (h : t ≤ t') : states step s t' = states step s t := by
  induction h with
  | refl => rfl
  | step h ih =>
    rw [states, ih]
    exact hfixed _ h

section Ends

variable {α : Type*} [Preorder α] [WellFoundedLT α] {idle : ℕ → σ → Prop} (done : σ → Prop) (μ : σ → α)

theorem ends_or_idle (hidle : ∀ t s, idle t s → μ (step t s) = μ s)
    (hprogress : ∀ t s, ¬ done s → ¬ idle t s → done (step t s) ∨ μ (step t s) < μ s) (t : ℕ) :
    (∃ t', done (states step s t')) ∨ ∃ t', ∀ u ≥ t', idle u (states step s u) := by
  induction h : μ (states step s t) using WellFoundedLT.induction generalizing t with
  | ind m ih =>
    by_cases hall : ∀ u ≥ t, idle u (states step s u)
    · exact .inr ⟨t, hall⟩
    · -- the first step that is not idle
      simp only [not_forall] at hall
      obtain ⟨u, hu, hfirst⟩ : ∃ k, ¬ idle (t + k) (states step s (t + k)) ∧
          ∀ j < k, idle (t + j) (states step s (t + j)) := by
        obtain ⟨u, hle, hu⟩ := hall
        have hex : ∃ k, ¬ idle (t + k) (states step s (t + k)) :=
          ⟨u - t, by rwa [Nat.add_sub_cancel' hle]⟩
        classical
        exact ⟨Nat.find hex, Nat.find_spec hex, fun j hj => not_not.1 (Nat.find_min hex hj)⟩
      have hsame : ∀ j ≤ u, μ (states step s (t + j)) = m := by
        intro j hj
        induction j with
        | zero => exact h
        | succ j ihj =>
          have := hidle _ _ (hfirst j hj)
          exact this.trans (ihj (Nat.le_of_succ_le hj))
      by_cases hdone : done (states step s (t + u))
      · exact .inl ⟨_, hdone⟩
      · rcases hprogress _ _ hdone hu with hends | hlt
        · exact .inl ⟨t + u + 1, hends⟩
        · exact ih _ (hsame u le_rfl ▸ hlt) (t + u + 1) rfl

theorem ends_iff (hdone : ∀ t s, done s → done (step t s)) (hnot : ∀ t s, idle t s → ¬ done s)
    (hidle : ∀ t s, idle t s → μ (step t s) = μ s)
    (hprogress : ∀ t s, ¬ done s → ¬ idle t s → done (step t s) ∨ μ (step t s) < μ s) :
    (∃ t, done (states step s t)) ↔ ¬ ∃ t, ∀ u ≥ t, idle u (states step s u) := by
  constructor
  · rintro ⟨t, ht⟩ ⟨t', hidle'⟩
    have hlater : done (states step s (max t t')) :=
      states_rel (r := fun a b => done a → done b) (fun _ => id) (fun h₁ h₂ => h₂ ∘ h₁) hdone
        (le_max_left t t') ht
    exact hnot _ _ (hidle' _ (le_max_right t t')) hlater
  · exact fun h => (ends_or_idle done μ hidle hprogress 0).resolve_right h

end Ends

end Progress
