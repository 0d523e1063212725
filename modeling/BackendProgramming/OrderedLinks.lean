/-
**Links between the elements of an ordered set.**

What a link of a linked list over an ordered set must be, and how the links change when an element is put into
the set or taken out of it; `none` is the head, and the end, of the list.
-/

import Mathlib.Tactic

set_option autoImplicit false

namespace OrderedLinks

open Option

variable {α : Type*} [LinearOrder α]

def Behind (x : Option α) (k : α) : Prop := ∀ j, x = some j → j < k

@[simp] theorem behind_none (k : α) : Behind none k := fun _ hj => (by cases hj)

@[simp] theorem behind_some {j k : α} : Behind (some j) k ↔ j < k :=
  ⟨fun h => h j rfl, fun h _ hi => some.inj hi ▸ h⟩

theorem Behind.trans {x : Option α} {j k : α} (h : Behind x j) (hjk : j ≤ k) : Behind x k := fun i hi =>
  lt_of_lt_of_le (h i hi) hjk

instance decidableBehind (x : Option α) (k : α) : Decidable (Behind x k) :=
  match x with
  | none => isTrue (behind_none k)
  | some _ => decidable_of_iff _ behind_some.symm

theorem card_behind_lt {U : Finset α} {x : Option α} {k : α} (hk : k ∈ U) (hx : Behind x k) :
    (U.filter (Behind (some k))).card < (U.filter (Behind x)).card := by
  have hsub : U.filter (Behind (some k)) ⊆ U.filter (Behind x) := by
    intro j hj
    simp only [Finset.mem_filter, behind_some] at hj ⊢
    exact ⟨hj.1, hx.trans hj.2.le⟩
  refine Finset.card_lt_card ((Finset.ssubset_iff_of_subset hsub).2 ⟨k, Finset.mem_filter.2 ⟨hk, hx⟩, ?_⟩)
  simp

structure IsNext (P : α → Prop) (x y : Option α) : Prop where
  mem : ∀ k, y = some k → P k ∧ Behind x k
  le : ∀ j, P j → Behind x j → ∃ k, y = some k ∧ k ≤ j

structure IsPre (P : α → Prop) (k : α) (x : Option α) : Prop where
  mem : ∀ j, x = some j → P j
  behind : Behind x k
  le : ∀ j, P j → j < k → ∃ i, x = some i ∧ j ≤ i

variable {P Q : α → Prop} {x y : Option α} {k : α}

theorem IsNext.congr (h : IsNext P x y) (hPQ : ∀ j, P j ↔ Q j) : IsNext Q x y where
  mem j hj := ⟨(hPQ j).1 (h.mem j hj).1, (h.mem j hj).2⟩
  le j hj := h.le j ((hPQ j).2 hj)

theorem IsPre.of_isNext (h : IsNext P x y) (hmem : ∀ j, x = some j → P j) (hx : Behind x k)
    (hy : ∀ j, y = some j → k ≤ j) : IsPre P k x where
  mem := hmem
  behind := hx
  le j hj hjk := by
    by_contra hno
    -- otherwise the element would be behind the place, and the link in front of it
    have hbehind : Behind x j := fun i hi => not_le.1 fun hle => hno ⟨i, hi, hle⟩
    obtain ⟨i, hi, hle⟩ := h.le j hj hbehind
    exact absurd (hle.trans_lt hjk) (not_lt.2 (hy i hi))

/-! ### Putting an element in -/

theorem IsNext.to_new (hpre : IsPre P k x) : IsNext (fun j => P j ∨ j = k) x (some k) where
  mem j hj := by
    cases hj
    exact ⟨Or.inr rfl, hpre.behind⟩
  le j hj hx := by
    refine ⟨k, rfl, ?_⟩
    rcases hj with hj | rfl
    · by_contra hlt
      obtain ⟨i, hi, hle⟩ := hpre.le j hj (not_le.1 hlt)
      exact absurd (hx i hi) (not_lt.2 hle)
    · exact le_rfl

theorem IsNext.from_new (h : IsNext P x y) (hpre : IsPre P k x) (hk : ¬ P k) :
    IsNext (fun j => P j ∨ j = k) (some k) y where
  mem j hj := by
    obtain ⟨hP, hx⟩ := h.mem j hj
    refine ⟨Or.inl hP, behind_some.2 (lt_of_le_of_ne ?_ fun heq => hk (heq ▸ hP))⟩
    by_contra hlt
    obtain ⟨i, hi, hle⟩ := hpre.le j hP (not_le.1 hlt)
    exact absurd (hx i hi) (not_lt.2 hle)
  le j hj hbehind := by
    have hkj := behind_some.1 hbehind
    rcases hj with hj | rfl
    · exact h.le j hj (hpre.behind.trans hkj.le)
    · exact absurd hkj (lt_irrefl _)

theorem IsNext.other {x' : Option α} (h : IsNext P x' y) (hpre : IsPre P k x) (hmem : ∀ j, x' = some j → P j)
    (hne : x' ≠ x) : IsNext (fun j => P j ∨ j = k) x' y where
  mem j hj := ⟨Or.inl (h.mem j hj).1, (h.mem j hj).2⟩
  le j hj hx' := by
    rcases hj with hj | rfl
    · exact h.le j hj hx'
    · -- the place in front of the new element is behind this one
      cases x with
      | none =>
        cases x' with
        | none => exact absurd rfl hne
        | some i =>
          obtain ⟨i', hi', -⟩ := hpre.le i (hmem i rfl) (behind_some.1 hx')
          cases hi'
      | some p =>
        have hp : Behind x' p := by
          intro i hi
          subst hi
          obtain ⟨i', hi', hle⟩ := hpre.le i (hmem i rfl) (behind_some.1 hx')
          cases hi'
          exact lt_of_le_of_ne hle fun heq => hne (heq ▸ rfl)
        obtain ⟨q, hq, hle⟩ := h.le p (hpre.mem p rfl) hp
        exact ⟨q, hq, hle.trans (behind_some.1 hpre.behind).le⟩

/-! ### Taking an element out -/

theorem IsPre.unique {x' : Option α} (h : IsPre P k x) (h' : IsPre P k x') : x = x' := by
  cases x with
  | none =>
    cases x' with
    | none => rfl
    | some i =>
      obtain ⟨j, hj, -⟩ := h.le i (h'.mem i rfl) (behind_some.1 h'.behind)
      cases hj
  | some i =>
    obtain ⟨j, rfl, hij⟩ := h'.le i (h.mem i rfl) (behind_some.1 h.behind)
    obtain ⟨i', hi', hji⟩ := h.le j (h'.mem j rfl) (behind_some.1 h'.behind)
    cases hi'
    exact congrArg some (hij.antisymm hji)

theorem IsNext.past_old (h : IsNext P (some k) y) (hpre : IsPre P k x) :
    IsNext (fun j => P j ∧ j ≠ k) x y where
  mem j hj := by
    obtain ⟨hP, hkj⟩ := h.mem j hj
    have hlt := behind_some.1 hkj
    exact ⟨⟨hP, hlt.ne'⟩, hpre.behind.trans hlt.le⟩
  le j hj hx := by
    refine h.le j hj.1 (behind_some.2 (lt_of_le_of_ne ?_ hj.2.symm))
    by_contra hlt
    obtain ⟨i, hi, hle⟩ := hpre.le j hj.1 (not_le.1 hlt)
    exact absurd (hx i hi) (not_lt.2 hle)

theorem IsNext.other_old {x' : Option α} (h : IsNext P x' y) (hpre : IsPre P k x)
    (hmem : ∀ j, x' = some j → P j) (hne : x' ≠ x) : IsNext (fun j => P j ∧ j ≠ k) x' y where
  mem j hj := by
    obtain ⟨hP, hbehind⟩ := h.mem j hj
    refine ⟨⟨hP, ?_⟩, hbehind⟩
    rintro rfl
    refine hne ((IsPre.of_isNext h hmem hbehind fun i hi => ?_).unique hpre)
    exact (some.inj (hj.symm.trans hi)).le
  le j hj := h.le j hj.1

end OrderedLinks
