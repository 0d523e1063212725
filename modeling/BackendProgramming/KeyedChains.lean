/-
**Chains with keys.**

The chain of a bucket is searched for the first element with a key, and this element is removed.
-/

import Mathlib.Tactic

set_option autoImplicit false

namespace KeyedChains

open List

variable {α κ : Type*} [DecidableEq κ] {key : α → κ} {k k' : κ}

def pick (key : α → κ) (k : κ) (l : List α) : List α := l.filter (key · = k)

theorem find_eq (l : List α) : l.find? (key · = k) = (pick key k l).head? := (head?_filter ..).symm

theorem pick_append (l l' : List α) : pick key k (l ++ l') = pick key k l ++ pick key k l' :=
  filter_append ..

theorem pick_cons_self {a : α} (h : key a = k) (l : List α) : pick key k (a :: l) = a :: pick key k l :=
  filter_cons_of_pos (by simpa using h)

theorem pick_cons_ne {a : α} (h : key a ≠ k) (l : List α) : pick key k (a :: l) = pick key k l :=
  filter_cons_of_neg (by simpa using h)

theorem pick_reverse (l : List α) : pick key k l.reverse = (pick key k l).reverse := filter_reverse

theorem pick_eq_nil {l : List α} (h : ∀ a ∈ l, key a ≠ k) : pick key k l = [] :=
  filter_eq_nil_iff.2 fun a ha => by simpa using h a ha

theorem pick_filter {p : α → Bool} (h : ∀ a, key a = k → p a = true) (l : List α) :
    pick key k (l.filter p) = pick key k l := by
  rw [pick, filter_filter]
  refine filter_congr fun a _ => ?_
  by_cases ha : key a = k
  · rw [h a ha, Bool.and_true]
  · rw [decide_eq_false ha, Bool.false_and]

theorem pick_erase_self (l : List α) : pick key k (l.eraseP (key · = k)) = (pick key k l).tail := by
  induction l with
  | nil => rfl
  | cons a l ih =>
    by_cases h : key a = k
    · rw [eraseP_cons_of_pos (by simpa using h), pick_cons_self h, tail_cons]
    · rw [eraseP_cons_of_neg (by simpa using h), pick_cons_ne h, pick_cons_ne h, ih]

theorem pick_erase_ne (hne : k' ≠ k) (l : List α) : pick key k' (l.eraseP (key · = k)) = pick key k' l := by
  induction l with
  | nil => rfl
  | cons a l ih =>
    by_cases h : key a = k
    · rw [eraseP_cons_of_pos (by simpa using h), pick_cons_ne (by rw [h]; exact hne.symm)]
    · rw [eraseP_cons_of_neg (by simpa using h)]
      by_cases hk : key a = k'
      · rw [pick_cons_self hk, pick_cons_self hk, ih]
      · rw [pick_cons_ne hk, pick_cons_ne hk, ih]

end KeyedChains
