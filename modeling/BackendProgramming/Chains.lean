/-
**Chained buckets.**

A hash table with chaining is a list of chains, such that every element stands in the bucket that a function
assigns to it.
-/

import Mathlib.Tactic

set_option autoImplicit false

namespace Chains

open List

variable {α : Type*}

def Placed (f : α → ℕ) (l : List (List α)) : Prop :=
  ∀ i chain, l[i]? = some chain → ∀ a ∈ chain, f a = i

def push (l : List (List α)) (i : ℕ) (a : α) : List (List α) := l.modify i (a :: ·)

variable {f : α → ℕ} {l : List (List α)} {i : ℕ} {chain : List α} {a : α}

theorem Placed.mem_chain (h : Placed f l) (ha : a ∈ l.flatten) : ∃ chain, l[f a]? = some chain ∧ a ∈ chain := by
  obtain ⟨chain, hchain, hmem⟩ := mem_flatten.1 ha
  obtain ⟨i, hi⟩ := mem_iff_getElem?.1 hchain
  obtain rfl := h i chain hi a hmem
  exact ⟨chain, hi, hmem⟩

theorem placed_replicate_nil (f : α → ℕ) (n : ℕ) : Placed f (replicate n []) := by
  intro i chain hi a ha
  obtain ⟨-, rfl⟩ := mem_replicate.1 (mem_of_getElem? hi)
  cases ha

theorem Placed.set (h : Placed f l) (hchain : ∀ a ∈ chain, f a = i) : Placed f (l.set i chain) := by
  intro j chain' hj a ha
  rw [getElem?_set] at hj
  split at hj
  · next hij =>
    split at hj
    · cases hj
      exact hij ▸ hchain a ha
    · cases hj
  · exact h j chain' hj a ha

theorem exists_frame (h : l[i]? = some chain) :
    ∃ front back, l.flatten = front ++ chain ++ back ∧
      ∀ chain', (l.set i chain').flatten = front ++ chain' ++ back := by
  obtain ⟨hi, hget⟩ := List.getElem?_eq_some_iff.1 h
  refine ⟨(l.take i).flatten, (l.drop (i + 1)).flatten, ?_, ?_⟩
  · have hsplit : l = l.take i ++ chain :: l.drop (i + 1) := by
      rw [← hget, ← drop_eq_getElem_cons hi, take_append_drop]
    conv_lhs => rw [hsplit]
    simp
  · intro chain'
    rw [set_eq_take_append_cons_drop, if_pos hi]
    simp

/-! ### Putting an element in front -/

@[simp] theorem length_push : (push l i a).length = l.length := by simp [push]

theorem push_eq_set (h : l[i]? = some chain) : push l i a = l.set i (a :: chain) := by
  rw [push, modify_eq_set_getElem?, h]
  rfl

theorem flatten_push (hi : i < l.length) : (push l i a).flatten.Perm (a :: l.flatten) := by
  have h := getElem?_eq_getElem hi
  obtain ⟨front, back, hflat, hset⟩ := exists_frame h
  rw [push_eq_set h, hset, hflat, append_assoc, append_assoc, cons_append]
  exact perm_middle

theorem Placed.push (h : Placed f l) (hi : i < l.length) (ha : f a = i) : Placed f (push l i a) := by
  have hget := getElem?_eq_getElem hi
  rw [push_eq_set hget]
  refine h.set fun b hb => ?_
  rcases mem_cons.1 hb with rfl | hb
  · exact ha
  · exact h i _ hget b hb

end Chains
