/-
**Searching and cutting texts.**

`find`, `substr` and the test `find(..) != npos` of `std::string`, on lists of any type, and texts that are made of
fields with a separator which does not occur inside them.
-/

import Mathlib.Tactic

set_option autoImplicit false

namespace StdString

open List

variable {α : Type*} {a a' b b' : List α} {x : α}

/-! ### Fields with a separator -/

theorem field_isPrefix_iff (ha : x ∉ a) (ha' : x ∉ a') :
    a ++ x :: b <+: a' ++ x :: b' ↔ a = a' ∧ b <+: b' := by
  induction a generalizing a' with
  | nil =>
    cases a' with
    | nil => simp
    | cons y a' =>
      have hne : x ≠ y := fun h => ha' (h ▸ mem_cons_self ..)
      simp [cons_prefix_cons, hne]
  | cons z a ih =>
    have hz : z ≠ x := fun h => ha (h ▸ mem_cons_self ..)
    cases a' with
    | nil => simp [cons_prefix_cons, hz]
    | cons y a' =>
      have := ih (fun h => ha (mem_cons_of_mem _ h)) (fun h => ha' (mem_cons_of_mem _ h))
      simp [cons_prefix_cons, this, and_assoc]

theorem isPrefix_field_iff (ha : x ∉ a) : a <+: a' ++ x :: b' ↔ a <+: a' := by
  induction a generalizing a' with
  | nil => simp
  | cons z a ih =>
    have hz : z ≠ x := fun h => ha (h ▸ mem_cons_self ..)
    cases a' with
    | nil => simp [cons_prefix_cons, hz]
    | cons y a' =>
      simp [cons_prefix_cons, ih fun h => ha (mem_cons_of_mem _ h)]

theorem field_eq_iff (ha : x ∉ a) (ha' : x ∉ a') :
    a ++ x :: b = a' ++ x :: b' ↔ a = a' ∧ b = b' := by
  refine ⟨fun h => ?_, by rintro ⟨rfl, rfl⟩; rfl⟩
  have hpre : a ++ x :: b <+: a' ++ x :: b' := ⟨[], by rw [h, append_nil]⟩
  obtain ⟨rfl, -⟩ := (field_isPrefix_iff ha ha').1 hpre
  exact ⟨rfl, (cons.inj (append_cancel_left h)).2⟩

variable {pat : List α}

theorem isInfix_field_iff (hpat : x ∉ pat) (hne : pat ≠ []) :
    pat <:+: a ++ x :: b ↔ pat <:+: a ∨ pat <:+: b := by
  induction a with
  | nil =>
    have hpre : ¬ pat <+: x :: b := by
      cases pat with
      | nil => exact absurd rfl hne
      | cons y pat => exact fun h => hpat (by simp [(cons_prefix_cons.1 h).1])
    simp [infix_cons_iff, hpre, hne]
  | cons y a ih =>
    rw [cons_append, infix_cons_iff, ih, infix_cons_iff, ← cons_append,
      isPrefix_field_iff hpat, or_assoc]

/-! ### Searching -/

variable [DecidableEq α]

def search (pat : List α) : List α → Option ℕ
  | [] => if pat = [] then some 0 else none
  | b :: s => if pat <+: b :: s then some 0 else (search pat s).map (· + 1)

def find (s pat : List α) (pos : ℕ) : Option ℕ := (search pat (s.drop pos)).map (· + pos)

def findLastOf (x : α) : List α → Option ℕ
  | [] => none
  | y :: s =>
    match findLastOf x s with
    | some pos => some (pos + 1)
    | none => if y = x then some 0 else none

def rfindBefore (x : α) (s : List α) (pos : ℕ) : Option ℕ :=
  if pos = 0 then findLastOf x s else findLastOf x (s.take pos)

def substr (s : List α) (pos n : ℕ) : List α := (s.drop pos).take n

def contains (s pat : List α) : Bool := (find s pat 0).isSome

variable {s : List α}

theorem search_isSome : (search pat s).isSome = true ↔ pat <:+: s := by
  induction s with
  | nil => by_cases h : pat = [] <;> simp [search, h]
  | cons b s ih =>
    rw [search, infix_cons_iff, ← ih]
    split
    case isTrue h => simp [h]
    case isFalse h => simp [h]

variable {pos : ℕ}

theorem find_isSome :
    (find s pat pos).isSome = true ↔ pat <:+: s.drop pos := by
  rw [find, Option.isSome_map, search_isSome]

theorem contains_iff : contains s pat = true ↔ pat <:+: s := by
  rw [contains, find_isSome, drop_zero]

theorem search_append (ha : x ∉ a) :
    search (x :: pat) (a ++ (x :: pat ++ b)) = some a.length := by
  induction a with
  | nil => simp [search]
  | cons y a ih =>
    have hne : x ≠ y := fun h => ha (h ▸ mem_cons_self ..)
    rw [cons_append, search, if_neg fun h => hne (cons_prefix_cons.1 h).1,
      ih fun h => ha (mem_cons_of_mem _ h)]
    rfl

theorem find_append (hs : s.drop pos = a ++ (x :: pat ++ b)) (ha : x ∉ a) :
    find s (x :: pat) pos = some (pos + a.length) := by
  rw [find, hs, search_append ha, Option.map_some, Nat.add_comm]

theorem find_field (hs : s.drop pos = a ++ x :: b) (ha : x ∉ a) :
    find s [x] pos = some (pos + a.length) :=
  find_append (b := b) hs ha

theorem find_last (hs : x ∉ s.drop pos) : find s [x] pos = none := by
  rw [← Option.not_isSome_iff_eq_none, find_isSome]
  exact fun h => hs (h.subset (mem_singleton.2 rfl))

theorem findLastOf_eq_none (h : findLastOf x s = none) : x ∉ s := by
  induction s with
  | nil => simp
  | cons y s ih =>
    rw [findLastOf] at h
    split at h
    · exact nomatch h
    · next hs =>
      have hne : x ≠ y := fun hxy => by simp [hxy] at h
      simp [hne, ih hs]

theorem findLastOf_eq_some (h : findLastOf x s = some pos) :
    ∃ a b, s = a ++ x :: b ∧ x ∉ b ∧ a.length = pos := by
  induction s generalizing pos with
  | nil => exact nomatch h
  | cons y s ih =>
    rw [findLastOf] at h
    split at h
    · next p hp =>
      obtain ⟨a, b, rfl, hb, rfl⟩ := ih hp
      exact ⟨y :: a, b, rfl, hb, Option.some.inj h⟩
    · next hs =>
      obtain ⟨hxy, hpos⟩ := Option.ite_none_right_eq_some.1 h
      exact ⟨[], s, by simp [hxy], findLastOf_eq_none hs, Option.some.inj hpos⟩

theorem findLastOf_field (hb : x ∉ b) : findLastOf x (a ++ x :: b) = some a.length := by
  have hnone : ∀ {s : List α}, x ∉ s → findLastOf x s = none := by
    intro s hs
    by_contra hsome
    obtain ⟨pos, hpos⟩ := Option.ne_none_iff_exists'.1 hsome
    obtain ⟨c, d, rfl, -⟩ := findLastOf_eq_some hpos
    exact hs (by simp)
  induction a with
  | nil => simp [findLastOf, hnone hb]
  | cons y a ih => rw [cons_append, findLastOf, ih, length_cons]

theorem rfindBefore_field {c : List α} (hb : x ∉ b) :
    rfindBefore x (a ++ x :: (b ++ c)) (a.length + 1 + b.length) = some a.length := by
  have htake : (a ++ x :: (b ++ c)).take (a.length + 1 + b.length) = a ++ x :: b := by
    have hsplit : a ++ x :: (b ++ c) = (a ++ x :: b) ++ c := by simp
    rw [hsplit, take_left' (by simp; omega)]
  rw [rfindBefore, if_neg (by omega), htake, findLastOf_field hb]

omit [DecidableEq α] in
theorem substr_field (hs : s.drop pos = a ++ b) :
    substr s pos (pos + a.length - pos) = a := by
  rw [substr, hs, Nat.add_sub_cancel_left, take_left]

omit [DecidableEq α] in
theorem drop_separator : (a ++ x :: b).drop (a.length + 1) = b := by
  rw [← drop_drop, drop_left]
  rfl

omit [DecidableEq α] in
theorem substr_between {c : List α} :
    substr (a ++ x :: (b ++ c)) (a.length + 1) (a.length + 1 + b.length - (a.length + 1)) = b :=
  substr_field drop_separator

omit [DecidableEq α] in
theorem drop_part (hs : s.drop pos = a ++ b) : s.drop (pos + a.length) = b := by
  rw [← drop_drop, hs, drop_left]

omit [DecidableEq α] in
theorem drop_field (hs : s.drop pos = a ++ x :: b) :
    s.drop (pos + a.length + 1) = b := by
  rw [Nat.add_assoc, ← drop_drop, hs]
  simp

end StdString
