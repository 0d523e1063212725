/-
**Ordered maps.**

`std::map`: a list of pairs with distinct keys, described by membership.
-/

import Mathlib.Tactic

set_option autoImplicit false

structure StdMap (κ ν : Type*) where
  entries : List (κ × ν)
  nodup : (entries.map Prod.fst).Nodup

namespace StdMap

open Function List Option

variable {κ ν : Type*}

instance instDecidableEq [DecidableEq κ] [DecidableEq ν] : DecidableEq (StdMap κ ν) := fun m m' =>
  decidable_of_iff (m.entries = m'.entries)
    ⟨fun h => by
      cases m
      cases m'
      congr, fun h => h ▸ rfl⟩

def keys (m : StdMap κ ν) : List κ := m.entries.map Prod.fst

instance : EmptyCollection (StdMap κ ν) := ⟨⟨[], nodup_nil⟩⟩

@[simp] theorem entries_empty : (∅ : StdMap κ ν).entries = [] := rfl

/-! ### Loops over a map -/

def update (m : StdMap κ ν) (f : ν → ν) : StdMap κ ν where
  entries := m.entries.map fun x => (x.1, f x.2)
  nodup := by simpa [comp_def] using m.nodup

@[simp] theorem keys_update (m : StdMap κ ν) (f : ν → ν) : (m.update f).keys = m.keys := by
  simp [keys, update, comp_def]

variable {m : StdMap κ ν} {k : κ}

theorem mem_update {f : ν → ν} {v : ν} :
    (k, v) ∈ (m.update f).entries ↔ ∃ v₀, (k, v₀) ∈ m.entries ∧ f v₀ = v := by
  simp [update]

theorem update_update (m : StdMap κ ν) (f g : ν → ν) :
    (m.update f).update g = m.update fun v => g (f v) := by
  simp [update, comp_def]

theorem update_id (m : StdMap κ ν) : (m.update fun v => v) = m := by
  cases m
  simp [update]

/-! ### Assignment -/

variable [DecidableEq κ] [LT κ] [DecidableLT κ]

def put (k : κ) (v : ν) : List (κ × ν) → List (κ × ν)
  | [] => [(k, v)]
  | x :: l => if k < x.1 then (k, v) :: x :: l else x :: put k v l

omit [DecidableEq κ] in
theorem put_perm (k : κ) (v : ν) (l : List (κ × ν)) : (put k v l).Perm ((k, v) :: l) := by
  induction l with
  | nil => exact List.Perm.refl _
  | cons x l ih =>
    rw [put]
    split
    · exact List.Perm.refl _
    · exact (ih.cons x).trans (List.Perm.swap ..)

def assign (m : StdMap κ ν) (k : κ) (v : ν) : StdMap κ ν where
  entries := put k v (m.entries.filter fun x => x.1 ≠ k)
  nodup := by
    rw [((put_perm k v _).map Prod.fst).nodup_iff, map_cons, nodup_cons]
    refine ⟨by simp, ?_⟩
    exact m.nodup.sublist (List.Sublist.map _ filter_sublist)

theorem mem_assign {k' : κ} {v v' : ν} :
    (k', v') ∈ (m.assign k v).entries ↔ (k' = k ∧ v' = v) ∨ (k' ≠ k ∧ (k', v') ∈ m.entries) := by
  rw [assign, (put_perm k v _).mem_iff]
  simp [and_comm]

theorem assign_perm_of_notMem {v : ν} (h : k ∉ m.keys) :
    (m.assign k v).entries.Perm ((k, v) :: m.entries) := by
  have hfilter : m.entries.filter (fun x => x.1 ≠ k) = m.entries :=
    filter_eq_self.2 fun x hx => by
      simpa using fun hk : x.1 = k => h (hk ▸ mem_map_of_mem hx)
  show (put k v (m.entries.filter fun x => x.1 ≠ k)).Perm _
  rw [hfilter]
  exact put_perm k v m.entries

theorem length_assign_le (m : StdMap κ ν) (k : κ) (v : ν) :
    (m.assign k v).entries.length ≤ m.entries.length + 1 := by
  have h := (put_perm k v (m.entries.filter fun x => x.1 ≠ k)).length_eq
  simp only [assign, h, length_cons]
  exact Nat.succ_le_succ (length_filter_le _ _)

/-! ### Looking up -/

omit [LT κ] [DecidableLT κ] in
def get? (m : StdMap κ ν) (k : κ) : Option ν := (m.entries.find? fun x => x.1 = k).map Prod.snd

omit [LT κ] [DecidableLT κ] in
@[simp] theorem get?_empty (k : κ) : (∅ : StdMap κ ν).get? k = none := rfl

omit [LT κ] [DecidableLT κ] in
theorem get?_eq_some_iff {v : ν} : m.get? k = some v ↔ (k, v) ∈ m.entries := by
  constructor
  · intro h
    obtain ⟨x, hx, rfl⟩ := map_eq_some_iff.1 h
    obtain rfl : x.1 = k := by simpa using find?_some hx
    exact mem_of_find?_eq_some hx
  · intro h
    -- the entry that is found has the same key, and keys are distinct
    obtain ⟨x, hx⟩ := isSome_iff_exists.1
      (find?_isSome.2 ⟨(k, v), h, by simp⟩ : (m.entries.find? fun x => x.1 = k).isSome = true)
    have hk : x.1 = k := by simpa using find?_some hx
    have heq : x = (k, v) :=
      inj_on_of_nodup_map m.nodup (mem_of_find?_eq_some hx) h hk
    rw [get?, hx, heq]
    rfl

theorem get?_assign (m : StdMap κ ν) (k k' : κ) (v : ν) :
    (m.assign k v).get? k' = if k' = k then some v else m.get? k' := by
  refine ext fun v' => ?_
  rw [get?_eq_some_iff, mem_assign]
  by_cases hk : k' = k
  · simp [hk, eq_comm]
  · simp [hk, get?_eq_some_iff]

omit [LT κ] [DecidableLT κ] in
theorem get?_eq_iff {m' : StdMap κ ν} :
    (∀ k, m.get? k = m'.get? k) ↔
      (∀ x ∈ m.entries, m'.get? x.1 = some x.2) ∧ ∀ x ∈ m'.entries, m.get? x.1 = some x.2 := by
  constructor
  · intro h
    exact ⟨fun x hx => h x.1 ▸ get?_eq_some_iff.2 hx, fun x hx => h x.1 ▸ get?_eq_some_iff.2 hx⟩
  · rintro ⟨h, h'⟩ k
    refine ext fun v => ?_
    constructor
    · intro hv
      exact h (k, v) (get?_eq_some_iff.1 hv)
    · intro hv
      exact h' (k, v) (get?_eq_some_iff.1 hv)

omit [LT κ] [DecidableLT κ] in
def erase (m : StdMap κ ν) (k : κ) : StdMap κ ν where
  entries := m.entries.filter fun x => x.1 ≠ k
  nodup := m.nodup.sublist ((filter_sublist).map _)

omit [LT κ] [DecidableLT κ] in
theorem get?_erase (m : StdMap κ ν) (k k' : κ) :
    (m.erase k).get? k' = if k' = k then none else m.get? k' := by
  refine ext fun v => ?_
  rw [get?_eq_some_iff, erase, mem_filter]
  by_cases hk : k' = k
  · simp [hk]
  · simp [hk, get?_eq_some_iff]

omit [LT κ] [DecidableLT κ] in
theorem get?_foldl_erase (m : StdMap κ ν) (l : List κ) (k : κ) :
    (l.foldl erase m).get? k = if k ∈ l then none else m.get? k := by
  induction l generalizing m with
  | nil => simp
  | cons x l ih =>
    rw [foldl_cons, ih, get?_erase]
    by_cases hl : k ∈ l <;> by_cases hx : k = x <;> simp [hl, hx]

omit [LT κ] [DecidableLT κ] in
theorem mem_keys_of_get? {v : ν} (h : m.get? k = some v) : k ∈ m.keys :=
  mem_map.2 ⟨(k, v), get?_eq_some_iff.1 h, rfl⟩

omit [LT κ] [DecidableLT κ] in
theorem get?_isSome_iff : (m.get? k).isSome ↔ k ∈ m.keys := by
  constructor
  · intro h
    obtain ⟨v, hv⟩ := isSome_iff_exists.1 h
    exact mem_keys_of_get? hv
  · intro h
    obtain ⟨x, hmem, rfl⟩ := mem_map.1 h
    exact isSome_iff_exists.2 ⟨x.2, get?_eq_some_iff.2 hmem⟩

/-! ### A run of assignments -/

def assignAll (m : StdMap κ ν) (l : List (κ × ν)) : StdMap κ ν :=
  l.foldl (fun m x => m.assign x.1 x.2) m

theorem length_assignAll_le (m : StdMap κ ν) (l : List (κ × ν)) :
    (m.assignAll l).entries.length ≤ m.entries.length + l.length := by
  induction l generalizing m with
  | nil => exact Nat.le_refl _
  | cons x l ih =>
    have hstep := m.length_assign_le x.1 x.2
    have hrest := ih (m.assign x.1 x.2)
    simp only [assignAll, foldl_cons, length_cons] at hrest ⊢
    omega

theorem mem_or_mem_of_mem_assignAll {l : List (κ × ν)} {x : κ × ν}
    (h : x ∈ (m.assignAll l).entries) : x ∈ l ∨ x ∈ m.entries := by
  induction l generalizing m with
  | nil => exact Or.inr h
  | cons y l ih =>
    rcases ih h with h | h
    · exact Or.inl (mem_cons_of_mem _ h)
    · rcases mem_assign.1 h with ⟨hk, hv⟩ | ⟨-, h⟩
      · exact Or.inl (mem_cons.2 (Or.inl (Prod.ext hk hv)))
      · exact Or.inr h

theorem get?_assignAll {l : List (κ × ν)} (hnodup : (l.map Prod.fst).Nodup)
    {v : ν} :
    (m.assignAll l).get? k = some v ↔ (k, v) ∈ l ∨ (k ∉ l.map Prod.fst ∧ m.get? k = some v) := by
  induction l generalizing m with
  | nil => simp [assignAll]
  | cons x l ih =>
    obtain ⟨hx, hnodup⟩ := nodup_cons.1 hnodup
    rw [show m.assignAll (x :: l) = (m.assign x.1 x.2).assignAll l from rfl, ih hnodup, get?_assign]
    by_cases hk : k = x.1
    · subst hk
      have hl : (x.1, v) ∉ l := fun h => hx (mem_map.2 ⟨(x.1, v), h, rfl⟩)
      simp [hx, hl, Prod.ext_iff, eq_comm]
    · simp [hk, Prod.ext_iff]

theorem assignAll_perm {l : List (κ × ν)} (hnodup : (l.map Prod.fst).Nodup)
    (hnew : ∀ x ∈ l, x.1 ∉ m.keys) : (m.assignAll l).entries.Perm (l ++ m.entries) := by
  induction l generalizing m with
  | nil => exact List.Perm.refl _
  | cons x l ih =>
    obtain ⟨hx, hnodup⟩ := nodup_cons.1 hnodup
    obtain ⟨hxnew, hnew⟩ := forall_mem_cons.1 hnew
    have hentries := assign_perm_of_notMem (v := x.2) hxnew
    have hnew' : ∀ y ∈ l, y.1 ∉ (m.assign x.1 x.2).keys := by
      intro y hy hmem
      rcases mem_cons.1 ((hentries.map Prod.fst).mem_iff.1 hmem) with h | h
      · exact hx (h ▸ mem_map_of_mem hy)
      · exact hnew y hy h
    exact ((ih hnodup hnew').trans (hentries.append_left l)).trans perm_middle

end StdMap
