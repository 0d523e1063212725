/-
**Programs that read memory and make new objects.**

What a program has made does not depend on what later happens to the objects that were there before.
-/

import Mathlib.Tactic

set_option autoImplicit false

namespace FreshMemory

open Function

variable {C α β : Type}

structure Memory (C : Type) where
  cells : ℕ → Option C
  next : ℕ
  unused : ∀ a, next ≤ a → cells a = none

abbrev Prog (C : Type) := StateT (Memory C) Option

def new (c : C) : Prog C ℕ := fun h =>
  some (h.next,
    { cells := Function.update h.cells h.next (some c)
      next := h.next + 1
      unused := fun a ha => by
        rw [update_of_ne (by omega)]
        exact h.unused a (by omega) })

def ask (f : Memory C → Option α) : Prog C α := fun h => (f h).map fun a => (a, h)

structure Extends (h h' : Memory C) : Prop where
  next_le : h.next ≤ h'.next
  cells_eq : ∀ a < h.next, h'.cells a = h.cells a

theorem Extends.refl (h : Memory C) : Extends h h := ⟨le_rfl, fun _ _ => rfl⟩

theorem Extends.trans {h h' h'' : Memory C} (h₁ : Extends h h') (h₂ : Extends h' h'') :
    Extends h h'' where
  next_le := h₁.next_le.trans h₂.next_le
  cells_eq := fun a ha => (h₂.cells_eq a (ha.trans_le h₁.next_le)).trans (h₁.cells_eq a ha)

theorem Memory.lt_next {h : Memory C} {a : ℕ} {c : C} (hc : h.cells a = some c) : a < h.next := by
  by_contra hge
  rw [h.unused a (by omega)] at hc
  cases hc

theorem Extends.cells {h h' : Memory C} (hext : Extends h h') {a : ℕ} {c : C} (hc : h.cells a = some c) :
    h'.cells a = some c :=
  (hext.cells_eq a (Memory.lt_next hc)).trans hc

def Stable (f : Memory C → Option α) : Prop :=
  ∀ h h' a, Extends h h' → f h = some a → f h' = some a

theorem Stable.eq_some {f : Memory C → Option α} (hf : Stable f) {h h' : Memory C} {a : α}
    (hext : Extends h h') (ha : f h = some a) : f h' = some a :=
  hf h h' a hext ha

theorem stable_some (a : α) : Stable (C := C) fun _ => some a := fun _ _ _ _ ha => ha

theorem Stable.bind {f : Memory C → Option α} {g : α → Memory C → Option β} (hf : Stable f)
    (hg : ∀ a, Stable (g a)) : Stable fun h => (f h).bind fun a => g a h := by
  intro h h' b hext hb
  obtain ⟨a, ha, hb⟩ := Option.bind_eq_some_iff.1 hb
  exact Option.bind_eq_some_iff.2 ⟨a, hf.eq_some hext ha, (hg a).eq_some hext hb⟩

def Keeps (h h' k : Memory C) : Prop := ∀ a, h.next ≤ a → a < h'.next → k.cells a = h'.cells a

def Makes (m : Prog C α) (h : Memory C) (Q : Memory C → α → Prop) : Prop :=
  ∃ a h', m h = some (a, h') ∧ Extends h h' ∧ ∀ k, Keeps h h' k → Q k a

variable {h : Memory C} {Q : Memory C → α → Prop} {R : Memory C → β → Prop}

theorem makes_pure {a : α} (hQ : ∀ k, Q k a) : Makes (pure a) h Q :=
  ⟨a, h, rfl, .refl h, fun k _ => hQ k⟩

theorem makes_new (c : C) : Makes (new c) h fun k p => k.cells p = some c := by
  refine ⟨h.next, _, rfl, ⟨Nat.le_succ _, fun a ha => update_of_ne (by omega) _ _⟩,
    fun k hk => ?_⟩
  show k.cells h.next = some c
  rw [hk h.next le_rfl (Nat.lt_succ_self _)]
  exact update_self ..

theorem Makes.bind {m : Prog C α} {f : α → Prog C β} (hm : Makes m h Q)
    (hf : ∀ a h', Extends h h' → Makes (f a) h' fun k b => Q k a → R k b) : Makes (m >>= f) h R := by
  obtain ⟨a, h₁, hrun₁, hext₁, hQ⟩ := hm
  obtain ⟨b, h₂, hrun₂, hext₂, hR⟩ := hf a h₁ hext₁
  refine ⟨b, h₂, ?_, hext₁.trans hext₂, fun k hk => hR k ?_ (hQ k ?_)⟩
  · show (m h).bind (fun x => f x.1 x.2) = _
    rw [hrun₁]
    exact hrun₂
  · exact fun p hp hlt => hk p (hext₁.next_le.trans hp) hlt
  · intro p hp hlt
    rw [hk p hp (hlt.trans_le hext₂.next_le), hext₂.cells_eq p hlt]

theorem Makes.bind_ask {f : Memory C → Option α} {g : α → Prog C β} {a : α} (ha : f h = some a)
    (hg : Makes (g a) h R) : Makes (ask f >>= g) h R := by
  obtain ⟨b, h', hrun, hext, hR⟩ := hg
  refine ⟨b, h', ?_, hext, hR⟩
  show (ask f h).bind (fun x => g x.1 x.2) = _
  rw [ask, ha]
  exact hrun

theorem Makes.mono {m : Prog C α} {Q' : Memory C → α → Prop} (hm : Makes m h Q)
    (hQ : ∀ k a, Q k a → Q' k a) : Makes m h Q' := by
  obtain ⟨a, h', hrun, hext, hmade⟩ := hm
  exact ⟨a, h', hrun, hext, fun k hk => hQ k a (hmade k hk)⟩

end FreshMemory
