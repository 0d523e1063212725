/-
**Who holds a resource.**

Places hold at most one resource each.  `Sound` says that no resource is held at two places, or after it has
been freed, and `Kept` that every resource is held or has been freed.
-/

import Mathlib.Tactic

set_option autoImplicit false

structure Custody (P : Type*) where
  holds : P → Option ℕ
  made : ℕ
  freed : List ℕ

namespace Custody

open List

variable {P : Type*} {c : Custody P} {base : ℕ}

structure Sound (c : Custody P) : Prop where
  lt : ∀ {p n}, c.holds p = some n → n < c.made
  notMem : ∀ {p n}, c.holds p = some n → n ∉ c.freed
  inj : ∀ {p q n}, c.holds p = some n → c.holds q = some n → p = q
  freed_lt : ∀ {n}, n ∈ c.freed → n < c.made

def Kept (base : ℕ) (c : Custody P) : Prop :=
  ∀ n, base ≤ n → n < c.made → (∃ p, c.holds p = some n) ∨ n ∈ c.freed

/-! ### A resource is made -/

def make [DecidableEq P] (c : Custody P) (p : P) : Custody P :=
  { c with holds := Function.update c.holds p (some c.made), made := c.made + 1 }

def drop (c : Custody P) : Custody P := { c with made := c.made + 1 }

section Make

variable [DecidableEq P] {p : P}

theorem holds_make {q : P} {n : ℕ} (h : (c.make p).holds q = some n) :
    (q = p ∧ n = c.made) ∨ (q ≠ p ∧ c.holds q = some n) := by
  by_cases hq : q = p
  · subst hq
    exact .inl ⟨rfl, by simpa [make] using h.symm⟩
  · exact .inr ⟨hq, by simpa [make, hq] using h⟩

theorem Sound.make (h : c.Sound) : (c.make p).Sound where
  lt hq := by
    obtain ⟨-, rfl⟩ | ⟨-, hq⟩ := holds_make hq
    · exact Nat.lt_succ_self _
    · exact Nat.lt_succ_of_lt (h.lt hq)
  notMem hq := by
    obtain ⟨-, rfl⟩ | ⟨-, hq⟩ := holds_make hq
    · exact fun hmem => Nat.lt_irrefl _ (h.freed_lt hmem)
    · exact h.notMem hq
  inj hq hr := by
    obtain ⟨rfl, hn⟩ | ⟨-, hq⟩ := holds_make hq
    · subst hn
      obtain ⟨rfl, -⟩ | ⟨-, hr⟩ := holds_make hr
      · rfl
      · exact absurd (h.lt hr) (Nat.lt_irrefl _)
    · obtain ⟨-, rfl⟩ | ⟨-, hr⟩ := holds_make hr
      · exact absurd (h.lt hq) (Nat.lt_irrefl _)
      · exact h.inj hq hr
  freed_lt hmem := Nat.lt_succ_of_lt (h.freed_lt hmem)

theorem Kept.make (h : c.Kept base) (hp : c.holds p = none) : (c.make p).Kept base := by
  intro n hbase hn
  rcases Nat.lt_succ_iff_lt_or_eq.1 hn with hn | rfl
  · refine (h n hbase hn).imp_left ?_
    rintro ⟨q, hq⟩
    have hne : q ≠ p := by
      rintro rfl
      rw [hp] at hq
      cases hq
    exact ⟨q, by simpa [Custody.make, hne] using hq⟩
  · exact .inl ⟨p, by simp [Custody.make]⟩

end Make

theorem Sound.drop (h : c.Sound) : c.drop.Sound where
  lt hp := Nat.lt_succ_of_lt (h.lt hp)
  notMem := h.notMem
  inj := h.inj
  freed_lt hmem := Nat.lt_succ_of_lt (h.freed_lt hmem)

theorem Sound.not_kept_drop (h : c.Sound) (hbase : base ≤ c.made) : ¬ c.drop.Kept base := by
  intro hkept
  obtain ⟨p, hp⟩ | hmem := hkept c.made hbase (Nat.lt_succ_self _)
  · exact Nat.lt_irrefl _ (h.lt hp)
  · exact Nat.lt_irrefl _ (h.freed_lt hmem)

/-! ### Resources are moved -/

theorem Sound.move (h : c.Sound) {holds : P → Option ℕ} (f : P → P)
    (hfrom : ∀ {p n}, holds p = some n → c.holds (f p) = some n)
    (hinj : ∀ {p q n}, holds p = some n → holds q = some n → f p = f q → p = q) :
    Sound { c with holds } where
  lt hp := h.lt (hfrom hp)
  notMem hp := h.notMem (hfrom hp)
  inj hp hq := hinj hp hq (h.inj (hfrom hp) (hfrom hq))
  freed_lt := h.freed_lt

theorem Sound.kept_move_iff (h : c.Sound) (hkept : c.Kept base) {holds : P → Option ℕ} :
    Kept base { c with holds } ↔ ∀ p n, base ≤ n → c.holds p = some n → ∃ q, holds q = some n := by
  constructor
  · intro hmoved p n hbase hp
    exact (hmoved n hbase (h.lt hp)).resolve_right (h.notMem hp)
  · intro hmoved n hbase hn
    refine (hkept n hbase hn).imp_left ?_
    rintro ⟨p, hp⟩
    exact hmoved p n hbase hp

/-! ### A resource is freed -/

def free [DecidableEq P] (c : Custody P) (p : P) (n : ℕ) : Custody P :=
  { c with holds := Function.update c.holds p none, freed := n :: c.freed }

section Free

variable [DecidableEq P] {p : P} {n : ℕ}

theorem holds_free {q : P} {m : ℕ} (h : (c.free p n).holds q = some m) : q ≠ p ∧ c.holds q = some m := by
  by_cases hq : q = p
  · simp [free, hq] at h
  · exact ⟨hq, by simpa [free, hq] using h⟩

theorem Sound.free (h : c.Sound) (hp : c.holds p = some n) : (c.free p n).Sound where
  lt hq := h.lt (holds_free hq).2
  notMem hq hmem := by
    obtain ⟨hne, hheld⟩ := holds_free hq
    rcases mem_cons.1 hmem with heq | hmem
    · exact hne (h.inj hheld (heq ▸ hp))
    · exact h.notMem hheld hmem
  inj hq hr := h.inj (holds_free hq).2 (holds_free hr).2
  freed_lt hmem := by
    rcases mem_cons.1 hmem with rfl | hmem
    · exact h.lt hp
    · exact h.freed_lt hmem

theorem Kept.free (h : c.Kept base) (hp : c.holds p = some n) : (c.free p n).Kept base := by
  intro m hbase hm
  obtain ⟨q, hq⟩ | hmem := h m hbase hm
  · by_cases hqp : q = p
    · subst hqp
      rw [hp] at hq
      exact .inr (mem_cons.2 (.inl (Option.some.inj hq).symm))
    · exact .inl ⟨q, by simpa [Custody.free, hqp] using hq⟩
  · exact .inr (mem_cons_of_mem _ hmem)

end Free

end Custody
