/-
**Doubly linked lists.**

Two functions give for an element the one behind it and the one in front of it.  A whole list is a segment
with nothing on either side.
-/

import Mathlib.Tactic

set_option autoImplicit false

namespace DoublyLinked

open List Option

variable {A : Type*}

def Segment (next prev : A → Option A) : Option A → List A → Option A → Prop
  | _, [], _ => True
  | before, a :: l, after =>
    prev a = before ∧ next a = l.head?.or after ∧ Segment next prev (some a) l after

variable {next prev next' prev' : A → Option A} {before before' after after' : Option A} {l m : List A} {a : A}

theorem getLast?_cons_or (a : A) (l : List A) (before : Option A) :
    (a :: l).getLast?.or before = l.getLast?.or (some a) := by
  rw [getLast?_cons]
  cases l.getLast? <;> rfl

theorem segment_append :
    Segment next prev before (l ++ m) after ↔
      Segment next prev before l (m.head?.or after) ∧ Segment next prev (l.getLast?.or before) m after := by
  induction l generalizing before with
  | nil => simp [Segment]
  | cons a l ih =>
    rw [cons_append, Segment, Segment, ih, getLast?_cons_or, head?_append, Option.or_assoc]
    simp only [and_assoc]

theorem Segment.congr (h : Segment next prev before l after) (hnext : ∀ b ∈ l, next' b = next b)
    (hprev : ∀ b ∈ l, prev' b = prev b) : Segment next' prev' before l after := by
  induction l generalizing before with
  | nil => trivial
  | cons a l ih =>
    obtain ⟨hbefore, hafter, hrest⟩ := h
    rw [forall_mem_cons] at hnext hprev
    exact ⟨hprev.1.trans hbefore, hnext.1.trans hafter, ih hrest hnext.2 hprev.2⟩

theorem Segment.restart (h : Segment next prev before l after) (hnodup : l.Nodup)
    (hnext : ∀ b ∈ l, next' b = next b) (hfirst : ∀ b, l.head? = some b → prev' b = before')
    (hprev : ∀ b ∈ l, l.head? ≠ some b → prev' b = prev b) : Segment next' prev' before' l after := by
  cases l with
  | nil => trivial
  | cons a l =>
    obtain ⟨-, hafter, hrest⟩ := h
    rw [forall_mem_cons] at hnext
    refine ⟨hfirst a rfl, hnext.1.trans hafter, hrest.congr hnext.2 fun b hb => ?_⟩
    refine hprev b (mem_cons_of_mem a hb) fun heq => ?_
    exact (nodup_cons.1 hnodup).1 (some.inj heq ▸ hb)

theorem Segment.reend (h : Segment next prev before l after) (hnodup : l.Nodup)
    (hprev : ∀ b ∈ l, prev' b = prev b) (hlast : ∀ b, l.getLast? = some b → next' b = after')
    (hnext : ∀ b ∈ l, l.getLast? ≠ some b → next' b = next b) : Segment next' prev' before l after' := by
  obtain rfl | ⟨l, a, rfl⟩ := eq_nil_or_concat' l
  · trivial
  · rw [segment_append] at h ⊢
    have hnot : a ∉ l := fun ha => (nodup_append'.1 hnodup).2.2 ha (mem_singleton_self a)
    refine ⟨h.1.congr (fun b hb => hnext b (mem_append_left _ hb) fun heq => ?_) fun b hb =>
      hprev b (mem_append_left _ hb), ?_⟩
    · rw [getLast?_concat] at heq
      exact hnot (some.inj heq ▸ hb)
    · have ha : a ∈ l ++ [a] := mem_append_right _ (mem_singleton_self a)
      exact ⟨(hprev a ha).trans h.2.1, hlast a getLast?_concat, trivial⟩

theorem Segment.push (h : Segment next prev none l none) (hnodup : (a :: l).Nodup)
    (hnext : ∀ b, b ≠ a → next' b = next b) (hnextA : next' a = l.head?) (hprevA : prev' a = none)
    (hfirst : ∀ b, l.head? = some b → prev' b = some a)
    (hprev : ∀ b, b ≠ a → l.head? ≠ some b → prev' b = prev b) :
    Segment next' prev' none (a :: l) none := by
  obtain ⟨hnot, hl⟩ := nodup_cons.1 hnodup
  refine ⟨hprevA, by rw [hnextA, or_none], h.restart hl (fun b hb => ?_) hfirst fun b hb hne => ?_⟩
  · exact hnext b (ne_of_mem_of_not_mem hb hnot)
  · exact hprev b (ne_of_mem_of_not_mem hb hnot) hne

theorem Segment.links {pre post : List A} (h : Segment next prev before (pre ++ a :: post) after) :
    prev a = pre.getLast?.or before ∧ next a = post.head?.or after :=
  ⟨(segment_append.1 h).2.1, (segment_append.1 h).2.2.1⟩

theorem Segment.unlink {pre post : List A} (h : Segment next prev before (pre ++ a :: post) after)
    (hnodup : (pre ++ a :: post).Nodup) (hnext : ∀ b, b ≠ a → pre.getLast? ≠ some b → next' b = next b)
    (hlast : ∀ b, pre.getLast? = some b → next' b = next a)
    (hprev : ∀ b, b ≠ a → post.head? ≠ some b → prev' b = prev b)
    (hfirst : ∀ b, post.head? = some b → prev' b = prev a) :
    Segment next' prev' before (pre ++ post) after := by
  obtain ⟨hprevA, hnextA⟩ := h.links
  obtain ⟨hpre, -, -, hpost⟩ := segment_append.1 h
  obtain ⟨hnodup₁, hnodup₂, hdisj⟩ := nodup_append'.1 hnodup
  obtain ⟨hnotpost, hnodup₂⟩ := nodup_cons.1 hnodup₂
  have hnotpre : a ∉ pre := fun ha => hdisj ha mem_cons_self
  refine segment_append.2 ⟨hpre.reend hnodup₁ (fun b hb => ?_) (fun b hb => (hlast b hb).trans hnextA)
    fun b hb hne => hnext b (ne_of_mem_of_not_mem hb hnotpre) hne, hpost.restart hnodup₂ (fun b hb => ?_)
    (fun b hb => (hfirst b hb).trans hprevA) fun b hb hne => hprev b (ne_of_mem_of_not_mem hb hnotpost) hne⟩
  · refine hprev b (ne_of_mem_of_not_mem hb hnotpre) fun heq => ?_
    exact hdisj hb (mem_cons_of_mem a (mem_of_mem_head? heq))
  · refine hnext b (ne_of_mem_of_not_mem hb hnotpost) fun heq => ?_
    exact hdisj (mem_of_mem_getLast? heq) (mem_cons_of_mem a hb)

end DoublyLinked
