/-
**Lists of entries in the order of their keys.**

The loops that find the place of a key, the insertion that they make, and lists that are kept in parts, each with a
bound that divides its keys from those behind it.
-/

import Mathlib.Tactic

set_option autoImplicit false

namespace SortedEntries

open List

variable {κ α : Type*} [LinearOrder κ]

def Sorted (es : List (κ × α)) : Prop := es.Pairwise fun e e' => e.1 < e'.1

def ins (k : κ) (x : α) : List (κ × α) → List (κ × α)
  | [] => [(k, x)]
  | e :: es => if k < e.1 then (k, x) :: e :: es else e :: ins k x es

def newPlace (k : κ) : List (κ × α) → Option ℕ
  | [] => some 0
  | e :: es => if e.1 = k then none else if k < e.1 then some 0 else (newPlace k es).map (· + 1)

def place (k : κ) : List (κ × α) → ℕ
  | [] => 0
  | e :: es => if k < e.1 then 0 else place k es + 1

variable {k : κ} {x : α} {es : List (κ × α)}

theorem insertIdx_newPlace {j : ℕ} (h : newPlace k es = some j) :
    j ≤ es.length ∧ es.insertIdx j (k, x) = ins k x es := by
  induction es generalizing j with
  | nil =>
    cases h
    exact ⟨le_rfl, rfl⟩
  | cons e es ih =>
    rw [newPlace] at h
    split at h
    · cases h
    · split at h
      · next hlt =>
        cases h
        exact ⟨Nat.zero_le _, by rw [ins, if_pos hlt]; rfl⟩
      · next hle =>
        obtain ⟨i, hi, rfl⟩ := Option.map_eq_some_iff.1 h
        obtain ⟨hlen, hins⟩ := ih hi
        refine ⟨Nat.succ_le_succ hlen, ?_⟩
        rw [ins, if_neg hle, insertIdx_succ_cons, hins]

theorem insertIdx_place (k : κ) (x : α) (es : List (κ × α)) :
    place k es ≤ es.length ∧ es.insertIdx (place k es) (k, x) = ins k x es := by
  induction es with
  | nil => exact ⟨le_rfl, rfl⟩
  | cons e es ih =>
    rw [place]
    split
    · next hlt => exact ⟨Nat.zero_le _, by rw [ins, if_pos hlt]; rfl⟩
    · next hle =>
      refine ⟨Nat.succ_le_succ ih.1, ?_⟩
      rw [ins, if_neg hle, insertIdx_succ_cons, ih.2]

theorem newPlace_eq_none (hes : Sorted es) : newPlace k es = none ↔ k ∈ es.map Prod.fst := by
  induction es with
  | nil => simp [newPlace]
  | cons e es ih =>
    obtain ⟨he, hes⟩ := pairwise_cons.1 hes
    rw [newPlace, map_cons, mem_cons]
    split
    · next heq => simp [heq]
    · next hne =>
      split
      · next hlt =>
        have hnot : k ∉ es.map Prod.fst := by
          intro hk
          obtain ⟨e', he', rfl⟩ := mem_map.1 hk
          exact lt_asymm hlt (he e' he')
        simp [hnot, Ne.symm hne]
      · rw [Option.map_eq_none_iff, ih hes]
        simp [Ne.symm hne]

theorem ins_perm (k : κ) (x : α) (es : List (κ × α)) : (ins k x es).Perm ((k, x) :: es) := by
  rw [← (insertIdx_place k x es).2]
  exact perm_insertIdx _ _ (insertIdx_place k x es).1

theorem mem_ins {e : κ × α} : e ∈ ins k x es ↔ e = (k, x) ∨ e ∈ es := by
  rw [(ins_perm k x es).mem_iff, mem_cons]

theorem Sorted.ins (hes : Sorted es) (hk : k ∉ es.map Prod.fst) : Sorted (ins k x es) := by
  induction es with
  | nil => exact pairwise_singleton _ _
  | cons e es ih =>
    obtain ⟨he, hes'⟩ := pairwise_cons.1 hes
    rw [map_cons, mem_cons, not_or] at hk
    rw [SortedEntries.ins]
    split
    · next hlt =>
      refine pairwise_cons.2 ⟨fun e' he' => ?_, hes⟩
      rcases mem_cons.1 he' with rfl | he'
      · exact hlt
      · exact lt_trans hlt (he e' he')
    · next hle =>
      refine pairwise_cons.2 ⟨fun e' he' => ?_, ih hes' hk.2⟩
      rcases mem_ins.1 he' with rfl | he'
      · exact lt_of_le_of_ne (le_of_not_gt hle) (Ne.symm hk.1)
      · exact he e' he'

theorem ins_append_left {as : List (κ × α)} (h : ∀ e ∈ as, e.1 ≤ k) (bs : List (κ × α)) :
    ins k x (as ++ bs) = as ++ ins k x bs := by
  induction as with
  | nil => rfl
  | cons e as ih =>
    rw [cons_append, ins, if_neg (not_lt_of_ge (h e (by simp))),
      ih fun e' he' => h e' (mem_cons_of_mem _ he'), cons_append]

theorem ins_append_right {bs : List (κ × α)} (h : ∀ e ∈ bs, k < e.1) (as : List (κ × α)) :
    ins k x (as ++ bs) = ins k x as ++ bs := by
  induction as with
  | nil =>
    cases bs with
    | nil => rfl
    | cons e bs =>
      have hlt : k < e.1 := h e (by simp)
      simp [ins, hlt]
  | cons e as ih =>
    rw [cons_append, ins, ins]
    split
    · rfl
    · rw [ih, cons_append]

theorem ins_between {as bs : List (κ × α)} (has : ∀ e ∈ as, e.1 ≤ k) (hbs : ∀ e ∈ bs, k < e.1) :
    ins k x (as ++ bs) = as ++ (k, x) :: bs := by
  rw [ins_append_left has, ← nil_append bs, ins_append_right hbs]
  rfl

theorem ins_of_le (h : ∀ e ∈ es, e.1 ≤ k) : ins k x es = es ++ [(k, x)] := by
  have hins := ins_between (x := x) h (forall_mem_nil fun e : κ × α => k < e.1)
  rwa [append_nil] at hins

theorem Sorted.lt_of_take {i : ℕ} (hes : Sorted es) {e : κ × α} (he : es[i]? = some e) :
    ∀ e' ∈ es.take i, e'.1 < e.1 := by
  intro e' he'
  obtain ⟨hi, rfl⟩ := List.getElem?_eq_some_iff.1 he
  have hsplit := take_append_drop i es
  rw [drop_eq_getElem_cons hi] at hsplit
  rw [Sorted, ← hsplit] at hes
  exact (pairwise_append.1 hes).2.2 e' he' es[i] mem_cons_self

theorem lookup_ins [BEq κ] [LawfulBEq κ] (hk : k ∉ es.map Prod.fst) (k' : κ) :
    (ins k x es).lookup k' = if k' = k then some x else es.lookup k' := by
  induction es with
  | nil =>
    rcases eq_or_ne k' k with rfl | hne
    · simp [ins]
    · simp [ins, lookup_cons, beq_eq_false_iff_ne.2 hne, hne]
  | cons e es ih =>
    rw [map_cons, mem_cons, not_or] at hk
    rw [ins]
    split
    · rcases eq_or_ne k' k with rfl | hne
      · simp
      · rw [lookup_cons, beq_eq_false_iff_ne.2 hne, if_neg hne]
    · rw [lookup_cons, lookup_cons, ih hk.2]
      rcases eq_or_ne k' e.1 with rfl | hne
      · simp [Ne.symm hk.1]
      · simp [beq_eq_false_iff_ne.2 hne]

omit [LinearOrder κ] in
theorem mem_keys_iff [BEq κ] [LawfulBEq κ] : k ∈ es.map Prod.fst ↔ es.lookup k ≠ none := by
  rw [Ne, lookup_eq_none_iff, mem_map]
  push Not
  refine exists_congr fun e => and_congr_right fun _ => ?_
  simp [eq_comm (a := e.1)]

/-! ### Parts with bounds -/

def contents {κ α : Type*} (parts : List (WithTop κ × List (κ × α))) : List (κ × α) :=
  parts.flatMap Prod.snd

structure Bounded (p : WithTop κ × List (κ × α)) : Prop where
  sorted : Sorted p.2
  nonempty : p.2 ≠ []
  le : ∀ e ∈ p.2, (e.1 : WithTop κ) ≤ p.1

def Fenced : List (WithTop κ × List (κ × α)) → Prop
  | [] => True
  | p :: parts => Bounded p ∧ (∀ e ∈ contents parts, p.1 < (e.1 : WithTop κ)) ∧ Fenced parts

section Fenced

variable {parts pre post : List (WithTop κ × List (κ × α))} {p : WithTop κ × List (κ × α)}
  {K : WithTop κ} {low high : List (κ × α)}

omit [LinearOrder κ] in
theorem contents_append (pre post : List (WithTop κ × List (κ × α))) :
    contents (pre ++ post) = contents pre ++ contents post := flatMap_append

omit [LinearOrder κ] in
theorem contents_cons (p : WithTop κ × List (κ × α)) (post : List (WithTop κ × List (κ × α))) :
    contents (p :: post) = p.2 ++ contents post := flatMap_cons

theorem fenced_append : Fenced (pre ++ post) ↔
    Fenced pre ∧ Fenced post ∧ ∀ q ∈ pre, ∀ e ∈ contents post, q.1 < (e.1 : WithTop κ) := by
  induction pre with
  | nil => simp [Fenced]
  | cons q pre ih =>
    rw [cons_append, Fenced, Fenced, ih, contents_append]
    simp only [mem_append, or_imp, forall_and, forall_mem_cons]
    tauto

theorem fenced_single (hes : Sorted es) (hne : es ≠ []) : Fenced [((⊤ : WithTop κ), es)] :=
  ⟨⟨hes, hne, fun _ _ => le_top⟩, by simp [contents], trivial⟩

theorem Fenced.sorted_contents (h : Fenced parts) : Sorted (contents parts) := by
  induction parts with
  | nil => exact List.Pairwise.nil
  | cons p parts ih =>
    obtain ⟨hp, hlt, hparts⟩ := h
    rw [contents_cons]
    refine pairwise_append.2 ⟨hp.sorted, ih hparts, fun e he e' he' => ?_⟩
    exact WithTop.coe_lt_coe.1 (lt_of_le_of_lt (hp.le e he) (hlt e' he'))

theorem Fenced.sorted_bounds (h : Fenced parts) : Sorted parts := by
  induction parts with
  | nil => exact List.Pairwise.nil
  | cons p parts ih =>
    obtain ⟨-, hlt, hparts⟩ := h
    refine pairwise_cons.2 ⟨fun q hq => ?_, ih hparts⟩
    obtain ⟨before, after, rfl⟩ := append_of_mem hq
    obtain ⟨-, ⟨hbound, -⟩, -⟩ := fenced_append.1 hparts
    obtain ⟨e, he⟩ := exists_mem_of_ne_nil _ hbound.nonempty
    refine lt_of_lt_of_le (hlt e ?_) (hbound.le e he)
    rw [contents_append, contents_cons]
    simp [he]

theorem Fenced.bounded (h : Fenced parts) : ∀ p ∈ parts, Bounded p := by
  induction parts with
  | nil => simp
  | cons q parts ih =>
    obtain ⟨hq, -, hparts⟩ := h
    intro p hp
    rcases mem_cons.1 hp with rfl | hp
    · exact hq
    · exact ih hparts p hp

theorem Fenced.pairwise (h : Fenced parts) :
    parts.Pairwise fun p q => ∀ e ∈ q.2, p.1 < (e.1 : WithTop κ) := by
  induction parts with
  | nil => exact List.Pairwise.nil
  | cons p parts ih =>
    obtain ⟨-, hlt, hparts⟩ := h
    exact pairwise_cons.2 ⟨fun q hq e he => hlt e (mem_flatMap.2 ⟨q, hq, he⟩), ih hparts⟩

theorem Fenced.contents_ne_nil (h : Fenced parts) (hne : parts ≠ []) : contents parts ≠ [] := by
  cases parts with
  | nil => exact absurd rfl hne
  | cons p parts =>
    rw [contents_cons]
    exact fun hnil => h.1.nonempty (append_eq_nil_iff.1 hnil).1

theorem Fenced.lt_of_front (h : Fenced pre) (hpre : ∀ q ∈ pre, q.1 < (k : WithTop κ)) :
    ∀ e ∈ contents pre, e.1 < k := by
  induction pre with
  | nil => simp [contents]
  | cons q pre ih =>
    obtain ⟨hq, -, hrest⟩ := h
    rw [contents_cons]
    intro e he
    rcases mem_append.1 he with he | he
    · exact WithTop.coe_lt_coe.1 (lt_of_le_of_lt (hq.le e he) (hpre q mem_cons_self))
    · exact ih hrest (fun q' hq' => hpre q' (mem_cons_of_mem _ hq')) e he

section Route

variable (h : Fenced (pre ++ p :: post)) (hpre : ∀ q ∈ pre, q.1 < (k : WithTop κ))
  (hp : (k : WithTop κ) ≤ p.1)

include h hpre hp

theorem Fenced.route :
    (∀ e ∈ contents pre, e.1 < k) ∧ ∀ e ∈ contents post, k < e.1 := by
  obtain ⟨hfront, ⟨-, hlt, -⟩, -⟩ := fenced_append.1 h
  exact ⟨hfront.lt_of_front hpre, fun e he => WithTop.coe_lt_coe.1 (lt_of_le_of_lt hp (hlt e he))⟩

theorem Fenced.ins_contents :
    SortedEntries.ins k x (contents (pre ++ p :: post)) =
      contents (pre ++ (p.1, SortedEntries.ins k x p.2) :: post) := by
  obtain ⟨hfront, hbehind⟩ := h.route hpre hp
  rw [contents_append, contents_cons, contents_append, contents_cons,
    ins_append_left fun e he => le_of_lt (hfront e he), ins_append_right hbehind]

theorem Fenced.lookup_contents [BEq κ] [LawfulBEq κ] :
    (contents (pre ++ p :: post)).lookup k = p.2.lookup k := by
  obtain ⟨hfront, hbehind⟩ := h.route hpre hp
  have hfront : (contents pre).lookup k = none := by
    rw [lookup_eq_none_iff]
    intro e he
    simp [ne_of_gt (hfront e he)]
  have hbehind : (contents post).lookup k = none := by
    rw [lookup_eq_none_iff]
    intro e he
    simp [ne_of_lt (hbehind e he)]
  rw [contents_append, contents_cons, lookup_append, lookup_append, hfront, hbehind]
  simp

theorem Fenced.ins (hk : k ∉ p.2.map Prod.fst) :
    Fenced (pre ++ (p.1, SortedEntries.ins k x p.2) :: post) := by
  obtain ⟨hpres, ⟨hbound, hlt, hpost⟩, hfront⟩ := fenced_append.1 h
  refine fenced_append.2 ⟨hpres, ⟨⟨hbound.sorted.ins hk, ?_, ?_⟩, hlt, hpost⟩, ?_⟩
  · exact ne_nil_of_mem (mem_ins.2 (.inl rfl))
  · intro e he
    rcases mem_ins.1 he with rfl | he
    · exact hp
    · exact hbound.le e he
  · intro q hq e he
    rw [contents_cons, mem_append, mem_ins, or_assoc] at he
    rcases he with rfl | he
    · exact hpre q hq
    · exact hfront q hq e (by rw [contents_cons, mem_append]; exact he)

end Route

theorem Fenced.divide (h : Fenced (pre ++ (K, low ++ high) :: post)) (hlow : low ≠ []) (hhigh : high ≠ [])
    (hle : ∀ e ∈ low, e.1 ≤ k) (hlt : ∀ e ∈ high, k < e.1) :
    Fenced (pre ++ ((k : WithTop κ), low) :: (K, high) :: post) := by
  obtain ⟨hpre, ⟨hbound, hbehind, hpost⟩, hfront⟩ := fenced_append.1 h
  obtain ⟨hlows, hhighs, -⟩ := pairwise_append.1 hbound.sorted
  obtain ⟨e₀, he₀⟩ := exists_mem_of_ne_nil _ hhigh
  have hK : (k : WithTop κ) < K := lt_of_lt_of_le (WithTop.coe_lt_coe.2 (hlt e₀ he₀))
    (hbound.le e₀ (mem_append_right _ he₀))
  refine fenced_append.2 ⟨hpre, ⟨⟨hlows, hlow, fun e he => WithTop.coe_le_coe.2 (hle e he)⟩, ?_,
    ⟨hhighs, hhigh, fun e he => hbound.le e (mem_append_right _ he)⟩, hbehind, hpost⟩, ?_⟩
  · intro e he
    rw [contents_cons] at he
    rcases mem_append.1 he with he | he
    · exact WithTop.coe_lt_coe.2 (hlt e he)
    · exact lt_trans hK (hbehind e he)
  · intro q hq e he
    refine hfront q hq e ?_
    rw [contents_cons, contents_cons, ← append_assoc] at he
    rw [contents_cons]
    exact he

theorem Fenced.cut (h : Fenced (pre ++ ((k : WithTop κ), es) :: post)) :
    Fenced (pre ++ [(⊤, es)]) ∧ Fenced post ∧ (∀ e ∈ contents (pre ++ [(⊤, es)]), e.1 ≤ k) ∧
      ∀ e ∈ contents post, k < e.1 := by
  obtain ⟨hpre, ⟨hbound, hbehind, hpost⟩, hfront⟩ := fenced_append.1 h
  have hbelow : ∀ q ∈ pre, q.1 < (k : WithTop κ) := fun q hq =>
    (pairwise_append.1 h.sorted_bounds).2.2 q hq _ mem_cons_self
  have hcontents : contents (pre ++ [((⊤ : WithTop κ), es)]) = contents pre ++ es := by
    simp [contents]
  refine ⟨fenced_append.2 ⟨hpre, fenced_single hbound.sorted hbound.nonempty, ?_⟩, hpost, ?_,
    fun e he => WithTop.coe_lt_coe.1 (hbehind e he)⟩
  · intro q hq e he
    refine hfront q hq e ?_
    rw [contents_cons] at he ⊢
    rw [contents, flatMap_nil, append_nil] at he
    exact mem_append_left _ he
  · rw [hcontents]
    intro e he
    rcases mem_append.1 he with he | he
    · exact le_of_lt (hpre.lt_of_front hbelow e he)
    · exact WithTop.coe_le_coe.1 (hbound.le e he)

end Fenced

end SortedEntries
