/-
**Insertion into the B+ tree.**

A tree of height `h` at an address has a list of entries and a list of nodes (`Rep`).  `insert2` works on it
from the leaf upwards; what it does to the nodes is said by `Moves`.  A node that becomes too large is halved
as the last thing, and then a call of `link` remains, which belongs to the father (`Outcome`).
-/

import BackendProgramming.BPlusTreeSplit

set_option autoImplicit false

namespace SqliteDemo

open SortedEntries List Option

/-! ### Trees -/

abbrev Entry := Key × List UInt8

structure Son where
  bound : WithTop Key
  child : ℕ
  entries : List Entry
  foot : List ℕ

def Son.route (s : Son) : WithTop Key × ℕ := (s.bound, s.child)

def Son.part (s : Son) : WithTop Key × List Entry := (s.bound, s.entries)

inductive Rep (st : Store) : ℕ → ℕ → List Entry → List ℕ → Prop
  | leaf {a : ℕ} {node : Node} {es : List Entry} (hget : st.nodes a = some node)
      (hholds : LeafHolds node es) (hsorted : Sorted es) : Rep st 0 a es [a]
  | inner {h a : ℕ} {node : Node} {sons : List Son} (hget : st.nodes a = some node)
      (hroutes : Routes node (sons.map Son.route)) (hfenced : Fenced (sons.map Son.part))
      (hsons : ∀ s ∈ sons, Rep st h s.child s.entries s.foot) :
      Rep st (h + 1) a (contents (sons.map Son.part)) (a :: sons.flatMap Son.foot)

section Rep

variable {st st' : Store} {h a : ℕ} {es : List Entry} {foot : List ℕ}

theorem Rep.sorted (hrep : Rep st h a es foot) : Sorted es := by
  cases hrep with
  | leaf _ _ hsorted => exact hsorted
  | inner _ _ hfenced _ => exact hfenced.sorted_contents

theorem Rep.mem_foot (hrep : Rep st h a es foot) : a ∈ foot := by
  cases hrep with
  | leaf _ _ _ => exact mem_singleton_self a
  | inner _ _ _ _ => exact mem_cons_self

theorem sorted_routes {sons : List Son} (h : Fenced (sons.map Son.part)) :
    Sorted (sons.map Son.route) := by
  have hbounds := h.sorted_bounds
  rw [Sorted, pairwise_map] at hbounds ⊢
  exact hbounds

theorem Rep.pages (hrep : Rep st h a es foot) : ∀ x ∈ foot, ∃ node, st.nodes x = some node ∧
    ((∃ es, LeafHolds node es ∧ Sorted es) ∨ ∃ es, IntHolds node es ∧ Sorted es) := by
  induction hrep with
  | leaf hget hholds hsorted =>
    intro x hx
    rw [mem_singleton.1 hx]
    exact ⟨_, hget, .inl ⟨_, hholds, hsorted⟩⟩
  | inner hget hroutes hfenced _ ih =>
    intro x hx
    rcases mem_cons.1 hx with rfl | hx
    · obtain ⟨es, hes, hsons⟩ := hroutes
      have hsorted := sorted_routes hfenced
      rw [hsons] at hsorted
      exact ⟨_, hget, .inr ⟨es, hes, sorted_fenced hsorted⟩⟩
    · obtain ⟨s, hs, hx⟩ := mem_flatMap.1 hx
      exact ih s hs x hx

theorem Rep.allocated (hrep : Rep st h a es foot) : ∀ x ∈ foot, st.nodes x ≠ none := by
  intro x hx
  obtain ⟨node, hget, -⟩ := hrep.pages x hx
  rw [hget]
  exact some_ne_none node

theorem Rep.frame (hrep : Rep st h a es foot) (hsame : ∀ x ∈ foot, st'.nodes x = st.nodes x) :
    Rep st' h a es foot := by
  induction hrep with
  | leaf hget hholds hsorted =>
    exact .leaf ((hsame _ (mem_singleton_self _)).trans hget) hholds hsorted
  | inner hget hroutes hfenced _ ih =>
    refine .inner ((hsame _ mem_cons_self).trans hget) hroutes hfenced fun s hs => ?_
    exact ih s hs fun x hx =>
      hsame x (mem_cons_of_mem _ (mem_flatMap.2 ⟨s, hs, hx⟩))

theorem Rep.inner_cases (hrep : Rep st (h + 1) a es foot) :
    ∃ (node : Node) (sons : List Son), st.nodes a = some node ∧ Routes node (sons.map Son.route) ∧
      Fenced (sons.map Son.part) ∧ (∀ s ∈ sons, Rep st h s.child s.entries s.foot) ∧
      es = contents (sons.map Son.part) ∧ foot = a :: sons.flatMap Son.foot := by
  cases hrep with
  | inner hget hroutes hfenced hsons => exact ⟨_, _, hget, hroutes, hfenced, hsons, rfl, rfl⟩

theorem Routes.ne_nil {node : Node} {sons : List Son} (h : Routes node (sons.map Son.route)) :
    sons ≠ [] := by
  rintro rfl
  obtain ⟨es, -, hnil⟩ := h
  simp at hnil

theorem Rep.height_lt (hrep : Rep st h a es foot) : h < foot.length := by
  induction hrep with
  | leaf _ _ _ => exact Nat.one_pos
  | inner _ hroutes _ _ ih =>
    obtain ⟨s, hs⟩ := exists_mem_of_ne_nil _ hroutes.ne_nil
    have hlt := ih s hs
    obtain ⟨before, after, rfl⟩ := append_of_mem hs
    rw [length_cons, flatMap_append, flatMap_cons, length_append,
      length_append]
    omega

end Rep

/-! ### Changes of the store -/

structure Moves (st st' : Store) (foot foot' : List ℕ) : Prop where
  kept : ∀ x, st.nodes x ≠ none → x ∉ foot → st'.nodes x = st.nodes x
  new : ∀ x ∈ foot', x ∈ foot ∨ st.nodes x = none
  old : ∀ x ∈ foot, x ∈ foot'
  allocated : ∀ x, st'.nodes x ≠ none ↔ st.nodes x ≠ none ∨ x ∈ foot'

def Numbered (alloc : ℕ → ℕ) (st : Store) : Prop :=
  ∀ x, st.nodes x ≠ none ↔ ∃ i < st.count, alloc i = x

section Moves

variable {st st' st'' : Store} {foot foot' foot'' : List ℕ}

theorem Moves.trans (h : Moves st st' foot foot') (h' : Moves st' st'' foot' foot'') :
    Moves st st'' foot foot'' where
  kept := by
    intro x hx hfoot
    have hfoot' : x ∉ foot' := fun hx' => (h.new x hx').elim hfoot hx
    rw [h'.kept x ((h.allocated x).2 (.inl hx)) hfoot', h.kept x hx hfoot]
  new := by
    intro x hx
    rcases h'.new x hx with hx | hx
    · exact h.new x hx
    · refine .inr (by_contra fun hne => ?_)
      exact (h.allocated x).2 (.inl hne) hx
  old := fun x hx => h'.old x (h.old x hx)
  allocated := by
    intro x
    rw [h'.allocated, h.allocated]
    constructor
    · rintro ((hx | hx) | hx)
      · exact .inl hx
      · exact .inr (h'.old x hx)
      · exact .inr hx
    · rintro (hx | hx)
      · exact .inl (.inl hx)
      · exact .inr hx

theorem Moves.widen (h : Moves st st' foot foot') {before after : List ℕ}
    (hbefore : ∀ x ∈ before, st.nodes x ≠ none) (hafter : ∀ x ∈ after, st.nodes x ≠ none) :
    Moves st st' (before ++ (foot ++ after)) (before ++ (foot' ++ after)) where
  kept := fun x hx hfoot => h.kept x hx fun hmem => hfoot (by simp [hmem])
  new := by
    intro x hx
    simp only [mem_append] at hx ⊢
    rcases hx with hx | hx | hx
    · exact .inl (.inl hx)
    · rcases h.new x hx with hx | hx
      · exact .inl (.inr (.inl hx))
      · exact .inr hx
    · exact .inl (.inr (.inr hx))
  old := by
    intro x hx
    simp only [mem_append] at hx ⊢
    exact hx.imp_right (Or.imp_left (h.old x))
  allocated := by
    intro x
    rw [h.allocated]
    simp only [mem_append]
    constructor
    · rintro (hx | hx)
      · exact .inl hx
      · exact .inr (.inr (.inl hx))
    · rintro (hx | hx | hx | hx)
      · exact .inl hx
      · exact .inl (hbefore x hx)
      · exact .inr hx
      · exact .inl (hafter x hx)

theorem Moves.disjoint (h : Moves st st' foot foot') {other : List ℕ}
    (hother : ∀ x ∈ other, st.nodes x ≠ none) (hdisj : List.Disjoint other foot) :
    List.Disjoint other foot' := by
  intro x hx hx'
  rcases h.new x hx' with hmem | hnone
  · exact hdisj hx hmem
  · exact hother x hx hnone

theorem Moves.congr (h : Moves st st' foot foot') (hmem : ∀ x, x ∈ foot'' ↔ x ∈ foot') :
    Moves st st' foot foot'' where
  kept := h.kept
  new := fun x hx => h.new x ((hmem x).1 hx)
  old := fun x hx => (hmem x).2 (h.old x hx)
  allocated := fun x => by rw [h.allocated, hmem]

theorem Moves.set {a : ℕ} (ha : a ∈ foot) (hfoot : ∀ x ∈ foot, st.nodes x ≠ none) (node : Node) :
    Moves st (st.set a node) foot foot where
  kept := fun x _ hx => Store.nodes_set_of_ne fun heq => hx (heq ▸ ha)
  new := fun _ hx => .inl hx
  old := fun _ hx => hx
  allocated := by
    intro x
    rcases eq_or_ne x a with rfl | hne
    · simp [hfoot x ha]
    · rw [Store.nodes_set_of_ne hne]
      exact ⟨.inl, fun hx => hx.elim id (hfoot x)⟩

theorem Moves.add {alloc : ℕ → ℕ} (hfresh : st.nodes (st.next alloc) = none)
    (hfoot : ∀ x ∈ foot, st.nodes x ≠ none) (node : Node) :
    Moves st (st.add alloc node) foot (foot ++ [st.next alloc]) where
  kept := fun x hx _ => Store.nodes_add_of_ne fun heq => hx (heq ▸ hfresh)
  new := by
    intro x hx
    rcases mem_append.1 hx with hx | hx
    · exact .inl hx
    · rw [mem_singleton.1 hx]
      exact .inr hfresh
  old := fun x hx => mem_append_left _ hx
  allocated := by
    intro x
    rcases eq_or_ne x (st.next alloc) with rfl | hne
    · simp
    · rw [Store.nodes_add_of_ne hne]
      constructor
      · exact .inl
      · rintro (hx | hx)
        · exact hx
        · rcases mem_append.1 hx with hx | hx
          · exact hfoot x hx
          · exact absurd (mem_singleton.1 hx) hne

end Moves

section Numbered

variable {alloc : ℕ → ℕ} {st : Store}

theorem Numbered.fresh (h : Numbered alloc st) (hinj : Function.Injective alloc) :
    st.nodes (st.next alloc) = none := by
  by_contra hne
  obtain ⟨i, hi, heq⟩ := (h _).1 hne
  exact absurd (hinj heq) (Nat.ne_of_lt hi)

theorem Numbered.set (h : Numbered alloc st) {a : ℕ} (ha : st.nodes a ≠ none) (node : Node) :
    Numbered alloc (st.set a node) := by
  intro x
  rcases eq_or_ne x a with rfl | hne
  · exact iff_of_true (by simp) ((h x).1 ha)
  · rw [Store.nodes_set_of_ne hne]
    exact h x

theorem Numbered.add (h : Numbered alloc st) (node : Node) : Numbered alloc (st.add alloc node) := by
  intro x
  rcases eq_or_ne x (st.next alloc) with rfl | hne
  · refine iff_of_true (by simp) ⟨st.count, Nat.lt_succ_self _, rfl⟩
  · rw [Store.nodes_add_of_ne hne, h x]
    constructor
    · rintro ⟨i, hi, heq⟩
      exact ⟨i, Nat.lt_succ_of_lt hi, heq⟩
    · rintro ⟨i, hi, rfl⟩
      rcases Nat.lt_or_eq_of_le (Nat.le_of_lt_succ hi) with hlt | rfl
      · exact ⟨i, hlt, rfl⟩
      · exact absurd rfl hne

theorem Numbered.length_le (h : Numbered alloc st) {foot : List ℕ} (hnodup : foot.Nodup)
    (hfoot : ∀ x ∈ foot, st.nodes x ≠ none) : foot.length ≤ st.count := by
  have hsub : foot.toFinset ⊆ (Finset.range st.count).image alloc := by
    intro x hx
    obtain ⟨i, hi, rfl⟩ := (h x).1 (hfoot x (mem_toFinset.1 hx))
    exact Finset.mem_image_of_mem _ (Finset.mem_range.2 hi)
  calc foot.length = foot.toFinset.card := (toFinset_card_of_nodup hnodup).symm
    _ ≤ ((Finset.range st.count).image alloc).card := Finset.card_le_card hsub
    _ ≤ (Finset.range st.count).card := Finset.card_image_le
    _ = st.count := Finset.card_range _

end Numbered

/-! ### The outcome for a tree -/

inductive Outcome (alloc : ℕ → ℕ) (st : Store) (h a : ℕ) (es : List Entry) (foot : List ℕ)
    (father : ℕ) : Store → ℕ → Prop
  | whole {st' : Store} {foot' : List ℕ} (hrep : Rep st' h a es foot') (hnodup : foot'.Nodup)
      (hmoves : Moves st st' foot foot') (hnum : Numbered alloc st') :
      Outcome alloc st h a es foot father st' father
  | halves {st₁ st' : Store} {father' b : ℕ} {key : Key} {low high : List Entry}
      {footL footR : List ℕ} (hes : es = low ++ high) (hlow : low ≠ []) (hhigh : high ≠ [])
      (hle : ∀ e ∈ low, e.1 ≤ key) (hlt : ∀ e ∈ high, key < e.1) (hleft : Rep st₁ h a low footL)
      (hright : Rep st₁ h b high footR) (hnodup : (footL ++ footR).Nodup)
      (hmoves : Moves st st₁ foot (footL ++ footR)) (hnum : Numbered alloc st₁)
      (hlink : link true alloc st₁ father a b key = .ok (st', father')) :
      Outcome alloc st h a es foot father st' father'

theorem Outcome.of_moves {alloc : ℕ → ℕ} {st st₀ st' : Store} {h a father father' : ℕ}
    {es : List Entry} {foot foot₀ : List ℕ} (hmoves : Moves st st₀ foot foot₀)
    (hout : Outcome alloc st₀ h a es foot₀ father st' father') :
    Outcome alloc st h a es foot father st' father' := by
  cases hout with
  | whole hrep hnodup hmoves' hnum => exact .whole hrep hnodup (hmoves.trans hmoves') hnum
  | halves hes hlow hhigh hle hlt hleft hright hnodup hmoves' hnum hlink =>
    exact .halves hes hlow hhigh hle hlt hleft hright hnodup (hmoves.trans hmoves') hnum hlink

/-! ### Splitting a node -/

section Split

variable {alloc : ℕ → ℕ} (hinj : Function.Injective alloc) {st st' : Store} (hnum : Numbered alloc st)
  {a father father' : ℕ} {node : Node}

include hinj hnum

theorem moves_split {foot : List ℕ} (ha : a ∈ foot) (hfoot : ∀ x ∈ foot, st.nodes x ≠ none)
    (left newNode : Node) :
    st.next alloc ≠ a ∧ st.next alloc ∉ foot ∧ Numbered alloc ((st.add alloc newNode).set a left) ∧
      Moves st ((st.add alloc newNode).set a left) foot (foot ++ [st.next alloc]) := by
  have hfresh := hnum.fresh hinj
  have hnext : st.next alloc ∉ foot := fun hmem => hfoot _ hmem hfresh
  have hadd := Moves.add hfresh hfoot newNode
  have halloc : ∀ x ∈ foot ++ [st.next alloc], (st.add alloc newNode).nodes x ≠ none :=
    fun x hx => (hadd.allocated x).2 (.inr hx)
  have ha' : a ∈ foot ++ [st.next alloc] := mem_append_left _ ha
  exact ⟨fun heq => hnext (heq ▸ ha), hnext, (hnum.add newNode).set (halloc a ha') left,
    hadd.trans (Moves.set ha' halloc left)⟩

theorem splitLeafNode_outcome (hget : st.nodes a = some node) {es : List Entry}
    (hholds : LeafHolds node es) (hsorted : Sorted es) (hlen : theOrder ≤ node.cellSize)
    (hrun : splitLeafNode true alloc st a father = .ok (st', father')) :
    Outcome alloc st 0 a es [a] father st' father' := by
  rw [splitLeafNode, splitNode, Store.get_eq hget, ok_bind] at hrun
  obtain ⟨⟨left, newNode, key⟩, hsplit, hlink⟩ := bind_eq_ok.1 hrun
  obtain ⟨low, high, hes, hhalf, hhigh, hleft, hright, hle, hlt, -⟩ :=
    splitLeafPage_spec hholds hsorted (by rw [← hholds.length]; exact hlen) hsplit
  have hlow : low ≠ [] := ne_nil_of_length_pos (by rw [hhalf]; decide)
  obtain ⟨hne, hnotin, hnum', hmoves⟩ := moves_split hinj hnum (mem_singleton_self a)
    (by simp [hget]) left newNode
  rw [hes] at hsorted
  obtain ⟨hlows, hhighs, -⟩ := pairwise_append.1 hsorted
  refine .halves hes hlow hhigh hle hlt (.leaf Store.nodes_set_self hleft hlows)
    (.leaf ?_ hright hhighs) ?_ hmoves hnum' hlink
  · rw [Store.nodes_set_of_ne hne, Store.nodes_add_next]
  · simpa using Ne.symm hne

theorem splitIntNode_outcome (hget : st.nodes a = some node) {h : ℕ} {es : List Entry} {foot : List ℕ}
    (hrep : Rep st (h + 1) a es foot) (hnodup : foot.Nodup) (hlen : theOrder ≤ node.cellSize)
    (hrun : splitIntNode true alloc st a father = .ok (st', father')) :
    Outcome alloc st (h + 1) a es foot father st' father' := by
  have halloc := hrep.allocated
  obtain ⟨node', sons, hget', hroutes, hfenced, hsons, rfl, rfl⟩ := hrep.inner_cases
  obtain rfl : node = node' := some.inj (hget.symm.trans hget')
  rw [splitIntNode, splitNode, Store.get_eq hget, ok_bind] at hrun
  obtain ⟨⟨left, newNode, key⟩, hsplit, hlink⟩ := bind_eq_ok.1 hrun
  obtain ⟨low, child, high, hes, -, hleft, hright, -⟩ :=
    splitIntPage_routes hroutes (sorted_routes hfenced) hlen hsplit
  obtain ⟨lows, rest, rfl, rfl, hrest⟩ := map_eq_append_iff.1 hes
  obtain ⟨s, highs, rfl, hs, rfl⟩ := map_eq_cons_iff.1 hrest
  obtain ⟨hbound, rfl⟩ := Prod.mk.inj hs
  -- the middle child is the last one of the left node, and loses its bound
  have hlefts : (lows ++ [{ s with bound := ⊤ }]).map Son.route =
      lows.map Son.route ++ [(⊤, s.child)] := by simp [Son.route]
  have hparts : (lows ++ s :: highs).map Son.part =
      lows.map Son.part ++ ((key : WithTop Key), s.entries) :: highs.map Son.part := by
    simp [Son.part, hbound]
  have hleftparts : (lows ++ [{ s with bound := ⊤ }]).map Son.part =
      lows.map Son.part ++ [(⊤, s.entries)] := by simp [Son.part]
  rw [hparts] at hfenced
  obtain ⟨hfencedL, hfencedR, hle, hlt⟩ := hfenced.cut
  have hcontents : contents ((lows ++ s :: highs).map Son.part) =
      contents ((lows ++ [{ s with bound := ⊤ }]).map Son.part) ++ contents (highs.map Son.part) := by
    rw [hparts, hleftparts, contents_append, contents_append, contents_cons]
    simp [contents]
  obtain ⟨hne, hnotin, hnum', hmoves⟩ := moves_split hinj hnum mem_cons_self halloc left newNode
  have hframe : ∀ q ∈ lows ++ s :: highs, ∀ x ∈ q.foot,
      ((st.add alloc newNode).set a left).nodes x = st.nodes x := by
    intro q hq x hx
    have hmem : x ∈ (lows ++ s :: highs).flatMap Son.foot := mem_flatMap.2 ⟨q, hq, hx⟩
    rw [Store.nodes_set_of_ne (ne_of_mem_of_not_mem hmem (nodup_cons.1 hnodup).1),
      Store.nodes_add_of_ne (ne_of_mem_of_not_mem (mem_cons_of_mem a hmem) hnotin)]
  have hsame : ∀ q ∈ lows ++ s :: highs,
      Rep ((st.add alloc newNode).set a left) h q.child q.entries q.foot :=
    fun q hq => (hsons q hq).frame (hframe q hq)
  have hfeet : (a :: (lows ++ s :: highs).flatMap Son.foot) =
      (a :: (lows ++ [{ s with bound := ⊤ }]).flatMap Son.foot) ++ highs.flatMap Son.foot := by simp
  refine .halves hcontents ?_ ?_ (hleftparts ▸ hle) hlt
    (.inner Store.nodes_set_self (hlefts ▸ hleft) (hleftparts ▸ hfencedL) ?_)
    (.inner ?_ hright hfencedR fun q hq => hsame q (by simp [hq])) ?_ (hmoves.congr ?_) hnum' hlink
  · rw [hleftparts]
    exact hfencedL.contents_ne_nil (by simp)
  · exact hfencedR.contents_ne_nil (by simpa using hright.ne_nil)
  · intro q hq
    rcases mem_append.1 hq with hq | hq
    · exact hsame q (mem_append_left _ hq)
    · rw [mem_singleton.1 hq]
      exact hsame s (by simp)
  · rw [Store.nodes_set_of_ne hne, Store.nodes_add_next]
  · rw [nodup_middle, ← hfeet]
    exact nodup_cons.2 ⟨hnotin, hnodup⟩
  · intro x
    rw [hfeet]
    simp only [mem_append, mem_cons, not_mem_nil, or_false]
    tauto

end Split

/-! ### A child in its father -/

theorem Rep.rebuild {st st₁ : Store} {h a : ℕ} {pre post : List Son} {s : Son} (mid : List Son)
    (page : Node) (ha : st.nodes a ≠ none)
    (hsons : ∀ q ∈ pre ++ s :: post, Rep st h q.child q.entries q.foot)
    (hnodup : (a :: (pre ++ s :: post).flatMap Son.foot).Nodup)
    (hmoves : Moves st st₁ s.foot (mid.flatMap Son.foot))
    (hmid : ∀ m ∈ mid, Rep st₁ h m.child m.entries m.foot) (hmidnodup : (mid.flatMap Son.foot).Nodup)
    (hroutes : Routes page ((pre ++ (mid ++ post)).map Son.route))
    (hfenced : Fenced ((pre ++ (mid ++ post)).map Son.part)) :
    ∃ foot', Rep (st₁.set a page) (h + 1) a (contents ((pre ++ (mid ++ post)).map Son.part)) foot' ∧
      foot'.Nodup ∧ Moves st (st₁.set a page) (a :: (pre ++ s :: post).flatMap Son.foot) foot' := by
  have hfoot : a :: (pre ++ s :: post).flatMap Son.foot =
      (a :: pre.flatMap Son.foot) ++ (s.foot ++ post.flatMap Son.foot) := by simp
  have hfoot' : a :: (pre ++ (mid ++ post)).flatMap Son.foot =
      (a :: pre.flatMap Son.foot) ++ (mid.flatMap Son.foot ++ post.flatMap Son.foot) := by simp
  have halloc : ∀ q ∈ pre ++ s :: post, ∀ x ∈ q.foot, st.nodes x ≠ none :=
    fun q hq => (hsons q hq).allocated
  have hbefore : ∀ x ∈ a :: pre.flatMap Son.foot, st.nodes x ≠ none := by
    intro x hx
    rcases mem_cons.1 hx with rfl | hx
    · exact ha
    · obtain ⟨q, hq, hx⟩ := mem_flatMap.1 hx
      exact halloc q (by simp [hq]) x hx
  have hafter : ∀ x ∈ post.flatMap Son.foot, st.nodes x ≠ none := by
    intro x hx
    obtain ⟨q, hq, hx⟩ := mem_flatMap.1 hx
    exact halloc q (by simp [hq]) x hx
  rw [hfoot] at hnodup ⊢
  obtain ⟨hnodup₁, hnodup₂, hdisj⟩ := nodup_append'.1 hnodup
  obtain ⟨-, hnodup₃, hdisj'⟩ := nodup_append'.1 hnodup₂
  rw [disjoint_append_right] at hdisj
  -- the nodes of the new children are old ones of the child, or new
  have hnodup' : ((a :: pre.flatMap Son.foot) ++
      (mid.flatMap Son.foot ++ post.flatMap Son.foot)).Nodup := by
    refine nodup_append'.2 ⟨hnodup₁, nodup_append'.2 ⟨hmidnodup, hnodup₃, ?_⟩,
      disjoint_append_right.2 ⟨hmoves.disjoint hbefore hdisj.1, hdisj.2⟩⟩
    exact (hmoves.disjoint hafter hdisj'.symm).symm
  have hwide := hmoves.widen hbefore hafter
  have hset : Moves st₁ (st₁.set a page)
      ((a :: pre.flatMap Son.foot) ++ (mid.flatMap Son.foot ++ post.flatMap Son.foot))
      ((a :: pre.flatMap Son.foot) ++ (mid.flatMap Son.foot ++ post.flatMap Son.foot)) :=
    .set (mem_append_left _ mem_cons_self) (fun x hx => (hwide.allocated x).2 (.inr hx)) page
  refine ⟨a :: (pre ++ (mid ++ post)).flatMap Son.foot,
    .inner Store.nodes_set_self hroutes hfenced fun q hq => ?_, by rw [hfoot']; exact hnodup',
    by rw [hfoot']; exact hwide.trans hset⟩
  rw [← hfoot'] at hnodup'
  have hpage : ∀ x ∈ q.foot, (st₁.set a page).nodes x = st₁.nodes x := fun x hx =>
    Store.nodes_set_of_ne (ne_of_mem_of_not_mem (mem_flatMap.2 ⟨q, hq, hx⟩)
      (nodup_cons.1 hnodup').1)
  have hother : q ∈ pre ++ s :: post → (∀ x ∈ q.foot, x ∉ s.foot) →
      Rep (st₁.set a page) h q.child q.entries q.foot := by
    intro hq hnot
    refine (hsons q hq).frame fun x hx => ?_
    rw [hpage x hx, hmoves.kept x (halloc q hq x hx) (hnot x hx)]
  rcases mem_append.1 hq with hq | hq
  · exact hother (by simp [hq]) fun x hx hx' =>
      hdisj.1 (mem_cons_of_mem a (mem_flatMap.2 ⟨q, hq, hx⟩)) hx'
  · rcases mem_append.1 hq with hq | hq
    · exact (hmid q hq).frame hpage
    · exact hother (by simp [hq]) fun x hx hx' => hdisj' hx' (mem_flatMap.2 ⟨q, hq, hx⟩)

theorem Outcome.absorb {alloc : ℕ → ℕ} (hne : ∀ n, alloc n ≠ 0) {st st' : Store} {h a f : ℕ}
    (hnum : Numbered alloc st) {node : Node} {pre post : List Son} {s : Son} {es : List Entry}
    (hget : st.nodes a = some node) (hroutes : Routes node ((pre ++ s :: post).map Son.route))
    (hfenced : Fenced (pre.map Son.part ++ (s.bound, es) :: post.map Son.part))
    (hsons : ∀ q ∈ pre ++ s :: post, Rep st h q.child q.entries q.foot)
    (hnodup : (a :: (pre ++ s :: post).flatMap Son.foot).Nodup)
    (hout : Outcome alloc st h s.child es s.foot a st' f) :
    ∃ foot', Rep st' (h + 1) a (contents (pre.map Son.part ++ (s.bound, es) :: post.map Son.part)) foot' ∧
      foot'.Nodup ∧ Moves st st' (a :: (pre ++ s :: post).flatMap Son.foot) foot' ∧
      Numbered alloc st' ∧ ∃ page, st'.nodes a = some page ∧ (page = node ∨ Linked node page) := by
  have ha : st.nodes a ≠ none := by rw [hget]; exact some_ne_none node
  have hnot : a ∉ s.foot := fun hmem => (nodup_cons.1 hnodup).1
    (mem_flatMap.2 ⟨s, by simp, hmem⟩)
  cases hout with
  | @whole st' foot' hrep hnodup' hmoves hnum' =>
    have hget' : st'.nodes a = some node := (hmoves.kept a ha hnot).trans hget
    have hmoves' : Moves st st' s.foot ([⟨s.bound, s.child, es, foot'⟩].flatMap Son.foot) := by
      simpa using hmoves
    have hbuild := Rep.rebuild [⟨s.bound, s.child, es, foot'⟩] node ha hsons hnodup hmoves'
      (by simpa using hrep) (by simpa using hnodup')
      (by simpa [Son.route] using hroutes) (by simpa [Son.part] using hfenced)
    rw [Store.set_eq_self hget'] at hbuild
    obtain ⟨foot, hrep', hfoot, hmoves'⟩ := hbuild
    exact ⟨foot, by simpa [Son.part] using hrep', hfoot, hmoves', hnum', node, hget', .inl rfl⟩
  | @halves st₁ st' father b key low high footL footR hes hlow hhigh hle hlt hleft hright hnodup'
      hmoves hnum' hlink =>
      have hget' : st₁.nodes a = some node := (hmoves.kept a ha hnot).trans hget
      obtain ⟨i, -, hi⟩ := (hnum a).1 ha
      rw [link, if_pos (hi ▸ hne i), Store.get_eq hget', ok_bind] at hlink
      obtain ⟨page, hpage, hlink⟩ := bind_eq_ok.1 hlink
      cases hlink
      rw [hes] at hfenced ⊢
      have hdivided := hfenced.divide hlow hhigh hle hlt
      obtain ⟨-, hkey, hpre⟩ := pairwise_append.1 hdivided.sorted_bounds
      have hbelow : ∀ p ∈ pre.map Son.route, p.1 < ↑key := by
        intro p hp
        obtain ⟨q, hq, rfl⟩ := mem_map.1 hp
        exact hpre q.part (mem_map_of_mem hq) _ mem_cons_self
      have hsorted : Sorted (pre.map Son.route ++ (s.bound, s.child) :: post.map Son.route) := by
        have hsons : Fenced ((pre ++ { s with entries := low ++ high } :: post).map Son.part) := by
          simpa [Son.part] using hfenced
        simpa [Son.route] using sorted_routes hsons
      have hfirst : s.child ∉ (pre.map Son.route).map Prod.snd := by
        rw [List.map_map]
        intro hmem
        obtain ⟨q, hq, heq : q.child = s.child⟩ := mem_map.1 hmem
        have hmem₁ : s.child ∈ q.foot := heq ▸ (hsons q (by simp [hq])).mem_foot
        have hmem₂ : s.child ∈ s.foot := (hsons s (by simp)).mem_foot
        have hfeet := (nodup_cons.1 hnodup).2
        rw [flatMap_append, flatMap_cons, nodup_append'] at hfeet
        exact hfeet.2.2 (mem_flatMap.2 ⟨q, hq, hmem₁⟩) (mem_append_left _ hmem₂)
      obtain ⟨hlinked, hpages⟩ := linkPage_routes (by simpa [Son.route] using hroutes) hsorted hfirst hbelow
        ((pairwise_cons.1 hkey).1 _ mem_cons_self) hpage
      have hmoves' : Moves st st₁ s.foot
          ([⟨key, s.child, low, footL⟩, ⟨s.bound, b, high, footR⟩].flatMap Son.foot) := by
        simpa using hmoves
      obtain ⟨foot, hrep, hfoot, hmoves'⟩ := Rep.rebuild
        [⟨key, s.child, low, footL⟩, ⟨s.bound, b, high, footR⟩] page ha hsons hnodup hmoves'
        (by simp [hleft, hright]) (by simpa using hnodup') (by simpa [Son.route] using hlinked)
        (by simpa [Son.part] using hdivided)
      refine ⟨foot, ?_, hfoot, hmoves', hnum'.set (by rw [hget']; exact some_ne_none node) page,
        page, Store.nodes_set_self, .inr hpages⟩
      simpa [Son.part, contents_append, contents_cons] using hrep

/-! ### Insertion -/

theorem fuel_of_insert2 {strict : Bool} {alloc : ℕ → ℕ} {fuel a father : ℕ} {st : Store} {k : Key}
    {data : List UInt8} {r : Store × ℕ × Bool}
    (hrun : insert2 strict alloc fuel st a k data father = .ok r) : ∃ n, fuel = n + 1 := by
  cases fuel with
  | zero => cases hrun
  | succ n => exact ⟨n, rfl⟩

theorem nodup_son {a : ℕ} {pre post : List Son} {s : Son}
    (h : (a :: (pre ++ s :: post).flatMap Son.foot).Nodup) : s.foot.Nodup := by
  have hfeet := (nodup_cons.1 h).2
  rw [flatMap_append, flatMap_cons] at hfeet
  exact hfeet.of_append_right.of_append_left

theorem exists_son {node : Node} {sons : List Son} (hroutes : Routes node (sons.map Son.route))
    (k : Key) :
    ∃ (pre : List Son) (s : Son) (post : List Son), sons = pre ++ s :: post ∧
      (∀ q ∈ pre.map Son.part, q.1 < (k : WithTop Key)) ∧ (k : WithTop Key) ≤ s.part.1 ∧
      childFor node k 0 node.cellSize = .ok s.child := by
  obtain ⟨routes, c, rest, hsplit, hpre, hc, hchild⟩ := childFor_eq hroutes k
  obtain ⟨pre, sons', rfl, rfl, hrest⟩ := map_eq_append_iff.1 hsplit
  obtain ⟨s, post, rfl, rfl, -⟩ := map_eq_cons_iff.1 hrest
  refine ⟨pre, s, post, rfl, fun q hq => ?_, hc, hchild⟩
  obtain ⟨s', hs', rfl⟩ := mem_map.1 hq
  exact hpre s'.route (mem_map_of_mem hs')

section Insert

variable {alloc : ℕ → ℕ} (hinj : Function.Injective alloc) (hne : ∀ n, alloc n ≠ 0) {st : Store}
  (hnum : Numbered alloc st)

include hinj hne hnum

theorem insert2_new {h a : ℕ} {es : List Entry} {foot : List ℕ} (hrep : Rep st h a es foot)
    (hnodup : foot.Nodup) {k : Key} (hk : k ∉ es.map Prod.fst) {data : List UInt8} {fuel father : ℕ}
    {st' : Store} {father' : ℕ} {inserted : Bool}
    (hrun : insert2 true alloc fuel st a k data father = .ok (st', father', inserted)) :
    inserted = true ∧ Outcome alloc st h a (ins k data es) foot father st' father' := by
  induction hrep generalizing fuel father st' father' inserted with
  | @leaf a node es hget hholds hsorted =>
    obtain ⟨fuel, rfl⟩ := fuel_of_insert2 hrun
    rw [insert2, Store.get_eq hget, ok_bind, if_pos hholds.leaf] at hrun
    obtain ⟨⟨ok, page⟩, hins, hrun⟩ := bind_eq_ok.1 hrun
    obtain ⟨hok, hpage, -⟩ := insertLeafCell_new hholds hsorted hk hins
    obtain rfl : ok = true := hok
    have ha : st.nodes a ≠ none := by rw [hget]; exact some_ne_none node
    have hmoves : Moves st (st.set a page) [a] [a] :=
      .set (mem_singleton_self a) (by simpa using ha) page
    have hsorted' := hsorted.ins (x := data) hk
    dsimp only at hrun
    rw [if_neg (by simp)] at hrun
    split at hrun
    · next hlen =>
      obtain ⟨⟨st₁, f⟩, hsplit, hrun⟩ := bind_eq_ok.1 hrun
      cases hrun
      exact ⟨rfl, .of_moves hmoves (splitLeafNode_outcome hinj (hnum.set ha page)
        Store.nodes_set_self hpage hsorted' hlen hsplit)⟩
    · cases hrun
      exact ⟨rfl, .whole (.leaf Store.nodes_set_self hpage hsorted') (nodup_singleton a) hmoves
        (hnum.set ha page)⟩
  | @inner h a node sons hget hroutes hfenced hsons ih =>
    obtain ⟨fuel, rfl⟩ := fuel_of_insert2 hrun
    obtain ⟨pre, s, post, rfl, hpre, hs, hchild⟩ := exists_son hroutes k
    rw [insert2, Store.get_eq hget, ok_bind, if_neg (by simp [hroutes.inner]), hchild,
      ok_bind] at hrun
    obtain ⟨⟨st₁, f₁, ok⟩, hcall, hrun⟩ := bind_eq_ok.1 hrun
    rw [map_append, map_cons] at hfenced hk ⊢
    have hk' : k ∉ s.entries.map Prod.fst := by
      rw [mem_keys_iff, hfenced.lookup_contents hpre hs, ← mem_keys_iff] at hk
      exact hk
    obtain ⟨rfl, hout⟩ := ih s (by simp) (nodup_son hnodup) hk' hcall
    rw [hfenced.ins_contents hpre hs]
    obtain ⟨foot', hrep, hfoot, hmoves, hnum', -⟩ := hout.absorb hne hnum hget hroutes
      (hfenced.ins hpre hs hk') hsons hnodup
    obtain ⟨page, -, hget', -⟩ := hrep.inner_cases
    dsimp only at hrun
    rw [if_neg (by simp), Store.get_eq hget', ok_bind] at hrun
    split at hrun
    · next hlen =>
      obtain ⟨⟨st₂, f⟩, hsplit, hrun⟩ := bind_eq_ok.1 hrun
      cases hrun
      exact ⟨rfl, .of_moves hmoves (splitIntNode_outcome hinj hnum' hget' hrep hfoot hlen hsplit)⟩
    · cases hrun
      exact ⟨rfl, .whole hrep hfoot hmoves hnum'⟩

end Insert

/-! ### The leaf of a key -/

theorem leafFor_eq {st : Store} {h a : ℕ} {es : List Entry} {foot : List ℕ} (hrep : Rep st h a es foot)
    (k : Key) {fuel : ℕ} (hfuel : h < fuel) :
    ∃ leaf entries, leafFor st k fuel a = .ok leaf ∧ LeafHolds leaf entries ∧ Sorted entries ∧
      entries.lookup k = es.lookup k := by
  induction hrep generalizing fuel with
  | @leaf a node es hget hholds hsorted =>
    obtain ⟨fuel, rfl⟩ : ∃ n, fuel = n + 1 := ⟨fuel - 1, by omega⟩
    refine ⟨node, es, ?_, hholds, hsorted, rfl⟩
    rw [leafFor, Store.get_eq hget, ok_bind, if_pos hholds.leaf]
  | @inner h a node sons hget hroutes hfenced hsons ih =>
    obtain ⟨fuel, rfl⟩ : ∃ n, fuel = n + 1 := ⟨fuel - 1, by omega⟩
    obtain ⟨pre, s, post, rfl, hpre, hs, hchild⟩ := exists_son hroutes k
    obtain ⟨leaf, entries, hleaf, hholds, hsorted, hlookup⟩ :=
      ih s (by simp) (Nat.lt_of_succ_lt_succ hfuel)
    refine ⟨leaf, entries, ?_, hholds, hsorted, ?_⟩
    · rw [leafFor, Store.get_eq hget, ok_bind, if_neg (by simp [hroutes.inner]), hchild, ok_bind, hleaf]
    · rw [map_append, map_cons] at hfenced ⊢
      rw [hfenced.lookup_contents hpre hs, hlookup]
      rfl

def Recollected (node node' : Node) : Prop :=
  node' = node ∨ ∃ es, LeafHolds node es ∧ LeafHolds node' es ∧ (LeafWaste node → LeafWaste node')

def SamePages (st st' : Store) : Prop :=
  ∀ x node', st'.nodes x = some node' → ∃ node, st.nodes x = some node ∧ Recollected node node'

theorem insert2_old {alloc : ℕ → ℕ} (hne : ∀ n, alloc n ≠ 0) {st : Store} (hnum : Numbered alloc st)
    {h a : ℕ} {es : List Entry} {foot : List ℕ} (hrep : Rep st h a es foot) (hnodup : foot.Nodup)
    {k : Key} (hk : k ∈ es.map Prod.fst) (data : List UInt8) {fuel : ℕ} (hfuel : h < fuel)
    (father : ℕ) :
    ∃ st' foot' leaf, Rep st' h a es foot' ∧ foot'.Nodup ∧ Moves st st' foot foot' ∧
      Numbered alloc st' ∧ SamePages st st' ∧ leafFor st k fuel a = .ok leaf ∧
      ∀ r, insert2 false alloc fuel st a k data father = .ok r ↔
        data.length + 8 ≤ room leaf ∧ r = (st', father, false) := by
  induction hrep generalizing fuel father with
  | @leaf a node es hget hholds hsorted =>
    obtain ⟨fuel, rfl⟩ : ∃ n, fuel = n + 1 := ⟨fuel - 1, by omega⟩
    obtain ⟨page, hpage, hwaste, hins⟩ := insertLeafCell_old hholds hsorted hk data
    have ha : st.nodes a ≠ none := by rw [hget]; exact some_ne_none node
    refine ⟨st.set a page, [a], node, .leaf Store.nodes_set_self hpage hsorted, hnodup,
      .set (mem_singleton_self a) (by simpa using ha) page, hnum.set ha page, ?_, ?_, fun r => ?_⟩
    · intro x node' hx
      rcases eq_or_ne x a with rfl | hne
      · rw [Store.nodes_set_self] at hx
        cases hx
        exact ⟨node, hget, .inr ⟨es, hholds, hpage, hwaste⟩⟩
      · rw [Store.nodes_set_of_ne hne] at hx
        exact ⟨node', hx, .inl rfl⟩
    · rw [leafFor, Store.get_eq hget, ok_bind, if_pos hholds.leaf]
    · rw [insert2, Store.get_eq hget, ok_bind, if_pos hholds.leaf, bind_eq_ok]
      constructor
      · rintro ⟨x, hx, hr⟩
        obtain ⟨hfits, rfl⟩ := (hins x).1 hx
        exact ⟨hfits, (Except.ok.inj hr).symm⟩
      · rintro ⟨hfits, rfl⟩
        exact ⟨_, (hins _).2 ⟨hfits, rfl⟩, rfl⟩
  | @inner h a node sons hget hroutes hfenced hsons ih =>
    obtain ⟨fuel, rfl⟩ : ∃ n, fuel = n + 1 := ⟨fuel - 1, by omega⟩
    obtain ⟨pre, s, post, rfl, hpre, hs, hchild⟩ := exists_son hroutes k
    rw [map_append, map_cons] at hfenced hk ⊢
    have hk' : k ∈ s.entries.map Prod.fst := by
      rw [mem_keys_iff, hfenced.lookup_contents hpre hs, ← mem_keys_iff] at hk
      exact hk
    obtain ⟨st', foot₁, leaf, hrep, hnodup₁, hmoves, hnum', hpages, hleaf, hrun⟩ :=
      ih s (by simp) (nodup_son hnodup) hk' (Nat.lt_of_succ_lt_succ hfuel) a
    obtain ⟨foot', hrep', hfoot', hmoves', -⟩ :=
      (Outcome.whole hrep hnodup₁ hmoves hnum').absorb hne hnum hget hroutes hfenced hsons hnodup
    refine ⟨st', foot', leaf, hrep', hfoot', hmoves', hnum', hpages, ?_, fun r => ?_⟩
    · rw [leafFor, Store.get_eq hget, ok_bind, if_neg (by simp [hroutes.inner]), hchild, ok_bind, hleaf]
    · rw [insert2, Store.get_eq hget, ok_bind, if_neg (by simp [hroutes.inner]), hchild, ok_bind,
        bind_eq_ok]
      constructor
      · rintro ⟨x, hx, hr⟩
        obtain ⟨hfits, rfl⟩ := (hrun x).1 hx
        exact ⟨hfits, (Except.ok.inj hr).symm⟩
      · rintro ⟨hfits, rfl⟩
        exact ⟨_, (hrun _).2 ⟨hfits, rfl⟩, rfl⟩

end SqliteDemo
