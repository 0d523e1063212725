/-
**Splitting the pages of the B+ tree.**

A leaf keeps half of its cells, and its last key divides the two leaves; of an inner node the middle cell is
taken out, and its child becomes the right child.  The right child has no cell; for the descent it is a child
whose keys have no bound (`Routes`).
-/

import BackendProgramming.BPlusTreePage

set_option autoImplicit false

namespace SqliteDemo

open ByteMem SlottedPage SortedEntries List

/-! ### The halves of a node -/

theorem moveLeafCells_spec {low high mid : List (Key × List UInt8)} {node newNode : Node} {fuel : ℕ}
    {r : Node × Node} (hnode : LeafHolds node (low ++ high)) (hlow : low.length = theOrder / 2)
    (hnew : LeafHolds newNode mid) (hsorted : Sorted (mid ++ high)) (hfuel : high.length ≤ fuel)
    (hrun : moveLeafCells true fuel node newNode = .ok r) :
    LeafHolds r.1 low ∧ LeafHolds r.2 (mid ++ high) ∧ (LeafWaste node → LeafWaste r.1) ∧
      (LeafWaste newNode → LeafWaste r.2) := by
  induction high generalizing node newNode mid fuel with
  | nil =>
    rw [append_nil] at hnode ⊢
    have hstop : moveLeafCells true fuel node newNode = .ok (node, newNode) := by
      cases fuel with
      | zero => rfl
      | succ fuel => rw [moveLeafCells, if_neg (by rw [hnode.length]; omega)]
    rw [hstop] at hrun
    cases hrun
    exact ⟨hnode, hnew, id, id⟩
  | cons e high ih =>
    obtain ⟨fuel, rfl⟩ : ∃ n, fuel = n + 1 := ⟨fuel - 1, by rw [length_cons] at hfuel; omega⟩
    have hget : (low ++ e :: high)[theOrder / 2]? = some e := by
      rw [← hlow, getElem?_append_right le_rfl, Nat.sub_self]
      rfl
    have hlen : theOrder / 2 < (low ++ e :: high).length := (List.getElem?_eq_some_iff.1 hget).1
    obtain ⟨pos, hcell, hdata⟩ := getKthLeafCell_eq hnode hget
    rw [moveLeafCells, if_pos (by rw [hnode.length]; exact hlen), hcell, ok_bind, hdata,
      ok_bind] at hrun
    obtain ⟨new, hins, hrun⟩ := bind_eq_ok.1 hrun
    obtain ⟨rest, hremove, hrun⟩ := bind_eq_ok.1 hrun
    obtain ⟨hmid, -, hlt⟩ := pairwise_append.1 hsorted
    have hbelow : ∀ e' ∈ mid, e'.1 < e.1 := fun e' he' => hlt e' he' e mem_cons_self
    have hfresh : e.1 ∉ mid.map Prod.fst := by
      intro hmem
      obtain ⟨e', he', heq⟩ := mem_map.1 hmem
      exact absurd heq (ne_of_lt (hbelow e' he'))
    obtain ⟨-, hnew', hwaste₁⟩ := insertLeafCell_new hnew hmid hfresh hins
    rw [ins_of_le fun e' he' => le_of_lt (hbelow e' he')] at hnew'
    obtain ⟨hrest, hwaste₂⟩ := removeKthLeafCell_spec hnode hlen hremove
    rw [← hlow, eraseIdx_append_of_length_le le_rfl, Nat.sub_self, eraseIdx_cons_zero]
      at hrest
    have happend : mid ++ e :: high = mid ++ [e] ++ high := by simp
    rw [happend] at hsorted ⊢
    obtain ⟨hleft, hright, hwaste₃, hwaste₄⟩ :=
      ih hrest hnew' hsorted (by rw [length_cons] at hfuel; omega) hrun
    exact ⟨hleft, hright, hwaste₃ ∘ hwaste₂, hwaste₄ ∘ hwaste₁⟩

theorem splitLeafPage_spec {node : Node} {es : List (Key × List UInt8)} (h : LeafHolds node es)
    (hes : Sorted es) (hlen : theOrder ≤ es.length) {r : Node × Node × Key}
    (hrun : splitLeafPage true node = .ok r) :
    ∃ low high, es = low ++ high ∧ low.length = theOrder / 2 ∧ high ≠ [] ∧ LeafHolds r.1 low ∧
      LeafHolds r.2.1 high ∧ (∀ e ∈ low, e.1 ≤ r.2.2) ∧ (∀ e ∈ high, r.2.2 < e.1) ∧
      (LeafWaste node → LeafWaste r.1 ∧ LeafWaste r.2.1) := by
  have horder : theOrder = 10 := rfl
  obtain ⟨low, high, rfl, hlow⟩ : ∃ low high, es = low ++ high ∧ low.length = theOrder / 2 :=
    ⟨_, _, (take_append_drop (theOrder / 2) es).symm, by rw [length_take]; omega⟩
  rw [length_append] at hlen
  obtain ⟨hlows, hhighs, hlt⟩ := pairwise_append.1 hes
  obtain ⟨⟨left, newNode⟩, hmove, hrun⟩ := bind_eq_ok.1 hrun
  obtain ⟨hnode, hnew, hwaste, hwaste'⟩ := moveLeafCells_spec h hlow getLeafNode_holds hhighs
    (by rw [h.length, length_append]; omega) hmove
  -- the last of the cells that stay divides the two nodes
  obtain rfl | ⟨front, m, rfl⟩ := eq_nil_or_concat' low
  · rw [length_nil] at hlow
    omega
  · have hget : (front ++ [m])[left.cellSize - 1]? = some m := by
      rw [hnode.length]
      simp
    obtain ⟨pos, hcell, -⟩ := getKthLeafCell_eq hnode hget
    dsimp only at hrun
    rw [hcell, ok_bind] at hrun
    cases hrun
    refine ⟨front ++ [m], high, rfl, hlow, ?_, hnode, hnew, ?_, fun e he => hlt m (by simp) e he,
      fun hold => ⟨hwaste hold, hwaste' rfl⟩⟩
    · rintro rfl
      rw [length_nil] at hlen
      omega
    · intro e he
      rcases mem_append.1 he with he | he
      · exact le_of_lt ((pairwise_append.1 hlows).2.2 e he m (by simp))
      · rw [mem_singleton.1 he]

theorem moveIntCells_spec {low high mid : List (Key × ℕ)} {node newNode : Node} {fuel : ℕ}
    {r : Node × Node} (hnode : IntHolds node (low ++ high)) (hlow : low.length = theOrder / 2 + 1)
    (hnew : IntHolds newNode mid) (hsorted : Sorted (mid ++ high)) (hfuel : high.length ≤ fuel)
    (hrun : moveIntCells true fuel node newNode = .ok r) :
    IntHolds r.1 low ∧ r.1.rightChild = node.rightChild ∧ IntHolds r.2 (mid ++ high) ∧
      (∀ bound, bound + 16 * high.length < 256 → InnerWaste bound node →
        InnerWaste (bound + 16 * high.length) r.1) ∧
      (InnerWaste 64 newNode → InnerWaste 64 r.2) := by
  induction high generalizing node newNode mid fuel with
  | nil =>
    rw [append_nil] at hnode ⊢
    have hstop : moveIntCells true fuel node newNode = .ok (node, newNode) := by
      cases fuel with
      | zero => rfl
      | succ fuel => rw [moveIntCells, if_neg (by rw [hnode.length]; omega)]
    rw [hstop] at hrun
    cases hrun
    exact ⟨hnode, rfl, hnew, fun _ _ => id, id⟩
  | cons e high ih =>
    obtain ⟨fuel, rfl⟩ : ∃ n, fuel = n + 1 := ⟨fuel - 1, by rw [length_cons] at hfuel; omega⟩
    have hget : (low ++ e :: high)[theOrder / 2 + 1]? = some e := by
      rw [← hlow, getElem?_append_right le_rfl, Nat.sub_self]
      rfl
    have hlen : theOrder / 2 + 1 < (low ++ e :: high).length := (List.getElem?_eq_some_iff.1 hget).1
    rw [moveIntCells, if_pos (by rw [hnode.length]; exact hlen), getKthIntCell_eq hnode hget,
      ok_bind] at hrun
    obtain ⟨new, hins, hrun⟩ := bind_eq_ok.1 hrun
    obtain ⟨rest, hremove, hrun⟩ := bind_eq_ok.1 hrun
    obtain ⟨hmid, -, hlt⟩ := pairwise_append.1 hsorted
    obtain ⟨hnew', -, hwaste₁⟩ := insertIntCell_spec hnew hmid hins
    rw [ins_of_le fun e' he' => le_of_lt (hlt e' he' e mem_cons_self)] at hnew'
    obtain ⟨hrest, hright, hwaste₂⟩ := removeKthIntCell_spec hnode hlen hremove
    rw [← hlow, eraseIdx_append_of_length_le le_rfl, Nat.sub_self, eraseIdx_cons_zero]
      at hrest
    have happend : mid ++ e :: high = mid ++ [e] ++ high := by simp
    rw [happend] at hsorted ⊢
    obtain ⟨hleft, hright', hnews, hwaste₃, hwaste₄⟩ :=
      ih hrest hnew' hsorted (by rw [length_cons] at hfuel; omega) hrun
    refine ⟨hleft, hright'.trans hright, hnews, fun bound hbound hold => ?_, hwaste₄ ∘ hwaste₁ 64⟩
    rw [length_cons] at hbound ⊢
    have hwaste := hwaste₃ (bound + 16) (by omega) (hwaste₂ bound (by omega) hold)
    rwa [show bound + 16 * (high.length + 1) = bound + 16 + 16 * high.length by ring]

variable {es : List (Key × ℕ)}

theorem splitIntPage_spec {node : Node} (h : IntHolds node es)
    (hes : Sorted es) (hlen : theOrder ≤ es.length) {r : Node × Node × Key}
    (hrun : splitIntPage true node = .ok r) :
    ∃ low child high, es = low ++ (r.2.2, child) :: high ∧ low.length = theOrder / 2 ∧
      IntHolds r.1 low ∧ r.1.rightChild = child ∧ IntHolds r.2.1 high ∧
      r.2.1.rightChild = node.rightChild ∧
      (es.length = theOrder → InnerWaste 64 node → InnerWaste 144 r.1 ∧ InnerWaste 64 r.2.1) := by
  have horder : theOrder = 10 := rfl
  obtain ⟨low, high, rfl, hlow⟩ : ∃ low high, es = low ++ high ∧ low.length = theOrder / 2 + 1 :=
    ⟨_, _, (take_append_drop (theOrder / 2 + 1) es).symm, by rw [length_take]; omega⟩
  obtain ⟨⟨left, newNode⟩, hmove, hrun⟩ := bind_eq_ok.1 hrun
  obtain ⟨hnode, hright, hnew, hwaste, hwaste'⟩ := moveIntCells_spec h hlow getIntNode_holds
    (pairwise_append.1 hes).2.1 (by rw [h.length, length_append]; omega) hmove
  obtain rfl | ⟨front, m, rfl⟩ := eq_nil_or_concat' low
  · rw [length_nil] at hlow
    omega
  · rw [length_append, length_singleton, Nat.add_right_cancel_iff] at hlow
    have hget : (front ++ [m])[theOrder / 2]? = some m := by
      rw [← hlow]
      simp
    dsimp only at hrun
    rw [getKthIntCell_eq hnode hget, ok_bind] at hrun
    obtain ⟨removed, hremove, hrun⟩ := bind_eq_ok.1 hrun
    obtain ⟨hfront, -, hwaste''⟩ := removeKthIntCell_spec hnode (by simp [hlow]) hremove
    rw [← hlow, eraseIdx_append_of_length_le le_rfl, Nat.sub_self, eraseIdx_cons_zero,
      append_nil] at hfront
    cases hrun
    refine ⟨front, m.2, high, by simp, hlow, ⟨hfront.inner, hfront.holds, hfront.fits⟩, rfl,
      ⟨hnew.inner, hnew.holds, hnew.fits⟩, hright, fun hten hold => ⟨?_, hwaste' ⟨rfl, by decide⟩⟩⟩
    -- of ten cells four go to the new node and one to the father
    have hfour : high.length = 4 := by
      rw [length_append, length_append, length_singleton, hlow] at hten
      omega
    rw [hfour] at hwaste
    exact hwaste'' 128 (by norm_num) (hwaste 64 (by norm_num) hold)

/-! ### The children of an inner node -/

def fenced (e : Key × ℕ) : WithTop Key × ℕ := (e.1, e.2)

def Routes (node : Node) (sons : List (WithTop Key × ℕ)) : Prop :=
  ∃ es, IntHolds node es ∧ sons = es.map fenced ++ [(⊤, node.rightChild)]

variable {sons : List (WithTop Key × ℕ)}

theorem Routes.inner {node : Node} (h : Routes node sons) :
    node.isLeaf = false := by
  obtain ⟨es, hes, -⟩ := h
  exact hes.inner

theorem sorted_fenced {c : WithTop Key × ℕ}
    (h : Sorted (es.map fenced ++ c :: sons)) : Sorted es :=
  (pairwise_map.1 (pairwise_append.1 h).1).imp fun hlt => WithTop.coe_lt_coe.1 hlt

theorem Routes.cases {node : Node} {pre post : List (WithTop Key × ℕ)} {s : WithTop Key × ℕ}
    (h : Routes node (pre ++ s :: post)) :
    (∃ es, IntHolds node es ∧ pre = es.map fenced ∧ s = (⊤, node.rightChild) ∧ post = []) ∨
    ∃ es e es', IntHolds node (es ++ e :: es') ∧ pre = es.map fenced ∧ s = fenced e ∧
      post = es'.map fenced ++ [(⊤, node.rightChild)] := by
  obtain ⟨es, hes, hsons⟩ := h
  obtain rfl | ⟨post, last, rfl⟩ := eq_nil_or_concat' post
  · obtain ⟨hpre, hs⟩ := append_inj' hsons rfl
    exact .inl ⟨es, hes, hpre, singleton_injective hs, rfl⟩
  · rw [← cons_append, ← append_assoc] at hsons
    obtain ⟨hcells, hlast⟩ := append_inj' hsons rfl
    obtain ⟨es₁, es₂, rfl, hpre, hrest⟩ := map_eq_append_iff.1 hcells.symm
    obtain ⟨e, es₂, rfl, hs, hpost⟩ := map_eq_cons_iff.1 hrest
    exact .inr ⟨es₁, e, es₂, hes, hpre.symm, hs.symm, by rw [hpost, hlast]⟩

theorem childFor_drop {node : Node} (h : IntHolds node es) (k : Key) (r i : ℕ)
    (hr : i + r = es.length) :
    ∃ pre s post, (es.drop i).map fenced ++ [(⊤, node.rightChild)] = pre ++ s :: post ∧
      (∀ p ∈ pre, p.1 < (k : WithTop Key)) ∧ (k : WithTop Key) ≤ s.1 ∧ childFor node k i r = .ok s.2 := by
  induction r generalizing i with
  | zero =>
    refine ⟨[], (⊤, node.rightChild), [], ?_, by simp, le_top, rfl⟩
    rw [drop_eq_nil_of_le (by omega)]
    rfl
  | succ r ih =>
    have hi : i < es.length := by omega
    rw [childFor, getKthIntCell_eq h (getElem?_eq_getElem hi), ok_bind,
      drop_eq_getElem_cons hi]
    split
    · next hlt =>
      obtain ⟨pre, s, post, heq, hpre, hs, hrun⟩ := ih (i + 1) (by omega)
      refine ⟨fenced es[i] :: pre, s, post, ?_, ?_, hs, hrun⟩
      · rw [map_cons, cons_append, heq, cons_append]
      · intro p hp
        rcases mem_cons.1 hp with rfl | hp
        · exact WithTop.coe_lt_coe.2 hlt
        · exact hpre p hp
    · next hle =>
      exact ⟨[], fenced es[i], _, rfl, by simp, WithTop.coe_le_coe.2 (le_of_not_gt hle), rfl⟩

theorem childFor_eq {node : Node} (h : Routes node sons) (k : Key) :
    ∃ pre s post, sons = pre ++ s :: post ∧ (∀ p ∈ pre, p.1 < (k : WithTop Key)) ∧
      (k : WithTop Key) ≤ s.1 ∧ childFor node k 0 node.cellSize = .ok s.2 := by
  obtain ⟨es, hes, rfl⟩ := h
  rw [hes.length]
  exact childFor_drop hes k es.length 0 (Nat.zero_add _)

theorem splitIntPage_routes {node : Node} (h : Routes node sons)
    (hsons : Sorted sons) (hlen : theOrder ≤ node.cellSize) {r : Node × Node × Key}
    (hrun : splitIntPage true node = .ok r) :
    ∃ low child high, sons = low ++ (↑r.2.2, child) :: high ∧ low.length = theOrder / 2 ∧
      Routes r.1 (low ++ [(⊤, child)]) ∧ Routes r.2.1 high ∧
      (node.cellSize = theOrder → InnerWaste 64 node → InnerWaste 144 r.1 ∧ InnerWaste 64 r.2.1) := by
  obtain ⟨es, hes, rfl⟩ := h
  rw [hes.length] at hlen ⊢
  obtain ⟨low, child, high, rfl, hhalf, hlow, hchild, hhigh, hright, hwaste⟩ :=
    splitIntPage_spec hes (sorted_fenced hsons) hlen hrun
  refine ⟨low.map fenced, child, high.map fenced ++ [(⊤, node.rightChild)], ?_, ?_, ⟨low, hlow, ?_⟩,
    ⟨high, hhigh, ?_⟩, hwaste⟩
  · simp [fenced]
  · rw [length_map, hhalf]
  · rw [hchild]
  · rw [hright]

theorem getKnumByChild_none {node : Node} (h : IntHolds node es) {child : ℕ}
    (hchild : child ∉ es.map Prod.snd) : getKnumByChild node child 0 node.cellSize = .ok none := by
  rw [h.length, getKnumByChild_eq h _ _ 0 (Nat.zero_add _), drop_zero,
    findIdx?_eq_none_iff.2]
  · rfl
  · intro e he
    exact decide_eq_false fun heq => hchild (mem_map.2 ⟨e, he, heq⟩)

theorem getKnumByChild_some {node : Node} {es' : List (Key × ℕ)} {e : Key × ℕ}
    (h : IntHolds node (es ++ e :: es')) (hchild : e.2 ∉ es.map Prod.snd) :
    getKnumByChild node e.2 0 node.cellSize = .ok (some es.length) := by
  rw [h.length, getKnumByChild_eq h _ _ 0 (Nat.zero_add _), drop_zero, findIdx?_append,
    findIdx?_eq_none_iff.2, findIdx?_cons]
  · simp
  · intro e' he'
    exact decide_eq_false fun heq => hchild (mem_map.2 ⟨e', he', heq⟩)

theorem linkPage_right {father father' : Node} {newNode : ℕ} {key : Key}
    (h : IntHolds father es) (hes : Sorted es) (hchild : father.rightChild ∉ es.map Prod.snd)
    (hbelow : ∀ e ∈ es, e.1 ≤ key)
    (hrun : linkPage true father father.rightChild newNode key = .ok father') :
    IntHolds father' (es ++ [(key, father.rightChild)]) ∧ father'.rightChild = newNode ∧
      (InnerWaste 144 father → InnerWaste 64 father') := by
  rw [linkPage, getKnumByChild_none h hchild, ok_bind] at hrun
  rw [if_pos rfl] at hrun
  obtain ⟨page, hins, hrun⟩ := bind_eq_ok.1 hrun
  obtain ⟨hpage, -, hwaste⟩ := insertIntCell_spec h hes hins
  rw [ins_of_le hbelow] at hpage
  cases hrun
  exact ⟨⟨hpage.inner, hpage.holds, hpage.fits⟩, rfl, hwaste 144⟩

theorem linkPage_kid {father father' : Node} {es' : List (Key × ℕ)} {e : Key × ℕ} {newNode : ℕ}
    {key : Key} (h : IntHolds father (es ++ e :: es')) (hsorted : Sorted (es ++ e :: es'))
    (hchild : e.2 ∉ es.map Prod.snd) (hbelow : ∀ e' ∈ es, e'.1 ≤ key)
    (hkey : key < e.1) (hrun : linkPage true father e.2 newNode key = .ok father') :
    IntHolds father' (es ++ (key, e.2) :: (e.1, newNode) :: es') ∧
      father'.rightChild = father.rightChild ∧ (InnerWaste 144 father → InnerWaste 64 father') := by
  obtain ⟨hes₁, hes₂, hlt⟩ := pairwise_append.1 hsorted
  obtain ⟨habove, hes₂⟩ := pairwise_cons.1 hes₂
  have hget : (es ++ e :: es')[es.length]? = some e := by simp
  rw [linkPage, getKnumByChild_some h hchild, ok_bind] at hrun
  dsimp only at hrun
  rw [getKthIntCell_eq h hget, ok_bind] at hrun
  obtain ⟨removed, hremove, hrun⟩ := bind_eq_ok.1 hrun
  obtain ⟨page, hins, hrun⟩ := bind_eq_ok.1 hrun
  obtain ⟨hremoved, hright₁, hwaste₁⟩ := removeKthIntCell_spec h (by simp) hremove
  rw [eraseIdx_append_of_length_le le_rfl, Nat.sub_self, eraseIdx_cons_zero] at hremoved
  -- the right one of the two cells first
  obtain ⟨hpage, hright₂, hwaste₂⟩ := insertIntCell_spec hremoved (hsorted.sublist (by simp)) hins
  rw [ins_between (fun e' he' => le_of_lt (hlt e' he' e mem_cons_self)) habove] at hpage
  have hsorted₂ : Sorted (es ++ (e.1, newNode) :: es') := by
    refine pairwise_append.2 ⟨hes₁, pairwise_cons.2 ⟨habove, hes₂⟩, ?_⟩
    intro e₁ he₁ e₂ he₂
    rcases mem_cons.1 he₂ with rfl | he₂
    · exact hlt e₁ he₁ e mem_cons_self
    · exact hlt e₁ he₁ e₂ (mem_cons_of_mem _ he₂)
  have habove' : ∀ e' ∈ (e.1, newNode) :: es', key < e'.1 := by
    intro e' he'
    rcases mem_cons.1 he' with rfl | he'
    · exact hkey
    · exact lt_trans hkey (habove e' he')
  obtain ⟨hfather, hright₃, hwaste₃⟩ := insertIntCell_spec hpage hsorted₂ hrun
  rw [ins_between hbelow habove'] at hfather
  exact ⟨hfather, by rw [hright₃, hright₂, hright₁], fun hold =>
    hwaste₃ 64 (hwaste₂ 160 (hwaste₁ 144 (by norm_num) hold))⟩

theorem Routes.length {node : Node} (h : Routes node sons) :
    sons.length = node.cellSize + 1 := by
  obtain ⟨es, hes, rfl⟩ := h
  rw [hes.length, length_append, length_map, length_singleton]

structure Linked (father father' : Node) : Prop where
  inner : father'.isLeaf = false
  length : father'.cellSize = father.cellSize + 1
  waste : InnerWaste 144 father → InnerWaste 64 father'

theorem linkPage_routes {father father' : Node} {pre post : List (WithTop Key × ℕ)} {K : WithTop Key}
    {node newNode : ℕ} {key : Key} (h : Routes father (pre ++ (K, node) :: post))
    (hsons : Sorted (pre ++ (K, node) :: post)) (hfirst : node ∉ pre.map Prod.snd)
    (hlow : ∀ p ∈ pre, p.1 < ↑key) (hhigh : ↑key < K)
    (hrun : linkPage true father node newNode key = .ok father') :
    Routes father' (pre ++ (↑key, node) :: (K, newNode) :: post) ∧ Linked father father' := by
  have hbelow : ∀ es : List (Key × ℕ), pre = es.map fenced → ∀ e ∈ es, e.1 ≤ key := by
    rintro es rfl e he
    exact le_of_lt (WithTop.coe_lt_coe.1 (hlow (fenced e) (mem_map_of_mem he)))
  have hchild : ∀ es : List (Key × ℕ), pre = es.map fenced → node ∉ es.map Prod.snd := by
    rintro es rfl hmem
    exact hfirst (by rw [map_map]; exact hmem)
  rcases h.cases with ⟨es, hes, rfl, hs, rfl⟩ | ⟨es, e, es', hes, rfl, hs, rfl⟩
  · cases hs
    obtain ⟨hpage, hright, hwaste⟩ := linkPage_right hes (sorted_fenced hsons) (hchild es rfl)
      (hbelow es rfl) hrun
    refine ⟨⟨_, hpage, ?_⟩, hpage.inner, ?_, hwaste⟩
    · rw [hright]
      simp [fenced]
    · rw [hpage.length, hes.length]
      simp
  · cases hs
    have hcells : Sorted ((es ++ e :: es').map fenced ++ [(⊤, father.rightChild)]) := by
      simpa [fenced] using hsons
    obtain ⟨hpage, hright, hwaste⟩ := linkPage_kid hes (sorted_fenced hcells) (hchild es rfl)
      (hbelow es rfl) (WithTop.coe_lt_coe.1 hhigh) hrun
    refine ⟨⟨_, hpage, ?_⟩, hpage.inner, ?_, hwaste⟩
    · rw [hright]
      simp [fenced]
    · rw [hpage.length, hes.length]
      simp only [length_append, length_cons]
      omega

end SqliteDemo
