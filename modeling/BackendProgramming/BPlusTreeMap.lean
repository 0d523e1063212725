/-
**The B+ tree as a map.**

As a map, the tree holds for every key the data of its first `insert`.  Two things stand in the way:
`spaceCheck` does not count the two bytes of the cell pointer, and `insertLeafCell` calls it before it looks
for the key, so that a repeated `insert` may end the process.
-/

import BackendProgramming.Lts
import BackendProgramming.BPlusTreeInsert

set_option autoImplicit false

namespace SqliteDemo

open ByteMem SlottedPage SortedEntries List Option

/-! ### The interface on the entries of a tree -/

def Represents (alloc : ℕ → ℕ) (t : Tree) (es : List Entry) : Prop :=
  ∃ h foot, Rep t.store h t.root es foot ∧ foot.Nodup ∧ Numbered alloc t.store ∧
    ∀ x, t.store.nodes x ≠ none → x ∈ foot

theorem getTree_represents (alloc : ℕ → ℕ) : Represents alloc (getTree alloc) [] := by
  refine ⟨0, [alloc 0], .leaf Store.nodes_add_next getLeafNode_holds List.Pairwise.nil,
    nodup_singleton _, ?_, ?_⟩
  · refine Numbered.add (fun x => ?_) getLeafNode
    simp
  · intro x hx
    by_contra hne
    rw [mem_singleton] at hne
    exact hx (Store.nodes_add_of_ne hne)

theorem Rep.height_lt_count {alloc : ℕ → ℕ} {st : Store} {h a : ℕ} {es : List Entry} {foot : List ℕ}
    (hrep : Rep st h a es foot) (hnodup : foot.Nodup) (hnum : Numbered alloc st) : h < st.count :=
  lt_of_lt_of_le hrep.height_lt (hnum.length_le hnodup hrep.allocated)

theorem Moves.covers {st st' : Store} {foot foot' : List ℕ} (hmoves : Moves st st' foot foot')
    (hall : ∀ x, st.nodes x ≠ none → x ∈ foot) : ∀ x, st'.nodes x ≠ none → x ∈ foot' := by
  intro x hx
  rcases (hmoves.allocated x).1 hx with hx | hx
  · exact hmoves.old x (hall x hx)
  · exact hx

section Interface

variable {alloc : ℕ → ℕ} {t : Tree} {es : List Entry}

theorem link_root {st st' : Store} {h a b p : ℕ} {key : Key} {low high : List Entry}
    {footL footR : List ℕ} (hinj : Function.Injective alloc) (hnum : Numbered alloc st)
    (hleft : Rep st h a low footL) (hright : Rep st h b high footR) (hnodup : (footL ++ footR).Nodup)
    (hsorted : Sorted (low ++ high)) (hlow : low ≠ []) (hhigh : high ≠ [])
    (hle : ∀ e ∈ low, e.1 ≤ key) (hlt : ∀ e ∈ high, key < e.1)
    (hall : ∀ x, st.nodes x ≠ none → x ∈ footL ++ footR)
    (hlink : link true alloc st 0 a b key = .ok (st', p)) :
    (∃ n, p = alloc n) ∧ Represents alloc ⟨st', p⟩ (low ++ high) := by
  obtain ⟨page, hins, hlink⟩ := bind_eq_ok.1 hlink
  cases hlink
  have hempty : IntHolds { getIntNode with rightChild := b } [] := ⟨rfl, Holds.empty false, by simp⟩
  obtain ⟨hpage, hb, -⟩ := insertIntCell_spec hempty List.Pairwise.nil hins
  have hfresh := hnum.fresh hinj
  have hnew : st.next alloc ∉ footL ++ footR := by
    intro hmem
    rcases mem_append.1 hmem with hmem | hmem
    · exact hleft.allocated _ hmem hfresh
    · exact hright.allocated _ hmem hfresh
  have hframe : ∀ x ∈ footL ++ footR, (st.add alloc page).nodes x = st.nodes x := fun x hx =>
    Store.nodes_add_of_ne (ne_of_mem_of_not_mem hx hnew)
  have hroutes : Routes page ([⟨key, a, low, footL⟩, ⟨⊤, b, high, footR⟩].map Son.route) :=
    ⟨[(key, a)], hpage, by rw [hb]; rfl⟩
  have hfenced : Fenced ([⟨key, a, low, footL⟩, ⟨⊤, b, high, footR⟩].map Son.part) := by
    have hsingle : Fenced ([] ++ [((⊤ : WithTop Key), low ++ high)]) :=
      fenced_single hsorted (append_ne_nil_of_left_ne_nil hlow high)
    exact hsingle.divide hlow hhigh hle hlt
  have hrep := Rep.inner Store.nodes_add_next hroutes hfenced (by
    simp only [mem_cons, not_mem_nil, or_false, forall_eq_or_imp, forall_eq]
    exact ⟨hleft.frame fun x hx => hframe x (mem_append_left _ hx),
      hright.frame fun x hx => hframe x (mem_append_right _ hx)⟩)
  have hcontents : contents ([⟨key, a, low, footL⟩, ⟨⊤, b, high, footR⟩].map Son.part) = low ++ high := by
    simp [contents, Son.part]
  have hfeet : ([⟨key, a, low, footL⟩, ⟨⊤, b, high, footR⟩] : List Son).flatMap Son.foot =
      footL ++ footR := by simp
  rw [hcontents, hfeet] at hrep
  refine ⟨⟨_, rfl⟩, h + 1, _, hrep, nodup_cons.2 ⟨hnew, hnodup⟩, hnum.add page, fun x hx => ?_⟩
  rcases eq_or_ne x (st.next alloc) with rfl | hne
  · exact mem_cons_self
  · rw [Store.nodes_add_of_ne hne] at hx
    exact mem_cons_of_mem _ (hall x hx)

theorem insert_new (hinj : Function.Injective alloc) (hne : ∀ n, alloc n ≠ 0)
    (ht : Represents alloc t es) {k : Key} (hk : k ∉ es.map Prod.fst) {data : List UInt8}
    {r : Tree × Bool} (hrun : insert true alloc t k data = .ok r) :
    r.2 = true ∧ Represents alloc r.1 (ins k data es) := by
  obtain ⟨h, foot, hrep, hnodup, hnum, hall⟩ := ht
  obtain ⟨⟨st', p, inserted⟩, hcall, hrun⟩ := bind_eq_ok.1 hrun
  obtain ⟨rfl, hout⟩ := insert2_new hinj hne hnum hrep hnodup hk hcall
  dsimp only at hrun
  cases hout with
  | @whole _ foot' hrep' hnodup' hmoves hnum' =>
    cases hrun
    exact ⟨rfl, h, foot', hrep', hnodup', hnum', hmoves.covers hall⟩
  | halves hes hlow hhigh hle hlt hleft hright hnodup' hmoves hnum' hlink =>
    have hsorted := hrep.sorted.ins (x := data) hk
    rw [hes] at hsorted ⊢
    obtain ⟨⟨n, rfl⟩, hroot⟩ := link_root hinj hnum' hleft hright hnodup' hsorted hlow hhigh hle hlt
      (hmoves.covers hall) hlink
    rw [if_pos (hne n)] at hrun
    cases hrun
    exact ⟨rfl, hroot⟩

theorem insert_old (hne : ∀ n, alloc n ≠ 0) (ht : Represents alloc t es) {k : Key}
    (hk : k ∈ es.map Prod.fst) (data : List UInt8) :
    ∃ t' leaf, Represents alloc t' es ∧ t'.root = t.root ∧ SamePages t.store t'.store ∧
      leafFor t.store k t.store.count t.root = .ok leaf ∧
      ∀ r, insert false alloc t k data = .ok r ↔ data.length + 8 ≤ room leaf ∧ r = (t', false) := by
  obtain ⟨h, foot, hrep, hnodup, hnum, hall⟩ := ht
  obtain ⟨st', foot', leaf, hrep', hnodup', hmoves, hnum', hpages, hleaf, hrun⟩ :=
    insert2_old hne hnum hrep hnodup hk data (hrep.height_lt_count hnodup hnum) 0
  refine ⟨⟨st', t.root⟩, leaf, ⟨h, foot', hrep', hnodup', hnum', hmoves.covers hall⟩, rfl, hpages,
    hleaf, fun r => ?_⟩
  rw [insert, bind_eq_ok]
  constructor
  · rintro ⟨x, hx, hr⟩
    obtain ⟨hfits, rfl⟩ := (hrun x).1 hx
    exact ⟨hfits, (Except.ok.inj hr).symm⟩
  · rintro ⟨hfits, rfl⟩
    exact ⟨_, (hrun _).2 ⟨hfits, rfl⟩, rfl⟩

theorem searchLeaf_drop {leaf : Node} (hleaf : LeafHolds leaf es) (k : Key) (r i : ℕ)
    (hr : i + r = es.length) :
    (searchLeaf leaf k i r = .ok none ∧ (es.drop i).lookup k = none) ∨
      ∃ cell data, searchLeaf leaf k i r = .ok (some cell) ∧ (es.drop i).lookup k = some data ∧
        cell.size = data.length ∧ readData leaf cell = .ok data := by
  induction r generalizing i with
  | zero =>
    refine .inl ⟨rfl, ?_⟩
    rw [drop_eq_nil_of_le (by omega)]
    rfl
  | succ r ih =>
    have hi : i < es.length := by omega
    obtain ⟨pos, hcell, hdata⟩ := getKthLeafCell_eq hleaf (getElem?_eq_getElem hi)
    rw [searchLeaf, hcell, ok_bind, drop_eq_getElem_cons hi, lookup_cons]
    split
    · next heq =>
      exact .inr ⟨_, es[i].2, rfl, by simp [← heq], rfl, hdata⟩
    · next hne =>
      have hkey : (k == es[i].1) = false := by simpa using Ne.symm hne
      rw [hkey]
      exact ih (i + 1) (by omega)

theorem search_eq (ht : Represents alloc t es) (k : Key) :
    search t k = .ok ((es.lookup k).map fun data => ((data.length : ℤ), data)) := by
  obtain ⟨h, foot, hrep, hnodup, hnum, -⟩ := ht
  obtain ⟨leaf, entries, hleaf, hholds, -, hlookup⟩ :=
    leafFor_eq hrep k (hrep.height_lt_count hnodup hnum)
  have hloop := searchLeaf_drop hholds k entries.length 0 (Nat.zero_add _)
  rw [drop_zero, ← hholds.length, hlookup] at hloop
  rw [search, hleaf, ok_bind]
  rcases hloop with ⟨hnone, hk⟩ | ⟨cell, data, hsome, hk, hsize, hdata⟩
  · rw [hnone, hk]
    rfl
  · rw [hsome, hk, ok_bind]
    dsimp only
    rw [hdata, ok_bind, hsize]
    rfl

end Interface

/-! ### Sessions -/

structure Session where
  tree : Tree
  calls : List Entry

def Session.start (alloc : ℕ → ℕ) : Session := ⟨getTree alloc, []⟩

def Session.step (alloc : ℕ → ℕ) (s : Session) (e : Entry) : Option Session :=
  (insert false alloc s.tree e.1 e.2).toOption.map fun r => ⟨r.1, s.calls ++ [e]⟩

def Roomy (alloc : ℕ → ℕ) (s : Session) (e : Entry) : Prop :=
  s.calls.lookup e.1 = none → (insert true alloc s.tree e.1 e.2).isOk = true

instance (alloc : ℕ → ℕ) (s : Session) (e : Entry) : Decidable (Roomy alloc s e) :=
  inferInstanceAs (Decidable (_ → _))

def HasRoom (data : List UInt8) : Result Node → Prop
  | .ok leaf => data.length + 8 ≤ room leaf
  | .error _ => False

instance (data : List UInt8) : ∀ leaf, Decidable (HasRoom data leaf)
  | .ok _ => inferInstanceAs (Decidable (_ ≤ _))
  | .error _ => inferInstanceAs (Decidable False)

def RepeatFits (s : Session) (e : Entry) : Prop :=
  s.calls.lookup e.1 ≠ none → HasRoom e.2 (leafFor s.tree.store e.1 s.tree.store.count s.tree.root)

instance (s : Session) (e : Entry) : Decidable (RepeatFits s e) := inferInstanceAs (Decidable (_ → _))

def Session.Agrees (s : Session) : Prop :=
  ∀ k, search s.tree k = .ok ((s.calls.lookup k).map fun data => ((data.length : ℤ), data))

def AsMap (alloc : ℕ → ℕ) (s : Session) (e : Entry) : Prop :=
  ∃ t, insert false alloc s.tree e.1 e.2 = .ok (t, (s.calls.lookup e.1).isNone) ∧
    Session.Agrees ⟨t, s.calls ++ [e]⟩

def Session.Inv (alloc : ℕ → ℕ) (s : Session) : Prop :=
  ∃ es, Represents alloc s.tree es ∧ ∀ k, es.lookup k = s.calls.lookup k

section Session

variable {alloc : ℕ → ℕ} {s : Session} {e : Entry}

theorem Session.Inv.agrees (h : s.Inv alloc) : s.Agrees := by
  intro k
  obtain ⟨es, hes, hlookup⟩ := h
  rw [search_eq hes k, hlookup]

theorem start_inv (alloc : ℕ → ℕ) : (Session.start alloc).Inv alloc :=
  ⟨[], getTree_represents alloc, fun _ => rfl⟩

theorem lookup_snoc_of_none {calls : List Entry} (h : calls.lookup e.1 = none) (k : Key) :
    (calls ++ [e]).lookup k = if k = e.1 then some e.2 else calls.lookup k := by
  obtain ⟨k₀, data⟩ := e
  rw [lookup_append, lookup_cons]
  rcases eq_or_ne k k₀ with rfl | hne
  · have hnone : calls.lookup k = none := h
    simp [hnone]
  · simp [beq_eq_false_iff_ne.2 hne, hne]

theorem lookup_snoc_of_ne_none {calls : List Entry} (h : calls.lookup e.1 ≠ none) (k : Key) :
    (calls ++ [e]).lookup k = calls.lookup k := by
  obtain ⟨k₀, data⟩ := e
  rw [lookup_append, lookup_cons]
  rcases eq_or_ne k k₀ with rfl | hne
  · obtain ⟨first, hfirst⟩ := ne_none_iff_exists'.1 h
    simp [hfirst]
  · simp [beq_eq_false_iff_ne.2 hne]

theorem Roomy.strict (h : Roomy alloc s e) (hnew : s.calls.lookup e.1 = none) :
    ∃ r, insert true alloc s.tree e.1 e.2 = .ok r := by
  have hok := h hnew
  cases hcall : insert true alloc s.tree e.1 e.2 with
  | ok r => exact ⟨r, rfl⟩
  | error _ =>
    rw [hcall] at hok
    cases hok

theorem Session.step_eq_some {s' : Session} (h : s.step alloc e = some s') :
    ∃ r, insert false alloc s.tree e.1 e.2 = .ok r ∧ s' = ⟨r.1, s.calls ++ [e]⟩ := by
  obtain ⟨r, hr, rfl⟩ := map_eq_some_iff.1 h
  exact ⟨r, toOption_eq_some hr, rfl⟩

theorem step_new (hinj : Function.Injective alloc) (hne : ∀ n, alloc n ≠ 0) (h : s.Inv alloc)
    (hroomy : Roomy alloc s e) (hnew : s.calls.lookup e.1 = none) :
    ∃ t, insert false alloc s.tree e.1 e.2 = .ok (t, true) ∧
      Session.Inv alloc ⟨t, s.calls ++ [e]⟩ := by
  obtain ⟨es, hes, hlookup⟩ := h
  obtain ⟨r, hr⟩ := hroomy.strict hnew
  have hk : e.1 ∉ es.map Prod.fst := by
    rw [mem_keys_iff, hlookup, hnew]
    simp
  obtain ⟨htrue, ht⟩ := insert_new hinj hne hes hk hr
  refine ⟨r.1, ?_, _, ht, fun k => ?_⟩
  · rw [insert_of_strict true alloc _ _ _ r hr, ← htrue]
  · rw [lookup_ins hk, lookup_snoc_of_none hnew, hlookup]

theorem step_old (hne : ∀ n, alloc n ≠ 0) (h : s.Inv alloc) (hold : s.calls.lookup e.1 ≠ none) :
    ∃ t, Session.Inv alloc ⟨t, s.calls ++ [e]⟩ ∧
      ∀ r, insert false alloc s.tree e.1 e.2 = .ok r ↔ RepeatFits s e ∧ r = (t, false) := by
  obtain ⟨es, hes, hlookup⟩ := h
  obtain ⟨t, leaf, ht, -, -, hleaf, hrun⟩ := insert_old hne hes (by rwa [mem_keys_iff, hlookup]) e.2
  refine ⟨t, ⟨es, ht, fun k => ?_⟩, fun r => ?_⟩
  · rw [lookup_snoc_of_ne_none hold, hlookup]
  · rw [hrun, RepeatFits, hleaf]
    simp [hold, HasRoom]

theorem step_inv (hinj : Function.Injective alloc) (hne : ∀ n, alloc n ≠ 0) {s' : Session}
    (h : s.Inv alloc) (hroomy : Roomy alloc s e) (hstep : s.step alloc e = some s') :
    s'.Inv alloc := by
  obtain ⟨r, hcall, rfl⟩ := Session.step_eq_some hstep
  by_cases hnew : s.calls.lookup e.1 = none
  · obtain ⟨t, hrun, ht⟩ := step_new hinj hne h hroomy hnew
    rw [hrun] at hcall
    cases hcall
    exact ht
  · obtain ⟨t, ht, hrun⟩ := step_old hne h hnew
    obtain ⟨-, rfl⟩ := (hrun r).1 hcall
    exact ht

theorem asMap_iff (hinj : Function.Injective alloc) (hne : ∀ n, alloc n ≠ 0) (h : s.Inv alloc)
    (hroomy : Roomy alloc s e) : AsMap alloc s e ↔ RepeatFits s e := by
  by_cases hnew : s.calls.lookup e.1 = none
  · refine iff_of_true ?_ fun hold => absurd hnew hold
    obtain ⟨t, hrun, ht⟩ := step_new hinj hne h hroomy hnew
    exact ⟨t, by rw [hrun, hnew]; rfl, ht.agrees⟩
  · obtain ⟨t, ht, hrun⟩ := step_old hne h hnew
    constructor
    · rintro ⟨t', hcall, -⟩
      exact ((hrun _).1 hcall).1
    · intro hfits
      refine ⟨t, ?_, ht.agrees⟩
      rw [(hrun (t, false)).2 ⟨hfits, rfl⟩]
      obtain ⟨data, hdata⟩ := ne_none_iff_exists'.1 hnew
      rw [hdata]
      rfl

end Session

def cellStart (node : Node) (i : ℕ) : ℤ := leInt (slot headerSize node.content i)

def cellStop (node : Node) (i : ℕ) : ℤ :=
  cellStart node i + 8 +
    if node.isLeaf then leInt (read node.content (cellStart node i + 4).toNat 4) else 0

def Layout (node : Node) : Prop :=
  headerSize + 2 * node.cellSize ≤ node.firstCellPos ∧
    (∀ i < node.cellSize, node.firstCellPos ≤ cellStart node i ∧ cellStop node i ≤ pageSize) ∧
    ∀ i < node.cellSize, ∀ j < i,
      cellStop node i ≤ cellStart node j ∨ cellStop node j ≤ cellStart node i

instance (node : Node) : Decidable (Layout node) := inferInstanceAs (Decidable (_ ∧ _))

theorem layout_of_slots {node : Node} {cells : List Cell}
    (hslots : Slots headerSize pageSize node.content node.firstCellPos cells)
    (hlen : node.cellSize = cells.length)
    (hstop : ∀ i c, cells[i]? = some c → cellStop node i = c.stop) : Layout node := by
  have hstart : ∀ i c, cells[i]? = some c → cellStart node i = c.pos := hslots.slot
  refine ⟨by rw [hlen]; exact hslots.array, fun i hi => ?_, fun i hi j hj => ?_⟩
  · rw [hlen] at hi
    have hget := getElem?_eq_getElem hi
    obtain ⟨hlo, hhi⟩ := hslots.within _ (getElem_mem hi)
    rw [hstart i _ hget, hstop i _ hget]
    omega
  · rw [hlen] at hi
    have hgeti := getElem?_eq_getElem hi
    have hgetj := getElem?_eq_getElem (show j < cells.length by omega)
    have hapart := pairwise_iff_getElem.1 hslots.apart j i (by omega) hi hj
    rw [hstart i _ hgeti, hstop i _ hgeti, hstart j _ hgetj, hstop j _ hgetj]
    rcases hapart with h | h <;> omega

theorem LeafHolds.layout {node : Node} {es : List Entry} (h : LeafHolds node es) : Layout node := by
  obtain ⟨hleaf, cells, hslots, hlen, himages⟩ := h
  refine layout_of_slots hslots hlen fun i c hc => ?_
  have himage : (es.map leafImage)[i]? = some c.image := by
    rw [← himages, getElem?_map, hc]
    rfl
  rw [getElem?_map] at himage
  obtain ⟨e, -, heq⟩ := map_eq_some_iff.1 himage
  have hpos : cellStart node i = c.pos := hslots.slot i c hc
  have hread := hslots.image c (mem_of_getElem? hc)
  obtain ⟨-, hstop⟩ := hslots.within c (mem_of_getElem? hc)
  rw [Cell.stop, ← heq, length_leafImage] at hstop
  rw [← heq] at hread
  obtain ⟨-, hrest⟩ := read_parts hread
  obtain ⟨hsize, -⟩ := read_parts hrest
  rw [length_leBytes, length_leBytes] at hsize
  have hpage : pageSize = 1448 := rfl
  rw [cellStop, if_pos hleaf, hpos, show ((c.pos : ℤ) + 4).toNat = c.pos + 4 by omega, hsize,
    leInt_leBytes_of_lt (by omega) (by norm_num; omega), Cell.stop, ← heq, length_leafImage]
  push_cast
  ring

theorem IntHolds.layout {node : Node} {es : List (Key × ℕ)} (h : IntHolds node es) : Layout node := by
  obtain ⟨hinner, ⟨cells, hslots, hlen, himages⟩, -⟩ := h
  refine layout_of_slots hslots hlen fun i c hc => ?_
  have himage : (es.map intImage)[i]? = some c.image := by
    rw [← himages, getElem?_map, hc]
    rfl
  rw [getElem?_map] at himage
  obtain ⟨e, -, heq⟩ := map_eq_some_iff.1 himage
  have hpos : cellStart node i = c.pos := hslots.slot i c hc
  rw [cellStop, if_neg (by simp [hinner]), hpos, Cell.stop, ← heq, length_intImage]
  push_cast
  ring

end SqliteDemo
