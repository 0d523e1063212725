/-
**The shape of the B+ tree.**

A node that has `THE_ORDER` cells is split at once, so that between the calls of `insert` every node has fewer
cells, and every node but the root at least half of them.  A cell has four bytes for the address of its child;
at larger addresses the shape is lost with the first split.
-/

import BackendProgramming.BPlusTreeMap

set_option autoImplicit false

namespace SqliteDemo

open SortedEntries List Option Except

/-! ### The page of a node -/

structure Trim (node : Node) : Prop where
  size : node.cellSize < theOrder
  leaf : node.isLeaf = true → LeafWaste node
  inner : node.isLeaf = false → InnerWaste 144 node

def Filled (node : Node) : Prop :=
  theOrder / 2 ≤ if node.isLeaf then node.cellSize else node.cellSize + 1

instance (node : Node) : Decidable (Filled node) := inferInstanceAs (Decidable (_ ≤ _))

theorem LeafHolds.trim {node : Node} {es : List Entry} (h : LeafHolds node es)
    (hsize : node.cellSize < theOrder) (hwaste : LeafWaste node) : Trim node where
  size := hsize
  leaf _ := hwaste
  inner hinner := absurd (h.leaf.symm.trans hinner) (by decide)

theorem trim_inner {node : Node} (hinner : node.isLeaf = false) (hsize : node.cellSize < theOrder)
    {bound : ℕ} (hwaste : InnerWaste bound node) (hbound : bound ≤ 144) : Trim node where
  size := hsize
  leaf hleaf := absurd (hleaf.symm.trans hinner) (by decide)
  inner _ := ⟨hwaste.1, le_trans hwaste.2 hbound⟩

theorem filled_leaf {node : Node} (h : node.isLeaf = true) : Filled node ↔ theOrder / 2 ≤ node.cellSize := by
  rw [Filled, if_pos h]

theorem filled_inner {node : Node} (h : node.isLeaf = false) :
    Filled node ↔ theOrder / 2 ≤ node.cellSize + 1 := by
  rw [Filled, if_neg (by simp [h])]

theorem Recollected.trim {node node' : Node} (h : Recollected node node') (hnode : Trim node) :
    Trim node' := by
  rcases h with rfl | ⟨es, hes, hes', hwaste⟩
  · exact hnode
  · exact hes'.trim (by rw [hes'.length, ← hes.length]; exact hnode.size) (hwaste (hnode.leaf hes.leaf))

theorem Recollected.filled {node node' : Node} (h : Recollected node node') (hnode : Filled node) :
    Filled node' := by
  rcases h with rfl | ⟨es, hes, hes', -⟩
  · exact hnode
  · rw [filled_leaf hes'.leaf, hes'.length, ← hes.length]
    exact (filled_leaf hes.leaf).1 hnode

theorem splitLeafPage_trim {node : Node} {es : List Entry} (h : LeafHolds node es) (hes : Sorted es)
    (hlen : es.length = theOrder) (hwaste : LeafWaste node) {r : Node × Node × Key}
    (hrun : splitLeafPage true node = .ok r) :
    (Trim r.1 ∧ Filled r.1) ∧ Trim r.2.1 ∧ Filled r.2.1 := by
  have horder : theOrder = 10 := rfl
  obtain ⟨low, high, rfl, hhalf, -, hlow, hhigh, -, -, hwastes⟩ :=
    splitLeafPage_spec h hes (le_of_eq hlen.symm) hrun
  rw [length_append] at hlen
  have hsize := hlow.length
  have hsize' := hhigh.length
  refine ⟨⟨hlow.trim (by omega) (hwastes hwaste).1, (filled_leaf hlow.leaf).2 (by omega)⟩,
    hhigh.trim (by omega) (hwastes hwaste).2, (filled_leaf hhigh.leaf).2 (by omega)⟩

theorem splitIntPage_trim {node : Node} {sons : List (WithTop Key × ℕ)} (h : Routes node sons)
    (hsons : Sorted sons) (hlen : node.cellSize = theOrder) (hwaste : InnerWaste 64 node)
    {r : Node × Node × Key} (hrun : splitIntPage true node = .ok r) :
    (Trim r.1 ∧ Filled r.1) ∧ Trim r.2.1 ∧ Filled r.2.1 := by
  obtain ⟨low, child, high, rfl, hhalf, hlow, hhigh, hwastes⟩ :=
    splitIntPage_routes h hsons (le_of_eq hlen.symm) hrun
  obtain ⟨hwaste₁, hwaste₂⟩ := hwastes hlen hwaste
  have hsize := h.length
  have hsize₁ := hlow.length
  have hsize₂ := hhigh.length
  rw [length_append, length_cons] at hsize
  rw [length_append, length_singleton] at hsize₁
  exact ⟨⟨trim_inner hlow.inner (by omega) hwaste₁ le_rfl, (filled_inner hlow.inner).2 (by omega)⟩,
    trim_inner hhigh.inner (by omega) hwaste₂ (by norm_num), (filled_inner hhigh.inner).2 (by omega)⟩

/-! ### The pages after a call -/

theorem link_pages {alloc : ℕ → ℕ} {st st' : Store} {father father' a b : ℕ} {key : Key}
    (hlink : link true alloc st father a b key = .ok (st', father')) :
    (∀ x, x ≠ father' → st'.nodes x = st.nodes x) ∧
      (father' ≠ father → father' = st.next alloc ∧
        ∀ page, st'.nodes father' = some page → Trim page) := by
  rw [link] at hlink
  split at hlink
  · obtain ⟨page, -, hlink⟩ := bind_eq_ok.1 hlink
    obtain ⟨page', -, hlink⟩ := bind_eq_ok.1 hlink
    cases hlink
    exact ⟨fun x hx => Store.nodes_set_of_ne hx, fun hne => absurd rfl hne⟩
  · obtain ⟨page, hins, hlink⟩ := bind_eq_ok.1 hlink
    cases hlink
    refine ⟨fun x hx => Store.nodes_add_of_ne hx, fun _ => ⟨rfl, fun page' hpage' => ?_⟩⟩
    rw [Store.nodes_add_next] at hpage'
    cases hpage'
    have hempty : IntHolds { getIntNode with rightChild := b } [] := ⟨rfl, Holds.empty false, by simp⟩
    obtain ⟨hpage, -, hwaste⟩ := insertIntCell_spec hempty List.Pairwise.nil hins
    refine trim_inner hpage.inner ?_ (hwaste 0 ⟨rfl, le_rfl⟩) (by norm_num)
    rw [hpage.length]
    exact (by decide : 1 < theOrder)

theorem Outcome.kept {alloc : ℕ → ℕ} {st st' : Store} {h a father father' : ℕ} {es : List Entry}
    {foot : List ℕ} (hout : Outcome alloc st h a es foot father st' father') (hfather : father ≠ 0) :
    father' = father ∧
      ∀ x, st.nodes x ≠ none → x ∉ foot → x ≠ father → st'.nodes x = st.nodes x := by
  cases hout with
  | whole _ _ hmoves _ => exact ⟨rfl, fun x hx hfoot _ => hmoves.kept x hx hfoot⟩
  | halves _ _ _ _ _ _ _ _ hmoves _ hlink =>
    rw [link, if_pos hfather] at hlink
    obtain ⟨page, -, hlink⟩ := bind_eq_ok.1 hlink
    obtain ⟨page', -, hlink⟩ := bind_eq_ok.1 hlink
    cases hlink
    refine ⟨rfl, fun x hx hfoot hne => ?_⟩
    rw [Store.nodes_set_of_ne hne, hmoves.kept x hx hfoot]

def Fine (top : ℕ) (st : Store) (x : ℕ) : Prop :=
  ∀ node, st.nodes x = some node → Trim node ∧ (x ≠ top → Filled node)

section Trim

variable {alloc : ℕ → ℕ} (hinj : Function.Injective alloc) (hne : ∀ n, alloc n ≠ 0) {st : Store}
  (hnum : Numbered alloc st) {top a father father' : ℕ} {st' : Store}

theorem splitNode_fine {split : Node → Result (Node × Node × Key)} {page : Node}
    (hget : st.nodes a = some page)
    (hsplit : ∀ r, split page = .ok r → (Trim r.1 ∧ Filled r.1) ∧ Trim r.2.1 ∧ Filled r.2.1)
    (hrun : splitNode split true alloc st a father = .ok (st', father')) :
    (∀ x, x ≠ father' → (x ≠ a → Fine top st x) → Fine top st' x) ∧
      (father' ≠ father → (a ≠ father' → ∀ node, st'.nodes a = some node → Filled node) ∧
        ∀ node, st'.nodes father' = some node → Trim node) := by
  rw [splitNode, Store.get_eq hget, ok_bind] at hrun
  obtain ⟨⟨left, newNode, key⟩, hpages, hlink⟩ := bind_eq_ok.1 hrun
  obtain ⟨hleft, hright⟩ := hsplit _ hpages
  obtain ⟨hsame, hroot⟩ := link_pages hlink
  refine ⟨fun x hx hold node hnode => ?_, fun hfather => ⟨fun ha node hnode => ?_, (hroot hfather).2⟩⟩
  · rw [hsame x hx] at hnode
    rcases eq_or_ne x a with rfl | hxa
    · rw [Store.nodes_set_self] at hnode
      cases hnode
      exact ⟨hleft.1, fun _ => hleft.2⟩
    · rw [Store.nodes_set_of_ne hxa] at hnode
      rcases eq_or_ne x (st.next alloc) with rfl | hnext
      · rw [Store.nodes_add_next] at hnode
        cases hnode
        exact ⟨hright.1, fun _ => hright.2⟩
      · rw [Store.nodes_add_of_ne hnext] at hnode
        exact hold hxa node hnode
  · rw [hsame a ha, Store.nodes_set_self] at hnode
    cases hnode
    exact hleft.2

include hinj hne hnum

theorem insert2_trim {h : ℕ} {es : List Entry} {foot : List ℕ} (hrep : Rep st h a es foot)
    (hnodup : foot.Nodup) (hfine : ∀ x ∈ foot, Fine top st x) {k : Key} (hk : k ∉ es.map Prod.fst)
    {data : List UInt8} {fuel : ℕ} {inserted : Bool}
    (hrun : insert2 true alloc fuel st a k data father = .ok (st', father', inserted)) :
    (∀ x, x ∈ foot ∨ st.nodes x = none → x ≠ father' → Fine top st' x) ∧
      (father' ≠ father → (a ≠ father' → ∀ node, st'.nodes a = some node → Filled node) ∧
        ∀ node, st'.nodes father' = some node → Trim node) := by
  induction hrep generalizing fuel father st' father' inserted with
  | @leaf a node es hget hholds hsorted =>
    obtain ⟨fuel, rfl⟩ := fuel_of_insert2 hrun
    rw [insert2, Store.get_eq hget, ok_bind, if_pos hholds.leaf] at hrun
    obtain ⟨⟨ok, page⟩, hins, hrun⟩ := bind_eq_ok.1 hrun
    obtain ⟨hok, hpage, hwaste⟩ := insertLeafCell_new hholds hsorted hk hins
    obtain rfl : ok = true := hok
    obtain ⟨htrim, hfilled⟩ := hfine a (mem_singleton_self a) node hget
    have hpages := hwaste (htrim.leaf hholds.leaf)
    have hlen : (ins k data es).length = node.cellSize + 1 := by
      rw [(ins_perm k data es).length_eq, hholds.length, length_cons]
    have hold : ∀ x, x ∈ [a] ∨ st.nodes x = none → x ≠ a → Fine top (st.set a page) x := by
      rintro x (hx | hx) hxa node' hnode'
      · exact absurd (mem_singleton.1 hx) hxa
      · rw [Store.nodes_set_of_ne hxa, hx] at hnode'
        cases hnode'
    dsimp only at hrun hpage hpages
    rw [if_neg (by simp)] at hrun
    split at hrun
    · next hfull =>
      obtain ⟨⟨st₁, f⟩, hrun', hrun⟩ := bind_eq_ok.1 hrun
      cases hrun
      have hten : (ins k data es).length = theOrder := by
        have hsize := htrim.size
        rw [hpage.length] at hfull
        omega
      obtain ⟨hall, hroot⟩ := splitNode_fine Store.nodes_set_self
        (fun _ => splitLeafPage_trim hpage (hsorted.ins hk) hten hpages) hrun'
      exact ⟨fun x hx hxf => hall x hxf (hold x hx), hroot⟩
    · next hroom =>
      cases hrun
      refine ⟨fun x hx hxf => ?_, fun hne => absurd rfl hne⟩
      rcases eq_or_ne x a with rfl | hxa
      · intro node' hnode'
        rw [Store.nodes_set_self] at hnode'
        cases hnode'
        refine ⟨hpage.trim (not_le.1 hroom) hpages, fun htop => ?_⟩
        have hcells := (filled_leaf hholds.leaf).1 (hfilled htop)
        rw [filled_leaf hpage.leaf, hpage.length]
        omega
      · exact hold x hx hxa
  | @inner h a node sons hget hroutes hfenced hsons ih =>
    obtain ⟨fuel, rfl⟩ := fuel_of_insert2 hrun
    obtain ⟨pre, s, post, rfl, hpre, hs, hchild⟩ := exists_son hroutes k
    rw [insert2, Store.get_eq hget, ok_bind, if_neg (by simp [hroutes.inner]), hchild,
      ok_bind] at hrun
    obtain ⟨⟨st₁, f₁, ok⟩, hcall, hrun⟩ := bind_eq_ok.1 hrun
    rw [map_append, map_cons] at hfenced hk
    have hk' : k ∉ s.entries.map Prod.fst := by
      rw [mem_keys_iff, hfenced.lookup_contents hpre hs, ← mem_keys_iff] at hk
      exact hk
    have hmem : s ∈ pre ++ s :: post := by simp
    have hsub : ∀ x ∈ s.foot, x ∈ a :: (pre ++ s :: post).flatMap Son.foot := fun x hx =>
      mem_cons_of_mem _ (mem_flatMap.2 ⟨s, hmem, hx⟩)
    obtain ⟨rfl, hout⟩ := insert2_new hinj hne hnum (hsons s hmem) (nodup_son hnodup) hk' hcall
    obtain ⟨hkids, -⟩ := ih s hmem (nodup_son hnodup) (fun x hx => hfine x (hsub x hx)) hk' hcall
    have ha : st.nodes a ≠ none := by rw [hget]; exact some_ne_none node
    obtain ⟨hf, hkept⟩ := hout.kept (by obtain ⟨i, -, hi⟩ := (hnum a).1 ha; exact hi ▸ hne i)
    obtain rfl : a = f₁ := hf.symm
    -- the pages of the tree other than that of the node
    have hold : ∀ x, x ∈ a :: (pre ++ s :: post).flatMap Son.foot ∨ st.nodes x = none → x ≠ a →
        Fine top st₁ x := by
      intro x hx hxa
      by_cases hxs : x ∈ s.foot ∨ st.nodes x = none
      · exact hkids x hxs hxa
      · push Not at hxs
        have hmemx := hx.resolve_right hxs.2
        intro node' hnode'
        rw [hkept x hxs.2 hxs.1 hxa] at hnode'
        exact hfine x hmemx node' hnode'
    obtain ⟨htrim, hfilled⟩ := hfine a mem_cons_self node hget
    obtain ⟨foot', hrep, hfoot', -, hnum', page, hget', hpage⟩ := hout.absorb hne hnum hget hroutes
      (hfenced.ins hpre hs hk') hsons hnodup
    obtain ⟨page', sons', hget'', hroutes', hfenced', -⟩ := hrep.inner_cases
    obtain rfl : page = page' := some.inj (hget'.symm.trans hget'')
    dsimp only at hrun
    rw [if_neg (by simp), Store.get_eq hget', ok_bind] at hrun
    split at hrun
    · next hfull =>
      obtain ⟨⟨st₂, f⟩, hrun', hrun⟩ := bind_eq_ok.1 hrun
      cases hrun
      have hlinked : Linked node page := by
        refine hpage.resolve_left ?_
        rintro rfl
        exact absurd htrim.size (not_lt.2 hfull)
      have hten : page.cellSize = theOrder := by
        have hsize := htrim.size
        have hlen := hlinked.length
        omega
      obtain ⟨hall, hroot⟩ := splitNode_fine hget' (fun _ => splitIntPage_trim hroutes'
        (sorted_routes hfenced') hten (hlinked.waste (htrim.inner hroutes.inner))) hrun'
      exact ⟨fun x hx hxf => hall x hxf (hold x hx), hroot⟩
    · next hroom =>
      cases hrun
      refine ⟨fun x hx hxf => ?_, fun hne => absurd rfl hne⟩
      rcases eq_or_ne x a with rfl | hxa
      · intro node' hnode'
        obtain rfl := some.inj (hget'.symm.trans hnode')
        rcases hpage with rfl | hlinked
        · exact ⟨htrim, hfilled⟩
        · refine ⟨trim_inner hlinked.inner (not_le.1 hroom)
            (hlinked.waste (htrim.inner hroutes.inner)) (by norm_num), fun htop => ?_⟩
          have hcells := (filled_inner hroutes.inner).1 (hfilled htop)
          rw [filled_inner hlinked.inner, hlinked.length]
          omega
      · exact hold x hx hxa

end Trim

/-! ### The pages of a session -/

theorem getTree_fine (alloc : ℕ → ℕ) (x : ℕ) : Fine (getTree alloc).root (getTree alloc).store x := by
  intro node hnode
  rcases eq_or_ne x (getTree alloc).root with rfl | hroot
  · obtain rfl := some.inj (Store.nodes_add_next.symm.trans hnode)
    exact ⟨getLeafNode_holds.trim (by decide) rfl, fun hne => absurd rfl hne⟩
  · cases (Store.nodes_add_of_ne hroot).symm.trans hnode

section Session

variable {alloc : ℕ → ℕ} (hinj : Function.Injective alloc) (hne : ∀ n, alloc n ≠ 0)

include hinj hne

theorem insert_fine {t : Tree} {es : List Entry} (ht : Represents alloc t es)
    (hfine : ∀ x, Fine t.root t.store x) {k : Key} (hk : k ∉ es.map Prod.fst) {data : List UInt8}
    {r : Tree × Bool} (hrun : insert true alloc t k data = .ok r) (x : ℕ) :
    Fine r.1.root r.1.store x := by
  obtain ⟨-, -, -, -, -, hnum', -⟩ := insert_new hinj hne ht hk hrun
  obtain ⟨h, foot, hrep, hnodup, hnum, hall⟩ := ht
  obtain ⟨⟨st', p, inserted⟩, hcall, hrun⟩ := bind_eq_ok.1 hrun
  obtain ⟨rfl, -⟩ := insert2_new hinj hne hnum hrep hnodup hk hcall
  obtain ⟨hpages, hroot⟩ := insert2_trim hinj hne hnum hrep hnodup (fun x _ => hfine x) hk hcall
  have hx : x ∈ foot ∨ t.store.nodes x = none := or_iff_not_imp_right.2 (hall x)
  dsimp only at hrun
  rw [if_neg (by simp)] at hrun
  split at hrun
  · next hp =>
    cases hrun
    intro node hnode
    rcases eq_or_ne x p with rfl | hxp
    · exact ⟨(hroot hp).2 node hnode, fun hne => absurd rfl hne⟩
    · obtain ⟨htrim, hfilled⟩ := hpages x hx hxp node hnode
      refine ⟨htrim, fun _ => ?_⟩
      rcases eq_or_ne x t.root with rfl | hxroot
      · exact (hroot hp).1 hxp node hnode
      · exact hfilled hxroot
  · next hp =>
    cases hrun
    intro node hnode
    refine hpages x hx (fun hxp => ?_) node hnode
    obtain ⟨i, -, hi⟩ := (hnum' x).1 (by rw [hnode]; exact some_ne_none node)
    exact hp (hxp ▸ hi ▸ hne i)

theorem step_fine {s s' : Session} {e : Entry} (h : s.Inv alloc)
    (hfine : ∀ x, Fine s.tree.root s.tree.store x) (hroomy : Roomy alloc s e)
    (hstep : s.step alloc e = some s') (x : ℕ) : Fine s'.tree.root s'.tree.store x := by
  obtain ⟨r, hcall, rfl⟩ := Session.step_eq_some hstep
  obtain ⟨es, hes, hlookup⟩ := h
  by_cases hnew : s.calls.lookup e.1 = none
  · obtain ⟨r', hr'⟩ := hroomy.strict hnew
    have hk : e.1 ∉ es.map Prod.fst := by
      rw [mem_keys_iff, hlookup, hnew]
      simp
    rw [insert_of_strict true alloc _ _ _ r' hr'] at hcall
    cases hcall
    exact insert_fine hinj hne hes hfine hk hr' x
  · obtain ⟨t, leaf, -, hroot, hpages, -, hrun⟩ := insert_old hne hes (by rwa [mem_keys_iff, hlookup]) e.2
    obtain ⟨-, rfl⟩ := (hrun r).1 hcall
    intro node' hnode'
    obtain ⟨node, hnode, hsame⟩ := hpages x node' hnode'
    obtain ⟨htrim, hfilled⟩ := hfine x node hnode
    refine ⟨hsame.trim htrim, fun hx => hsame.filled (hfilled ?_)⟩
    rwa [← hroot]

theorem run_fine {calls : List Entry} {s : Session}
    (hroomy : Lts.Along (Session.step alloc) (Roomy alloc) (Session.start alloc) calls)
    (hrun : Lts.run (Session.step alloc) (Session.start alloc) calls = some s) :
    s.Inv alloc ∧ ∀ x, Fine s.tree.root s.tree.store x :=
  Lts.run_invariant (I := fun s => s.Inv alloc ∧ ∀ x, Fine s.tree.root s.tree.store x)
    (fun _ _ _ hs hroom hstep => ⟨step_inv hinj hne hs.1 hroom hstep, step_fine hinj hne hs.1 hs.2 hroom hstep⟩)
    ⟨start_inv alloc, getTree_fine alloc⟩ hroomy hrun

end Session

/-! ### The shape of a tree -/

structure LeafKeys (node : Node) (ks : List Key) : Prop where
  leaf : node.isLeaf = true
  length : node.cellSize = ks.length
  cell : ∀ i k, ks[i]? = some k → ∃ cell, getKthLeafCell node i = .ok cell ∧ cell.key = k

structure IntCells (node : Node) (cells : List IntCell) : Prop where
  inner : node.isLeaf = false
  length : node.cellSize = cells.length
  cell : ∀ i cell, cells[i]? = some cell → getKthIntCell node i = .ok cell

def FilledAt (st : Store) (a : ℕ) : Prop := ∃ node, st.nodes a = some node ∧ Filled node

inductive Shaped (st : Store) : ℕ → ℕ → List Key → Prop
  | leaf {a : ℕ} {node : Node} {ks : List Key} (hget : st.nodes a = some node)
      (hcells : LeafKeys node ks) (hsize : node.cellSize < theOrder) (hsorted : ks.Pairwise (· < ·)) :
      Shaped st 0 a ks
  | inner {h a : ℕ} {node : Node} {kids : List (IntCell × List Key)} {last : List Key}
      (hget : st.nodes a = some node) (hcells : IntCells node (kids.map Prod.fst))
      (hsize : node.cellSize < theOrder) (hsorted : (kids.map (·.1.key)).Pairwise (· < ·))
      (hkids : ∀ kid ∈ kids, FilledAt st kid.1.childPoint)
      (hlast : FilledAt st node.rightChild)
      (hle : ∀ kid ∈ kids, ∀ k ∈ kid.2, k ≤ kid.1.key)
      (hlt : kids.Pairwise fun kid kid' => ∀ k ∈ kid'.2, kid.1.key < k)
      (hltlast : ∀ kid ∈ kids, ∀ k ∈ last, kid.1.key < k)
      (hshapes : ∀ kid ∈ kids, Shaped st h kid.1.childPoint kid.2)
      (hshape : Shaped st h node.rightChild last) :
      Shaped st (h + 1) a (kids.flatMap Prod.snd ++ last)

def Son.kid (s : Son) : IntCell × List Key := (⟨s.bound.untopD 0, s.child⟩, s.entries.map Prod.fst)

theorem Routes.split {node : Node} {sons : List Son} (h : Routes node (sons.map Son.route)) :
    ∃ (front : List Son) (last : Son), sons = front ++ [last] ∧ last.child = node.rightChild ∧
      (∀ s ∈ front, (s.kid.1.key : WithTop Key) = s.bound) ∧
      IntCells node ((front.map Son.kid).map Prod.fst) := by
  obtain ⟨es, hes, hsons⟩ := h
  obtain ⟨front, rest, rfl, hfront, hrest⟩ := map_eq_append_iff.1 hsons
  obtain ⟨last, rest, rfl, hlast, hnil⟩ := map_eq_cons_iff.1 hrest
  obtain rfl := map_eq_nil_iff.1 hnil
  have hcells : (front.map Son.kid).map Prod.fst = es.map fun e => ⟨e.1, e.2⟩ := by
    have hmap := congrArg (map fun r : WithTop Key × ℕ => (⟨r.1.untopD 0, r.2⟩ : IntCell)) hfront
    rw [List.map_map, List.map_map] at hmap
    rw [List.map_map]
    exact hmap
  refine ⟨front, last, rfl, congrArg Prod.snd hlast, fun s hs => ?_, hes.inner, ?_, fun i cell hcell => ?_⟩
  · obtain ⟨e, -, he⟩ := mem_map.1 (hfront ▸ mem_map_of_mem hs : s.route ∈ es.map fenced)
    have hbound : (e.1 : WithTop Key) = s.bound := congrArg Prod.fst he
    rw [Son.kid, ← hbound]
    rfl
  · rw [hcells, length_map, hes.length]
  · rw [hcells, getElem?_map] at hcell
    obtain ⟨e, he, rfl⟩ := map_eq_some_iff.1 hcell
    exact getKthIntCell_eq hes he

theorem Rep.shaped {st : Store} {top h a : ℕ} {es : List Entry} {foot : List ℕ}
    (hrep : Rep st h a es foot) (hnodup : foot.Nodup) (hfine : ∀ x ∈ foot, Fine top st x)
    (htop : ∀ x ∈ foot, x ≠ a → x ≠ top) : Shaped st h a (es.map Prod.fst) := by
  induction hrep with
  | @leaf a node es hget hholds hsorted =>
    refine .leaf hget ⟨hholds.leaf, ?_, fun i k hk => ?_⟩
      (hfine a (mem_singleton_self a) node hget).1.size (pairwise_map.2 hsorted)
    · rw [length_map, hholds.length]
    · rw [getElem?_map] at hk
      obtain ⟨e, he, rfl⟩ := map_eq_some_iff.1 hk
      obtain ⟨pos, hcell, -⟩ := getKthLeafCell_eq hholds he
      exact ⟨_, hcell, rfl⟩
  | @inner h a node sons hget hroutes hfenced hsons ih =>
    obtain ⟨front, last, rfl, hlast, hkey, hcells⟩ := hroutes.split
    have hnodes : ∀ s ∈ front ++ [last], ∀ x ∈ s.foot, x ∈ a :: (front ++ [last]).flatMap Son.foot ∧
        x ≠ top := by
      intro s hs x hx
      have hmem : x ∈ (front ++ [last]).flatMap Son.foot := mem_flatMap.2 ⟨s, hs, hx⟩
      exact ⟨mem_cons_of_mem a hmem, htop x (mem_cons_of_mem a hmem)
        (ne_of_mem_of_not_mem hmem (nodup_cons.1 hnodup).1)⟩
    have hshapes : ∀ s ∈ front ++ [last], Shaped st h s.child (s.entries.map Prod.fst) := by
      intro s hs
      obtain ⟨pre, post, hsplit⟩ := append_of_mem hs
      rw [hsplit] at hnodup
      exact ih s hs (nodup_son hnodup) (fun x hx => hfine x (hnodes s hs x hx).1)
        fun x hx _ => (hnodes s hs x hx).2
    have hfilled : ∀ s ∈ front ++ [last], FilledAt st s.child := by
      intro s hs
      obtain ⟨hmem, hne⟩ := hnodes s hs s.child (hsons s hs).mem_foot
      obtain ⟨page, hpage, -⟩ := (hsons s hs).pages s.child (hsons s hs).mem_foot
      exact ⟨page, hpage, (hfine s.child hmem page hpage).2 hne⟩
    have hkeys : (contents ((front ++ [last]).map Son.part)).map Prod.fst =
        (front.map Son.kid).flatMap Prod.snd ++ last.entries.map Prod.fst := by
      simp [contents, Son.part, Son.kid, map_flatMap, flatMap_map]
    have hmem : ∀ s ∈ front, s ∈ front ++ [last] := fun s hs => mem_append_left _ hs
    -- the bounds of the children in front are the keys of their cells
    obtain ⟨hpairs, -, hend⟩ := pairwise_append.1 (pairwise_map.1 hfenced.pairwise)
    have hsorted := (pairwise_append.1 (pairwise_map.1 hfenced.sorted_bounds)).1
    have hbelow : ∀ s ∈ front, ∀ e : Entry, s.bound < (e.1 : WithTop Key) → s.kid.1.key < e.1 := by
      intro s hs e hlt
      rw [← hkey s hs] at hlt
      exact WithTop.coe_lt_coe.1 hlt
    rw [hkeys]
    refine .inner hget hcells (hfine a mem_cons_self node hget).1.size ?_
      (forall_mem_map.2 fun s hs => hfilled s (hmem s hs)) (hlast ▸ hfilled last (by simp))
      (forall_mem_map.2 fun s hs k hk => ?_) ?_ (forall_mem_map.2 fun s hs k hk => ?_)
      (forall_mem_map.2 fun s hs => hshapes s (hmem s hs)) (hlast ▸ hshapes last (by simp))
    · rw [List.map_map, pairwise_map]
      refine hsorted.imp_of_mem fun {s s'} hs hs' hlt => ?_
      have hlt' : s.bound < s'.bound := hlt
      rw [← hkey s hs, ← hkey s' hs'] at hlt'
      exact WithTop.coe_lt_coe.1 hlt'
    · obtain ⟨e, he, rfl⟩ := mem_map.1 hk
      have hle : (e.1 : WithTop Key) ≤ s.bound :=
        (hfenced.bounded s.part (mem_map_of_mem (hmem s hs))).le e he
      rw [← hkey s hs] at hle
      exact WithTop.coe_le_coe.1 hle
    · refine pairwise_map.2 (hpairs.imp_of_mem fun {s s'} hs _ hlt k hk => ?_)
      obtain ⟨e, he, rfl⟩ := mem_map.1 hk
      exact hbelow s hs e (hlt e he)
    · obtain ⟨e, he, rfl⟩ := mem_map.1 hk
      exact hbelow s hs e (hend s hs last (mem_singleton_self last) e he)

theorem tree_shaped {alloc : ℕ → ℕ} (hinj : Function.Injective alloc) (hne : ∀ n, alloc n ≠ 0)
    {calls : List Entry} {s : Session}
    (hroomy : Lts.Along (Session.step alloc) (Roomy alloc) (Session.start alloc) calls)
    (hrun : Lts.run (Session.step alloc) (Session.start alloc) calls = some s) :
    ∃ h ks, Shaped s.tree.store h s.tree.root ks := by
  obtain ⟨⟨es, ⟨h, foot, hrep, hnodup, -, -⟩, -⟩, hfine⟩ := run_fine hinj hne hroomy hrun
  exact ⟨h, _, hrep.shaped hnodup (fun x _ => hfine x) fun _ _ hne => hne⟩

theorem tree_shaped_twelve :
    ∃ s h ks, Lts.run (Session.step (· + 1)) (Session.start (· + 1))
        ((range 12).map fun i => (UInt32.ofNat (7 * i % 13), [UInt8.ofNat i])) = some s ∧
      Shaped s.tree.store h s.tree.root ks := by
  obtain ⟨s, hrun⟩ := isSome_iff_exists.1 (by decide +kernel :
    (Lts.run (Session.step (· + 1)) (Session.start (· + 1))
      ((range 12).map fun i => (UInt32.ofNat (7 * i % 13), [UInt8.ofNat i]))).isSome = true)
  obtain ⟨h, ks, hshaped⟩ := tree_shaped (add_left_injective 1) (fun n => Nat.succ_ne_zero n)
    (by decide +kernel) hrun
  exact ⟨s, h, ks, hrun, hshaped⟩

theorem Shaped.child {st : Store} {h a : ℕ} {ks : List Key} (hshaped : Shaped st h a ks) {node : Node}
    (hget : st.nodes a = some node) {i : ℕ} {cell : IntCell} (hcell : getKthIntCell node i = .ok cell) :
    st.nodes cell.childPoint ≠ none := by
  have hguard : node.isLeaf = false ∧ i < node.cellSize := by
    by_contra hnot
    rw [getKthIntCell, if_neg hnot] at hcell
    cases hcell
  cases hshaped with
  | leaf hget' hcells _ _ =>
    obtain rfl := some.inj (hget'.symm.trans hget)
    exact absurd (hcells.leaf.symm.trans hguard.1) (by decide)
  | inner hget' hcells _ _ hkids =>
    obtain rfl := some.inj (hget'.symm.trans hget)
    have hi := hguard.2
    rw [hcells.length] at hi
    have hsome := getElem?_eq_getElem hi
    obtain rfl := ok.inj ((hcells.cell i _ hsome).symm.trans hcell)
    obtain ⟨kid, hkid, heq⟩ := mem_map.1 (getElem_mem hi)
    obtain ⟨page, hpage, -⟩ := hkids kid hkid
    rw [← heq, hpage]
    exact some_ne_none page

theorem shape_lost :
    Lts.Along (Session.step (· + 1)) (Roomy (· + 1)) (Session.start (· + 1))
        ((range 10).map fun i => (UInt32.ofNat i, [0])) ∧
      ∃ s, Lts.run (Session.step (· + 2 ^ 33)) (Session.start (· + 2 ^ 33))
          ((range 10).map fun i => (UInt32.ofNat i, [0])) = some s ∧
        ¬ ∃ h ks, Shaped s.tree.store h s.tree.root ks := by
  have hcell : ((Lts.run (Session.step (· + 2 ^ 33)) (Session.start (· + 2 ^ 33))
      ((range 10).map fun i => (UInt32.ofNat i, [0]))).bind fun s =>
        (s.tree.store.nodes s.tree.root).bind fun node =>
          (getKthIntCell node 0).toOption.map fun cell =>
            (s.tree.store.nodes cell.childPoint).isSome) = some false := by decide +kernel
  obtain ⟨s, hrun, hcell⟩ := bind_eq_some_iff.1 hcell
  obtain ⟨node, hnode, hcell⟩ := bind_eq_some_iff.1 hcell
  obtain ⟨cell, hread, hnone⟩ := map_eq_some_iff.1 hcell
  refine ⟨by decide +kernel, s, hrun, ?_⟩
  rintro ⟨h, ks, hshaped⟩
  refine hshaped.child hnode (toOption_eq_some hread) ?_
  simpa using hnone

/-! ### The way to a leaf -/

theorem FilledAt.filled {st : Store} {a : ℕ} {node : Node} (h : FilledAt st a) (hget : st.nodes a = some node) :
    Filled node := by
  obtain ⟨node', hget', hfilled⟩ := h
  obtain rfl := some.inj (hget'.symm.trans hget)
  exact hfilled

theorem Shaped.pow_le {st : Store} {h a : ℕ} {ks : List Key} (hshaped : Shaped st h a ks)
    (hfilled : FilledAt st a) : (theOrder / 2) ^ (h + 1) ≤ ks.length := by
  induction hshaped with
  | leaf hget hcells _ _ =>
    have hcount := (filled_leaf hcells.leaf).1 (hfilled.filled hget)
    rwa [pow_one, ← hcells.length]
  | @inner h a node kids last hget hcells _ _ hkids hlast _ _ _ _ _ ih ihlast =>
    have hcount := (filled_inner hcells.inner).1 (hfilled.filled hget)
    have hsum := card_nsmul_le_sum (kids.map fun kid => kid.2.length) ((theOrder / 2) ^ (h + 1))
      (forall_mem_map.2 fun kid hkid => ih kid hkid (hkids kid hkid))
    rw [hcells.length, length_map] at hcount
    rw [length_map, smul_eq_mul] at hsum
    calc (theOrder / 2) ^ (h + 2) = theOrder / 2 * (theOrder / 2) ^ (h + 1) := pow_succ' _ _
      _ ≤ (kids.length + 1) * (theOrder / 2) ^ (h + 1) := Nat.mul_le_mul_right _ hcount
      _ = kids.length * (theOrder / 2) ^ (h + 1) + (theOrder / 2) ^ (h + 1) := Nat.succ_mul _ _
      _ ≤ (kids.flatMap Prod.snd ++ last).length := by
        rw [length_append, length_flatMap]
        exact Nat.add_le_add hsum (ihlast hlast)

theorem Shaped.height_le {st : Store} {h a : ℕ} {ks : List Key} (hshaped : Shaped st h a ks) :
    h ≤ Nat.log (theOrder / 2) ks.length := by
  cases hshaped with
  | leaf => exact Nat.zero_le _
  | inner _ _ _ _ _ hlast _ _ _ _ hshape =>
    -- the root may have too few cells, its last child has not
    refine Nat.le_log_of_pow_le (by decide) ((hshape.pow_le hlast).trans ?_)
    rw [length_append]
    exact Nat.le_add_left _ _

theorem leafFor_mono {st : Store} {k : Key} {fuel fuel' a : ℕ} {leaf : Node} (hle : fuel ≤ fuel')
    (h : leafFor st k fuel a = .ok leaf) : leafFor st k fuel' a = .ok leaf := by
  induction fuel generalizing fuel' a with
  | zero => cases h
  | succ fuel ih =>
    obtain ⟨fuel', rfl⟩ : ∃ n, fuel' = n + 1 := ⟨fuel' - 1, by omega⟩
    obtain ⟨node, hget, hrest⟩ := bind_eq_ok.1 h
    rw [leafFor, hget, ok_bind]
    split at hrest
    · next hleaf => rwa [if_pos hleaf]
    · next hinner =>
      obtain ⟨child, hchild, hleaf⟩ := bind_eq_ok.1 hrest
      rw [if_neg hinner, hchild, ok_bind]
      exact ih (Nat.le_of_succ_le_succ hle) hleaf

end SqliteDemo
