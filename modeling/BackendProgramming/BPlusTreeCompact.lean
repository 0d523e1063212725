/-
**The clean-up of a page.**

`spaceCleanUp` copies the cells of a node one by one into a scratch page, and the scratch page over the node.
The scratch page and the two empty pages that it starts from are static, so that all calls share them.
-/

import BackendProgramming.BPlusTreeMap

set_option autoImplicit false

namespace SqliteDemo

open ByteMem SlottedPage SortedEntries Function List Except

/-! ### The static pages -/

structure Statics where
  leafnode : Node := getLeafNode
  intnode : Node := getIntNode
  tempNode : Node := getIntNode

def reinsertLeafCells (node : Node) : ℕ → ℕ → Node → Result Node
  | _, 0, temp => .ok temp
  | i, r + 1, temp => do
    let cell ← getKthLeafCell node i
    let data ← readData node cell
    let (_, temp) ← insertLeafCell false temp cell.key data
    reinsertLeafCells node (i + 1) r temp

def reinsertIntCells (node : Node) : ℕ → ℕ → Node → Result Node
  | _, 0, temp => .ok temp
  | i, r + 1, temp => do
    let cell ← getKthIntCell node i
    let temp ← insertIntCell false temp cell.key cell.childPoint
    reinsertIntCells node (i + 1) r temp

def Statics.cleanUp (s : Statics) (node : Node) : Result (Statics × Node) :=
  if node.isLeaf then do
    let temp ← reinsertLeafCells node 0 node.cellSize s.leafnode
    return ({ s with tempNode := temp }, temp)
  else do
    let temp ← reinsertIntCells node 0 node.cellSize s.intnode
    let temp := { temp with rightChild := node.rightChild }
    return ({ s with tempNode := temp }, temp)

def Statics.cleanUps (s : Statics) : List Node → Result Statics
  | [] => .ok s
  | node :: nodes => do
    let (s, _) ← s.cleanUp node
    s.cleanUps nodes

/-! ### What the cells are -/

def cellKey (node : Node) (i : ℕ) : Key := toKey (leInt (read node.content (cellStart node i).toNat 4))

def cellChild (node : Node) (i : ℕ) : ℕ :=
  toPointer (leInt (read node.content ((cellStart node i).toNat + 4) 4))

def cellData (node : Node) (i : ℕ) : List UInt8 :=
  read node.content ((cellStart node i).toNat + 8) (cellStop node i - cellStart node i - 8).toNat

def readCell (node : Node) (i : ℕ) : Result (Key × (List UInt8 ⊕ ℕ)) :=
  if node.isLeaf then do
    let cell ← getKthLeafCell node i
    let data ← readData node cell
    return (cell.key, .inl data)
  else do
    let cell ← getKthIntCell node i
    return (cell.key, .inr cell.childPoint)

structure Tidy (node : Node) : Prop where
  layout : Layout node
  whole : ∀ i < node.cellSize, cellStart node i + 8 ≤ cellStop node i
  sorted : ∀ j < node.cellSize, ∀ i < j, cellKey node i < cellKey node j

structure Packed (node node' : Node) : Prop where
  cells : ∀ i < node.cellSize, ∃ cell, readCell node i = .ok cell ∧ readCell node' i = .ok cell
  cellSize : node'.cellSize = node.cellSize
  isLeaf : node'.isLeaf = node.isLeaf
  rightChild : node'.rightChild = node.rightChild
  fragSize : node'.fragSize = 0
  firstCellPos : (node'.firstCellPos : ℤ) =
    pageSize - ((range node.cellSize).map fun i => cellStop node i - cellStart node i).sum

/-! ### The static pages do not matter -/

def header (node : Node) : Bool × UInt8 × ℕ := (node.isLeaf, node.fragSize, node.rightChild)

section Header

variable {node node' temp : Node}

theorem header_copyIn {off : ℕ} {bs : List UInt8} (h : copyIn node off bs = .ok node') :
    header node' = header node := by
  rw [copyIn] at h
  split at h
  · rw [← ok.inj h]
    rfl
  · cases h

theorem header_placeLeafCell {k : Key} {data : List UInt8} {b : Bool}
    (h : placeLeafCell node k data = .ok (b, node')) : header node' = header node := by
  obtain ⟨slot, -, h⟩ := bind_eq_ok.1 h
  cases slot with
  | none =>
    rw [← (Prod.mk.inj (ok.inj h)).2]
  | some kth =>
    obtain ⟨n₁, h₁, h⟩ := bind_eq_ok.1 h
    obtain ⟨n₂, h₂, h⟩ := bind_eq_ok.1 h
    obtain ⟨n₃, h₃, h⟩ := bind_eq_ok.1 h
    obtain ⟨n₄, h₄, h⟩ := bind_eq_ok.1 h
    rw [← (Prod.mk.inj (ok.inj h)).2]
    have hopened := header_copyIn h₁
    exact (header_copyIn h₄).trans ((header_copyIn h₃).trans ((header_copyIn h₂).trans hopened))

theorem header_placeIntCell {k : Key} {child : ℕ} (h : placeIntCell node k child = .ok node') :
    header node' = header node := by
  obtain ⟨kth, -, h⟩ := bind_eq_ok.1 h
  obtain ⟨n₁, h₁, h⟩ := bind_eq_ok.1 h
  obtain ⟨n₂, h₂, h⟩ := bind_eq_ok.1 h
  obtain ⟨n₃, h₃, h⟩ := bind_eq_ok.1 h
  rw [← ok.inj h]
  have hopened := header_copyIn h₁
  exact (header_copyIn h₃).trans ((header_copyIn h₂).trans hopened)

theorem spaceCheck_clean (hfrag : temp.fragSize = 0) (size : ℕ) :
    spaceCheck false temp size = (do spaceTest false temp size; return temp) := by
  have hcollect : collect false temp = .ok temp := if_neg (by rw [hfrag]; decide)
  rw [spaceCheck, hcollect, ok_bind]

theorem reinsertLeafCells_eq (node : Node) (hheader : header temp = header getLeafNode) (r i : ℕ) :
    reinsertLeafCells node i r temp = copyLeafCells false node i r temp ∧
      ∀ out, copyLeafCells false node i r temp = .ok out → header out = header getLeafNode := by
  induction r generalizing i temp with
  | zero => exact ⟨rfl, fun out hout => ok.inj hout ▸ hheader⟩
  | succ r ih =>
    have hleaf : temp.isLeaf = true := congrArg Prod.fst hheader
    have hfrag : temp.fragSize = 0 := congrArg (·.2.1) hheader
    rw [reinsertLeafCells, copyLeafCells]
    cases getKthLeafCell node i with
    | error e => exact ⟨rfl, fun out hout => by cases hout⟩
    | ok cell =>
      rw [ok_bind, ok_bind]
      cases readData node cell with
      | error e => exact ⟨rfl, fun out hout => by cases hout⟩
      | ok data =>
        rw [ok_bind, ok_bind, insertLeafCell, if_pos hleaf, spaceCheck_clean hfrag]
        cases spaceTest false temp (data.length + 8) with
        | error e => exact ⟨rfl, fun out hout => by cases hout⟩
        | ok u =>
          cases hplace : placeLeafCell temp cell.key data with
          | error e =>
            simp only [ok_bind, pure_bind, hplace]
            exact ⟨rfl, fun out hout => by cases hout⟩
          | ok x =>
            simp only [ok_bind, pure_bind, hplace]
            exact ih ((header_placeLeafCell hplace).trans hheader) (i + 1)

theorem reinsertIntCells_eq (hheader : header temp = header getIntNode) (r i : ℕ)
    (hchild : ∀ j cell, i ≤ j → getKthIntCell node j = .ok cell → cell.childPoint ≠ 0) :
    reinsertIntCells node i r temp = copyIntCells false node i r temp ∧
      ∀ out, copyIntCells false node i r temp = .ok out → header out = header getIntNode := by
  induction r generalizing i temp with
  | zero => exact ⟨rfl, fun out hout => ok.inj hout ▸ hheader⟩
  | succ r ih =>
    have hinner : temp.isLeaf = false := congrArg Prod.fst hheader
    have hfrag : temp.fragSize = 0 := congrArg (·.2.1) hheader
    rw [reinsertIntCells, copyIntCells]
    cases hcell : getKthIntCell node i with
    | error e => exact ⟨rfl, fun out hout => by cases hout⟩
    | ok cell =>
      rw [ok_bind, ok_bind, insertIntCell, if_pos ⟨hinner, hchild i cell le_rfl hcell, by simp⟩,
        spaceCheck_clean hfrag]
      cases spaceTest false temp 8 with
      | error e => exact ⟨rfl, fun out hout => by cases hout⟩
      | ok u =>
        cases hplace : placeIntCell temp cell.key cell.childPoint with
        | error e =>
          simp only [ok_bind, pure_bind, hplace]
          exact ⟨rfl, fun out hout => by cases hout⟩
        | ok temp' =>
          simp only [ok_bind, pure_bind, hplace]
          exact ih ((header_placeIntCell hplace).trans hheader) (i + 1) fun j cell hj =>
            hchild j cell (Nat.le_of_succ_le hj)

end Header

theorem Statics.cleanUps_empty {s s' : Statics} {nodes : List Node} (h : s.cleanUps nodes = .ok s') :
    s'.leafnode = s.leafnode ∧ s'.intnode = s.intnode := by
  induction nodes generalizing s with
  | nil => exact ok.inj h ▸ ⟨rfl, rfl⟩
  | cons node nodes ih =>
    obtain ⟨⟨s₁, node'⟩, hcall, hrest⟩ := bind_eq_ok.1 h
    obtain ⟨hleaf, hint⟩ := ih hrest
    rw [hleaf, hint]
    rw [Statics.cleanUp] at hcall
    split at hcall
    all_goals
      obtain ⟨temp, -, hcall⟩ := bind_eq_ok.1 hcall
      rw [← (Prod.mk.inj (ok.inj hcall)).1]
      exact ⟨rfl, rfl⟩

/-! ### The cells of a tidy page -/

section Tidy

variable {node : Node}

theorem Layout.holds (h : Layout node) (hpos : 0 < node.cellSize) {image : ℕ → List UInt8}
    (hlen : ∀ i < node.cellSize, cellStop node i = cellStart node i + (image i).length)
    (hread : ∀ i < node.cellSize,
      read node.content (cellStart node i).toNat (image i).length = image i) :
    Holds node ((range node.cellSize).map image) := by
  obtain ⟨harray, hwithin, hapart⟩ := h
  have hstart : ∀ i < node.cellSize, ((cellStart node i).toNat : ℤ) = cellStart node i := fun i hi => by
    have := (hwithin i hi).1
    omega
  refine ⟨(range node.cellSize).map fun i => ⟨(cellStart node i).toNat, image i⟩,
    ⟨?_, ?_, ?_, ?_, by simpa using harray, ?_⟩, by simp, by simp [comp_def]⟩
  · intro i c hc
    obtain ⟨hi, rfl⟩ := List.getElem?_eq_some_iff.1 hc
    rw [length_map, length_range] at hi
    rw [getElem_map, getElem_range]
    exact (hstart i hi).symm
  · exact forall_mem_map.2 fun i hi => hread i (mem_range.1 hi)
  · refine forall_mem_map.2 fun i hi => ?_
    rw [mem_range] at hi
    have hin := hwithin i hi
    rw [hlen i hi] at hin
    dsimp only [Cell.stop]
    omega
  · refine pairwise_map.2 (pairwise_lt_range.imp_of_mem fun {i j} hi hj hij => ?_)
    rw [mem_range] at hi hj
    have happ := hapart j hj i hij
    have hstarti := hstart i hi
    have hstartj := hstart j hj
    rw [hlen i hi, hlen j hj] at happ
    dsimp only [Cell.Apart, Cell.stop]
    omega
  · obtain ⟨hlo, hhi⟩ := hwithin 0 hpos
    have := hlen 0 hpos
    omega

theorem leBytes_cellKey (node : Node) (i : ℕ) :
    leBytes 4 (cellKey node i).toNat = read node.content (cellStart node i).toNat 4 := by
  refine leBytes_of_emod (length_read ..) ?_
  have hkey : ∀ z : ℤ, ((toKey z).toNat : ℤ) = z % 2 ^ 32 := fun z => by
    rw [toKey, UInt32.toNat_ofNat']
    omega
  rw [cellKey, hkey]
  omega

def leafEntries (node : Node) : List (Key × List UInt8) :=
  (range node.cellSize).map fun i => (cellKey node i, cellData node i)

def intEntries (node : Node) : List (Key × ℕ) :=
  (range node.cellSize).map fun i => (cellKey node i, cellChild node i)

theorem Tidy.sorted_entries (h : Tidy node) {α : Type} (f : ℕ → α) :
    Sorted ((range node.cellSize).map fun i => (cellKey node i, f i)) :=
  pairwise_map.2 (pairwise_lt_range.imp_of_mem fun {i j} _ hj hij =>
    h.sorted j (mem_range.1 hj) i hij)

theorem Tidy.length_leaf (h : Tidy node) (i : ℕ) (hi : i < node.cellSize) :
    cellStop node i = cellStart node i + ((leafImage (cellKey node i, cellData node i)).length : ℕ) := by
  have := h.whole i hi
  rw [length_leafImage, cellData, length_read]
  omega

theorem length_int (hinner : node.isLeaf = false) (i : ℕ) :
    cellStop node i = cellStart node i + ((intImage (cellKey node i, cellChild node i)).length : ℕ) := by
  rw [length_intImage, cellStop, if_neg (by simp [hinner])]
  norm_num

theorem Tidy.leafHolds (h : Tidy node) (hleaf : node.isLeaf = true) (hpos : 0 < node.cellSize) :
    LeafHolds node (leafEntries node) := by
  refine ⟨hleaf, ?_⟩
  rw [leafEntries, map_map]
  refine h.layout.holds hpos h.length_leaf fun i hi => ?_
  have hwhole := h.whole i hi
  have hlo := (h.layout.2.1 i hi).1
  have hsize : leBytes 4 (cellData node i).length =
      read node.content ((cellStart node i).toNat + 4) 4 := by
    refine leBytes_of_emod (length_read ..) (congrArg (· % 256 ^ 4) ?_)
    rw [cellData, length_read, Int.toNat_of_nonneg (by omega), cellStop, if_pos hleaf,
      show (cellStart node i + 4).toNat = (cellStart node i).toNat + 4 by omega]
    ring
  rw [comp_apply, length_leafImage, leafImage, leBytes_cellKey, hsize, Nat.add_comm,
    show 8 + (cellData node i).length = 4 + (4 + (cellData node i).length) by omega, read_add, read_add]
  rw [cellData, length_read]

theorem Tidy.intHolds (h : Tidy node) (hinner : node.isLeaf = false) (hpos : 0 < node.cellSize) :
    IntHolds node (intEntries node) := by
  have hpointer : ∀ i, (toPointer (leInt (read node.content i 4)) : ℤ) =
      leInt (read node.content i 4) % 2 ^ 64 := fun i => by
    rw [toPointer]
    omega
  refine ⟨hinner, ?_, forall_mem_map.2 fun i _ => ?_⟩
  · rw [intEntries, map_map]
    refine h.layout.holds hpos (fun i _ => length_int hinner i) fun i hi => ?_
    have hchild : leBytes 4 (cellChild node i) = read node.content ((cellStart node i).toNat + 4) 4 := by
      refine leBytes_of_emod (length_read ..) ?_
      rw [cellChild, hpointer]
      omega
    rw [comp_apply, length_intImage, intImage, leBytes_cellKey, hchild, ← read_add]
  · -- the pointer is the sign extension of the 32 bits that it is read from
    have hlow : (leInt (read node.content ((cellStart node i).toNat + 4) 4) % 2 ^ 64).bmod (2 ^ 32) =
        leInt (read node.content ((cellStart node i).toNat + 4) 4) := by
      rw [leInt, length_read]
      norm_num only [Int.bmod_def]
      split_ifs <;> omega
    rw [Fits32, cellChild, hpointer, hlow]

/-! ### The clean-up -/

theorem LeafHolds.readCell {es : List (Key × List UInt8)} (h : LeafHolds node es) {i : ℕ}
    {e : Key × List UInt8} (hi : es[i]? = some e) : readCell node i = .ok (e.1, .inl e.2) := by
  obtain ⟨pos, hcell, hdata⟩ := getKthLeafCell_eq h hi
  rw [SqliteDemo.readCell, if_pos h.leaf, hcell, ok_bind, hdata, ok_bind]
  rfl

theorem IntHolds.readCell {es : List (Key × ℕ)} (h : IntHolds node es) {i : ℕ} {e : Key × ℕ}
    (hi : es[i]? = some e) : readCell node i = .ok (e.1, .inr e.2) := by
  rw [SqliteDemo.readCell, if_neg (by simp [h.inner]), getKthIntCell_eq h hi, ok_bind]
  rfl

theorem firstCellPos_eq {α : Type} {entry : ℕ → α} {image : α → List UInt8} {first : ℕ}
    (hlen : ∀ i < node.cellSize, cellStop node i = cellStart node i + (image (entry i)).length)
    (hfirst : first + ((((range node.cellSize).map entry).map image).map length).sum = pageSize) :
    (first : ℤ) =
      pageSize - ((range node.cellSize).map fun i => cellStop node i - cellStart node i).sum := by
  have hsum : ((range node.cellSize).map fun i => cellStop node i - cellStart node i) =
      ((((range node.cellSize).map entry).map image).map length).map Nat.cast := by
    rw [map_map, map_map, map_map]
    refine map_congr_left fun i hi => ?_
    have := hlen i (mem_range.1 hi)
    simp only [comp_apply]
    omega
  rw [hsum, ← Nat.cast_list_sum]
  omega

theorem Tidy.copyLeaf (h : Tidy node) (hleaf : node.isLeaf = true) :
    ∃ temp, copyLeafCells false node 0 node.cellSize getLeafNode = .ok temp ∧
      LeafHolds temp (leafEntries node) ∧ (0 < node.cellSize → LeafHolds node (leafEntries node)) ∧
      temp.firstCellPos + (((leafEntries node).map leafImage).map length).sum = pageSize := by
  rcases Nat.eq_zero_or_pos node.cellSize with hzero | hpos
  · refine ⟨getLeafNode, ?_, ?_, fun hpos => absurd hzero hpos.ne', ?_⟩
    · rw [hzero]
      rfl
    · rw [leafEntries, hzero]
      exact getLeafNode_holds
    · rw [leafEntries, hzero]
      rfl
  · have hholds := h.leafHolds hleaf hpos
    obtain ⟨temp, hcopy, htemp, hfirst, -⟩ := copyLeafCells_eq hholds (h.sorted_entries (cellData node)) false
      node.cellSize 0 getLeafNode (by simp [leafEntries]) getLeafNode_holds rfl
    exact ⟨temp, hcopy, htemp, fun _ => hholds, hfirst⟩

theorem Tidy.copyInt (h : Tidy node) (hinner : node.isLeaf = false) :
    ∃ temp, copyIntCells false node 0 node.cellSize getIntNode = .ok temp ∧
      IntHolds temp (intEntries node) ∧ (0 < node.cellSize → IntHolds node (intEntries node)) ∧
      temp.firstCellPos + (((intEntries node).map intImage).map length).sum = pageSize := by
  rcases Nat.eq_zero_or_pos node.cellSize with hzero | hpos
  · refine ⟨getIntNode, ?_, ?_, fun hpos => absurd hzero hpos.ne', ?_⟩
    · rw [hzero]
      rfl
    · rw [intEntries, hzero]
      exact getIntNode_holds
    · rw [intEntries, hzero]
      rfl
  · have hholds := h.intHolds hinner hpos
    obtain ⟨temp, hcopy, htemp, hfirst, -⟩ := copyIntCells_eq hholds (h.sorted_entries (cellChild node)) false
      node.cellSize 0 getIntNode (by simp [intEntries]) getIntNode_holds rfl
    exact ⟨temp, hcopy, htemp, fun _ => hholds, hfirst⟩

end Tidy

theorem cleanUp_packs {earlier : List Node} {s : Statics} (hearlier : Statics.cleanUps {} earlier = .ok s)
    {node : Node} (h : Tidy node) (hright : node.isLeaf = true → node.rightChild = 0)
    (hchild : node.isLeaf = false → ∀ i < node.cellSize, cellChild node i ≠ 0) :
    ∃ s' node', s.cleanUp node = .ok (s', node') ∧ Packed node node' := by
  obtain ⟨hleafnode, hintnode⟩ := Statics.cleanUps_empty hearlier
  cases hkind : node.isLeaf with
  | true =>
    obtain ⟨temp, hcopy, htemp, hnode, hfirst⟩ := h.copyLeaf hkind
    obtain ⟨heq, hheader⟩ := reinsertLeafCells_eq node rfl node.cellSize 0
    have hfields := hheader temp hcopy
    refine ⟨{ s with tempNode := temp }, temp, ?_, fun i hi => ?_, ?_, congrArg Prod.fst hfields |>.trans hkind.symm,
      ?_, congrArg (·.2.1) hfields, ?_⟩
    · rw [Statics.cleanUp, if_pos hkind, hleafnode, heq, hcopy, ok_bind]
      rfl
    · have he : (leafEntries node)[i]? = some (cellKey node i, cellData node i) := by simp [leafEntries, hi]
      exact ⟨_, (hnode (by omega)).readCell he, htemp.readCell he⟩
    · rw [htemp.length, leafEntries, length_map, length_range]
    · rw [hright hkind]
      exact congrArg (·.2.2) hfields
    · exact firstCellPos_eq h.length_leaf hfirst
  | false =>
    obtain ⟨temp, hcopy, htemp, hnode, hfirst⟩ := h.copyInt hkind
    have hnull : ∀ j cell, 0 ≤ j → getKthIntCell node j = .ok cell → cell.childPoint ≠ 0 := by
      intro j cell _ hcell
      have hj : j < node.cellSize := by
        rw [getKthIntCell] at hcell
        split at hcell
        · next hj => exact hj.2
        · cases hcell
      have he : (intEntries node)[j]? = some (cellKey node j, cellChild node j) := by simp [intEntries, hj]
      rw [getKthIntCell_eq (hnode (by omega)) he] at hcell
      exact ok.inj hcell ▸ hchild hkind j hj
    obtain ⟨heq, hheader⟩ := reinsertIntCells_eq rfl node.cellSize 0 hnull
    have hfields := hheader temp hcopy
    have htemp' : IntHolds { temp with rightChild := node.rightChild } (intEntries node) :=
      ⟨htemp.inner, htemp.holds, htemp.fits⟩
    refine ⟨{ s with tempNode := { temp with rightChild := node.rightChild } },
      { temp with rightChild := node.rightChild }, ?_, fun i hi => ?_, ?_,
      congrArg Prod.fst hfields |>.trans hkind.symm, rfl, congrArg (·.2.1) hfields, ?_⟩
    · rw [Statics.cleanUp, if_neg (by simp [hkind]), hintnode, heq, hcopy, ok_bind]
      rfl
    · have he : (intEntries node)[i]? = some (cellKey node i, cellChild node i) := by simp [intEntries, hi]
      exact ⟨_, (hnode (by omega)).readCell he, htemp'.readCell he⟩
    · rw [htemp'.length, intEntries, length_map, length_range]
    · exact firstCellPos_eq (fun i _ => length_int hkind i) hfirst

def sparseLeaf : Node :=
  { isLeaf := true, cellSize := 2, firstCellPos := 1360, fragSize := 70
    content := write (write (write (fun _ => 0) 16 (leBytes 2 1360 ++ leBytes 2 1439)) 1360
      (leafImage (3, [7]))) 1439 (leafImage (5, [8])) }

theorem cleanUp_packs_sparse :
    ∃ s' node', Statics.cleanUp {} sparseLeaf = .ok (s', node') ∧ Packed sparseLeaf node' :=
  have hearlier : Statics.cleanUps {} [] = .ok {} := rfl
  cleanUp_packs hearlier ⟨by decide +kernel, by decide +kernel, by decide +kernel⟩ (fun _ => rfl)
    fun h => by cases h

def nullChild : Node :=
  { isLeaf := false, cellSize := 1, firstCellPos := 1440, content := write (fun _ => 0) 16 (leBytes 2 1440) }

theorem cleanUp_right_child :
    Tidy { isLeaf := true, rightChild := 5 } ∧
      (Statics.cleanUp {} { isLeaf := true, rightChild := 5 }).map (fun x => x.2.rightChild) = .ok 0 ∧
    Tidy nullChild ∧ Statics.cleanUp {} nullChild = .error .undefined := by
  refine ⟨⟨by decide, by decide, by decide⟩, rfl, ⟨by decide +kernel, by decide +kernel, by decide +kernel⟩, ?_⟩
  have hcell : getKthIntCell nullChild 0 = .ok ⟨0, 0⟩ := by decide +kernel
  have hloop : reinsertIntCells nullChild 0 1 getIntNode = .error .undefined := by
    rw [reinsertIntCells, hcell, ok_bind, insertIntCell, if_neg (by simp)]
    rfl
  rw [Statics.cleanUp, if_neg (by decide)]
  exact congrArg (· >>= _) hloop

end SqliteDemo
