/-
**The pages of the B+ tree.**

The functions on one page in terms of the list of its cells (`SlottedPage.Slots`).  A cell that is removed
leaves its bytes in the page, and `frag_size` counts them in one byte: for a leaf modulo 256, and for an
inner node twice, since a cell of 8 bytes is counted with the 16 bytes of an `IntCell`.
-/

import BackendProgramming.SortedEntries
import BackendProgramming.BPlusTree

set_option autoImplicit false

namespace SqliteDemo

open ByteMem SlottedPage SortedEntries Function List Option Except

/-! ### The order of the keys -/

instance instLinearOrderKey : LinearOrder UInt32 where
  le_refl := UInt32.le_refl
  le_trans _ _ _ := UInt32.le_trans
  lt_iff_le_not_ge _ _ := ⟨fun h => ⟨UInt32.le_of_lt h, UInt32.not_le.2 h⟩, fun h => UInt32.not_le.1 h.2⟩
  le_antisymm _ _ := UInt32.le_antisymm
  le_total := UInt32.le_total
  toDecidableLE := inferInstance
  toDecidableEq := inferInstance

/-! ### The bytes of a cell -/

def leafImage (e : Key × List UInt8) : List UInt8 :=
  leBytes 4 e.1.toNat ++ (leBytes 4 e.2.length ++ e.2)

def intImage (e : Key × ℕ) : List UInt8 := leBytes 4 e.1.toNat ++ leBytes 4 e.2

@[simp] theorem length_leafImage (e : Key × List UInt8) : (leafImage e).length = e.2.length + 8 := by
  simp only [leafImage, length_append, length_leBytes]
  omega

@[simp] theorem length_intImage (e : Key × ℕ) : (intImage e).length = 8 := by
  simp [intImage]

theorem toKey_leInt (k : Key) : toKey (leInt (leBytes 4 k.toNat)) = k := by
  rw [leInt_leBytes, toKey, show (256 : ℕ) ^ 4 = 2 ^ 32 by norm_num]
  have hmod : (((k.toNat : ℤ).bmod (2 ^ 32)) % 2 ^ 32).toNat = k.toNat := by
    have hlt := k.toNat_lt
    have h : (k.toNat : ℤ).bmod (2 ^ 32) % 2 ^ 32 = (k.toNat : ℤ) % 2 ^ 32 := Int.bmod_emod
    rw [h]
    omega
  rw [hmod, UInt32.ofNat_toNat]

/-! ### The cells of a page -/

def Holds (node : Node) (images : List (List UInt8)) : Prop :=
  ∃ cells, Slots headerSize pageSize node.content node.firstCellPos cells ∧
    node.cellSize = cells.length ∧ cells.map Cell.image = images

structure LeafHolds (node : Node) (es : List (Key × List UInt8)) : Prop where
  leaf : node.isLeaf = true
  holds : Holds node (es.map leafImage)

structure IntHolds (node : Node) (es : List (Key × ℕ)) : Prop where
  inner : node.isLeaf = false
  holds : Holds node (es.map intImage)
  fits : ∀ e ∈ es, Fits32 e.2

section Holds

variable {node : Node} {images : List (List UInt8)}

theorem Holds.length (h : Holds node images) : node.cellSize = images.length := by
  obtain ⟨cells, -, hlen, rfl⟩ := h
  rw [hlen, length_map]

theorem Holds.array (h : Holds node images) :
    headerSize + 2 * images.length ≤ node.firstCellPos ∧ node.firstCellPos ≤ pageSize := by
  obtain ⟨cells, hslots, -, rfl⟩ := h
  rw [length_map]
  exact ⟨hslots.array, hslots.top⟩

theorem Holds.sum_le (h : Holds node images) :
    node.firstCellPos + (images.map List.length).sum ≤ pageSize := by
  obtain ⟨cells, hslots, -, rfl⟩ := h
  have hsum := hslots.sum_length_le
  rw [List.map_map]
  exact hsum

theorem Holds.empty (leaf : Bool) : Holds { isLeaf := leaf } [] :=
  ⟨[], Slots.empty (by decide) _, rfl, rfl⟩

theorem getLeafNode_holds : LeafHolds getLeafNode [] := ⟨rfl, Holds.empty true⟩

theorem getIntNode_holds : IntHolds getIntNode [] := ⟨rfl, Holds.empty false, by simp⟩

theorem Holds.pointer (h : Holds node images) {i : ℕ} {image : List UInt8}
    (hi : images[i]? = some image) :
    ∃ pos : ℕ, bytes2Int node (headerSize + 2 * i : ℕ) 2 = .ok pos ∧ headerSize ≤ pos ∧
      pos + image.length ≤ pageSize ∧ read node.content pos image.length = image := by
  obtain ⟨cells, hslots, -, rfl⟩ := h
  rw [getElem?_map] at hi
  obtain ⟨c, hc, rfl⟩ := map_eq_some_iff.1 hi
  have hmem := mem_of_getElem? hc
  have hlt := (List.getElem?_eq_some_iff.1 hc).1
  have harray := hslots.array
  have htop := hslots.top
  obtain ⟨hlo, hhi⟩ := hslots.within c hmem
  refine ⟨c.pos, ?_, by omega, hhi, hslots.image c hmem⟩
  rw [bytes2Int, if_pos ⟨by omega, by push_cast; omega⟩, Int.toNat_natCast]
  exact congrArg ok (hslots.slot i c hc)

theorem Holds.place (h : Holds node images) (kth : ℕ) (bs : List UInt8) (hkth : kth ≤ images.length)
    (hroom : headerSize + 2 * images.length + 2 + bs.length ≤ node.firstCellPos) :
    Holds { node with
        content := write (write (openSlot headerSize kth node.cellSize node.content)
          (node.firstCellPos - bs.length) bs) (headerSize + 2 * kth)
          (leBytes 2 (node.firstCellPos - bs.length : ℕ))
        firstCellPos := node.firstCellPos - bs.length
        cellSize := node.cellSize + 1 } (images.insertIdx kth bs) := by
  obtain ⟨cells, hslots, hlen, rfl⟩ := h
  rw [length_map] at hkth hroom
  refine ⟨cells.insertIdx kth ⟨node.firstCellPos - bs.length, bs⟩, ?_, ?_, ?_⟩
  · rw [hlen]
    exact hslots.place hkth hroom (by decide)
  · rw [length_insertIdx_of_le_length hkth, hlen]
  · rw [map_insertIdx]

theorem Holds.remove (h : Holds node images) {kth : ℕ} (hkth : kth < images.length) (frag : UInt8) :
    Holds { node with
        content := closeSlot headerSize kth (node.cellSize - kth) node.content
        cellSize := node.cellSize - 1
        fragSize := frag } (images.eraseIdx kth) := by
  obtain ⟨cells, hslots, hlen, rfl⟩ := h
  rw [length_map] at hkth
  refine ⟨cells.eraseIdx kth, ?_, ?_, (eraseIdx_map ..).symm⟩
  · rw [hlen]
    exact hslots.remove hkth
  · rw [length_eraseIdx_of_lt hkth, hlen]

end Holds

/-! ### Reading cells -/

theorem bytes2Int_eq {node : Node} {pos : ℕ} (hlo : headerSize ≤ pos) (hhi : pos + 4 ≤ pageSize)
    {z : ℤ} (h : read node.content pos 4 = leBytes 4 z) :
    bytes2Int node pos 4 = .ok (leInt (leBytes 4 z)) := by
  rw [bytes2Int, if_pos ⟨by omega, by push_cast; omega⟩, Int.toNat_natCast, h]

variable {es : List (Key × List UInt8)}

theorem LeafHolds.length {node : Node} (h : LeafHolds node es) :
    node.cellSize = es.length := by
  rw [h.holds.length, length_map]

theorem IntHolds.length {node : Node} {es : List (Key × ℕ)} (h : IntHolds node es) :
    node.cellSize = es.length := by
  rw [h.holds.length, length_map]

theorem getKthLeafCell_eq {node : Node} (h : LeafHolds node es)
    {i : ℕ} {e : Key × List UInt8} (hi : es[i]? = some e) :
    ∃ pos : ℕ, getKthLeafCell node i = .ok ⟨e.1, e.2.length, (pos + 8 : ℕ)⟩ ∧
      readData node ⟨e.1, e.2.length, (pos + 8 : ℕ)⟩ = .ok e.2 := by
  have hlt := (List.getElem?_eq_some_iff.1 hi).1
  have himage : (es.map leafImage)[i]? = some (leafImage e) := by rw [getElem?_map, hi]; rfl
  obtain ⟨pos, hptr, hlo, hhi, hread⟩ := h.holds.pointer himage
  obtain ⟨hkey, hrest⟩ := read_parts hread
  obtain ⟨hsize, hdata⟩ := read_parts hrest
  rw [length_leafImage] at hhi
  rw [length_leBytes] at hkey hsize hdata
  rw [length_leBytes] at hsize hdata
  have hpage : pageSize = 1448 := rfl
  have hlen : leInt (leBytes 4 e.2.length) = e.2.length :=
    leInt_leBytes_of_lt (by omega) (by norm_num; omega)
  refine ⟨pos, ?_, ?_⟩
  · rw [getKthLeafCell, if_pos ⟨h.leaf, by rw [h.length]; exact hlt⟩, hptr, ok_bind,
      bytes2Int_eq hlo (by omega) hkey, ok_bind, toKey_leInt]
    have hoff : ((pos : ℤ) + 4) = ((pos + 4 : ℕ) : ℤ) := by push_cast; rfl
    rw [hoff, bytes2Int_eq (by omega) (by omega) hsize, ok_bind, hlen]
    rfl
  · rw [readData, if_pos ⟨by simp, by simp only; omega, by simp only; push_cast; omega⟩]
    simp only [Int.toNat_natCast]
    rw [hdata]

theorem getKthIntCell_eq {node : Node} {es : List (Key × ℕ)} (h : IntHolds node es) {i : ℕ}
    {e : Key × ℕ} (hi : es[i]? = some e) : getKthIntCell node i = .ok ⟨e.1, e.2⟩ := by
  have hlt := (List.getElem?_eq_some_iff.1 hi).1
  have himage : (es.map intImage)[i]? = some (intImage e) := by rw [getElem?_map, hi]; rfl
  obtain ⟨pos, hptr, hlo, hhi, hread⟩ := h.holds.pointer himage
  obtain ⟨hkey, hchild⟩ := read_parts hread
  rw [length_intImage] at hhi
  rw [length_leBytes] at hchild
  have haddr : toPointer (leInt (leBytes 4 e.2)) = e.2 := by
    rw [leInt_leBytes]
    exact h.fits e (mem_of_getElem? hi)
  have hoff : ((pos : ℤ) + 4) = ((pos + 4 : ℕ) : ℤ) := by push_cast; rfl
  rw [getKthIntCell, if_pos ⟨h.inner, by rw [h.length]; exact hlt⟩, hptr, ok_bind,
    bytes2Int_eq hlo (by omega) hkey, ok_bind, toKey_leInt, hoff,
    bytes2Int_eq (by omega) (by omega) hchild, ok_bind, haddr]
  rfl

/-! ### The bytes of no live cell -/

def cellBytes (node : Node) (i : ℕ) : ℕ :=
  if node.isLeaf then
    match getKthLeafCell node i with
    | .ok cell => cell.size.toNat + 8
    | .error _ => 0
  else 8

def deadBytes (node : Node) : ℕ :=
  pageSize - node.firstCellPos - ((range node.cellSize).map (cellBytes node)).sum

def LeafWaste (node : Node) : Prop := node.fragSize.toNat = deadBytes node % 256

def InnerWaste (bound : ℕ) (node : Node) : Prop :=
  node.fragSize.toNat = 2 * deadBytes node ∧ node.fragSize.toNat ≤ bound

theorem Holds.dead_add {node : Node} {images : List (List UInt8)} (h : Holds node images)
    (hbytes : ∀ i image, images[i]? = some image → cellBytes node i = image.length) :
    deadBytes node + node.firstCellPos + (images.map List.length).sum = pageSize := by
  have hcells : (List.range node.cellSize).map (cellBytes node) = images.map List.length := by
    refine ext_getElem (by simp [h.length]) fun i hi hi' => ?_
    rw [length_map] at hi'
    simp [hbytes i _ (getElem?_eq_getElem hi')]
  have hsum := h.sum_le
  rw [deadBytes, hcells]
  omega

theorem LeafHolds.dead_add {node : Node} (h : LeafHolds node es) :
    deadBytes node + node.firstCellPos + ((es.map leafImage).map List.length).sum = pageSize := by
  refine h.holds.dead_add fun i image himage => ?_
  rw [getElem?_map] at himage
  obtain ⟨e, he, rfl⟩ := map_eq_some_iff.1 himage
  obtain ⟨pos, hcell, -⟩ := getKthLeafCell_eq h he
  rw [cellBytes, if_pos h.leaf, hcell, length_leafImage]
  rfl

theorem sum_length_intImage (es : List (Key × ℕ)) :
    ((es.map intImage).map List.length).sum = 8 * es.length := by
  rw [List.map_map]
  simp [comp_def, mul_comm]

theorem IntHolds.dead_add {node : Node} {es : List (Key × ℕ)} (h : IntHolds node es) :
    deadBytes node + node.firstCellPos + 8 * es.length = pageSize := by
  have hdead := h.holds.dead_add fun i image himage => by
    rw [getElem?_map] at himage
    obtain ⟨e, he, rfl⟩ := map_eq_some_iff.1 himage
    rw [cellBytes, if_neg (by simp [h.inner]), length_intImage]
  rwa [sum_length_intImage] at hdead

/-! ### The loops over the cells -/

theorem leafSlot_eq {node : Node} (h : LeafHolds node es) (k : Key)
    (r kth : ℕ) (hr : kth + r = es.length) :
    leafSlot node k kth r = .ok ((newPlace k (es.drop kth)).map (kth + ·)) := by
  induction r generalizing kth with
  | zero => rw [leafSlot, drop_eq_nil_of_le (by omega)]; rfl
  | succ r ih =>
    have hkth : kth < es.length := by omega
    obtain ⟨pos, hcell, -⟩ := getKthLeafCell_eq h (getElem?_eq_getElem hkth)
    rw [leafSlot, hcell, ok_bind, drop_eq_getElem_cons hkth, newPlace]
    simp only
    split
    · rfl
    · split
      · rfl
      · rw [ih (kth + 1) (by omega), Option.map_map]
        congr 2
        funext j
        simp only [comp_apply]
        omega

theorem intSlot_eq {node : Node} {es : List (Key × ℕ)} (h : IntHolds node es) (k : Key)
    (r kth : ℕ) (hr : kth + r = es.length) :
    intSlot node k kth r = .ok (kth + place k (es.drop kth)) := by
  induction r generalizing kth with
  | zero => rw [intSlot, drop_eq_nil_of_le (by omega)]; rfl
  | succ r ih =>
    have hkth : kth < es.length := by omega
    rw [intSlot, getKthIntCell_eq h (getElem?_eq_getElem hkth), ok_bind,
      drop_eq_getElem_cons hkth, place]
    simp only
    split
    · rfl
    · rw [ih (kth + 1) (by omega)]
      congr 1
      omega

theorem getKnumByChild_eq {node : Node} {es : List (Key × ℕ)} (h : IntHolds node es) (child r i : ℕ)
    (hr : i + r = es.length) :
    getKnumByChild node child i r = .ok (((es.drop i).findIdx? (·.2 = child)).map (i + ·)) := by
  induction r generalizing i with
  | zero => rw [getKnumByChild, drop_eq_nil_of_le (by omega)]; rfl
  | succ r ih =>
    have hi : i < es.length := by omega
    rw [getKnumByChild, getKthIntCell_eq h (getElem?_eq_getElem hi), ok_bind,
      drop_eq_getElem_cons hi, findIdx?_cons]
    simp only [decide_eq_true_eq]
    split
    · rfl
    · rw [ih (i + 1) (by omega), Option.map_map]
      congr 2
      funext j
      simp only [comp_apply]
      omega

/-! ### Placing and removing cells -/

theorem copyIn_eq {node : Node} {off : ℕ} {bs : List UInt8} (hlo : headerSize ≤ off)
    (hhi : off + bs.length ≤ pageSize) :
    copyIn node off bs = .ok { node with content := write node.content off bs } :=
  if_pos ⟨by omega, by omega⟩

theorem placeLeafCell_new {node : Node} (h : LeafHolds node es)
    {k : Key} (data : List UInt8) {j : ℕ} (hj : newPlace k es = some j)
    (hroom : headerSize + 2 * node.cellSize + (data.length + 8) + 2 ≤ node.firstCellPos) :
    ∃ node', placeLeafCell node k data = .ok (true, node') ∧ LeafHolds node' (ins k data es) ∧
      node'.firstCellPos = node.firstCellPos - (data.length + 8) ∧ node'.fragSize = node.fragSize := by
  obtain ⟨hle, hins⟩ := insertIdx_newPlace hj (x := data)
  have htop := h.holds.array.2
  have hsize := h.length
  have hlen : (leafImage (k, data)).length = data.length + 8 := length_leafImage _
  have hslot : leafSlot node k 0 node.cellSize = .ok (some j) := by
    rw [h.length, leafSlot_eq h k _ 0 (Nat.zero_add _), drop_zero, hj]
    simp
  have hplace := h.holds.place j (leafImage (k, data)) (by rw [length_map]; exact hle)
    (by rw [length_map, hlen]; omega)
  have hmem : ∀ m : Mem, ∀ first : ℕ, write m first (leafImage (k, data)) =
      write (write (write m first (leBytes 4 k.toNat)) (first + 4) (leBytes 4 data.length))
        (first + 8) data := by
    intro m first
    rw [leafImage, write_append, write_append, length_leBytes, length_leBytes, Nat.add_assoc]
  rw [hmem, hlen, ← map_insertIdx, hins] at hplace
  refine ⟨_, ?_, ⟨?leaf, hplace⟩, rfl, rfl⟩
  case leaf => exact h.leaf
  simp only [placeLeafCell, hslot, ok_bind, int2Bytes]
  rw [copyIn_eq (by omega) (by rw [length_leBytes]; omega), ok_bind,
    copyIn_eq (by omega) (by rw [length_leBytes]; omega), ok_bind,
    copyIn_eq (by omega) (by omega), ok_bind,
    copyIn_eq (by omega) (by rw [length_leBytes]; omega), ok_bind]
  rfl

theorem placeLeafCell_old {node : Node} (h : LeafHolds node es)
    {k : Key} (data : List UInt8) (hk : newPlace k es = none) :
    placeLeafCell node k data = .ok (false, node) := by
  have hslot : leafSlot node k 0 node.cellSize = .ok none := by
    rw [h.length, leafSlot_eq h k _ 0 (Nat.zero_add _), drop_zero, hk]
    rfl
  rw [placeLeafCell, hslot, ok_bind]
  rfl

theorem placeIntCell_eq {node : Node} {es : List (Key × ℕ)} (h : IntHolds node es) {child : ℕ}
    (hchild : Fits32 child) (k : Key)
    (hroom : headerSize + 2 * node.cellSize + 8 + 2 ≤ node.firstCellPos) :
    ∃ node', placeIntCell node k child = .ok node' ∧ IntHolds node' (ins k child es) ∧
      node'.firstCellPos = node.firstCellPos - 8 ∧ node'.rightChild = node.rightChild ∧
      node'.fragSize = node.fragSize := by
  obtain ⟨hle, hins⟩ := insertIdx_place k child es
  have htop := h.holds.array.2
  have hsize := h.length
  have hlen : (intImage (k, child)).length = 8 := length_intImage _
  have hslot : intSlot node k 0 node.cellSize = .ok (place k es) := by
    rw [h.length, intSlot_eq h k _ 0 (Nat.zero_add _), drop_zero, Nat.zero_add]
  have hplace := h.holds.place (place k es) (intImage (k, child)) (by rw [length_map]; exact hle)
    (by rw [length_map, hlen]; omega)
  have hmem : ∀ m : Mem, ∀ first : ℕ, write m first (intImage (k, child)) =
      write (write m first (leBytes 4 k.toNat)) (first + 4) (leBytes 4 child) := by
    intro m first
    rw [intImage, write_append, length_leBytes]
  rw [hmem, hlen, ← map_insertIdx, hins] at hplace
  have hfits : ∀ e ∈ ins k child es, Fits32 e.2 := by
    intro e he
    rcases mem_ins.1 he with rfl | he
    · exact hchild
    · exact h.fits e he
  refine ⟨_, ?_, ⟨?inner, hplace, hfits⟩, rfl, rfl, rfl⟩
  case inner => exact h.inner
  simp only [placeIntCell, hslot, ok_bind, int2Bytes]
  rw [copyIn_eq (by omega) (by rw [length_leBytes]; omega), ok_bind,
    copyIn_eq (by omega) (by rw [length_leBytes]; omega), ok_bind,
    copyIn_eq (by omega) (by rw [length_leBytes]; omega), ok_bind]
  rfl

variable {node' : Node}

theorem removeKthLeafCell_spec {node : Node}
    (h : LeafHolds node es) {kth : ℕ} (hkth : kth < es.length)
    (hrun : removeKthLeafCell node kth = .ok node') :
    LeafHolds node' (es.eraseIdx kth) ∧ (LeafWaste node → LeafWaste node') := by
  obtain ⟨pos, hcell, -⟩ := getKthLeafCell_eq h (getElem?_eq_getElem hkth)
  rw [removeKthLeafCell] at hrun
  split at hrun
  · cases hrun
  · rw [hcell, ok_bind] at hrun
    have hnode' := ok.inj hrun
    have hleaf : LeafHolds node' (es.eraseIdx kth) := by
      rw [← hnode']
      refine ⟨h.leaf, ?_⟩
      rw [← eraseIdx_map]
      exact h.holds.remove (by rw [length_map]; exact hkth) _
    have hfirst : node'.firstCellPos = node.firstCellPos := by rw [← hnode']
    have hfrag : node'.fragSize =
        node.fragSize + UInt8.ofNat ((8 + (es[kth].2.length : ℤ)) % 256).toNat := by rw [← hnode']
    refine ⟨hleaf, fun hwaste => ?_⟩
    -- what the cell loses in live bytes is what `frag_size` gets, modulo 256
    have hdead := h.dead_add
    have hdead' := hleaf.dead_add
    have hsum : ((es.map leafImage).map List.length).sum = es[kth].2.length + 8 +
        (((es.eraseIdx kth).map leafImage).map List.length).sum := by
      rw [← ((getElem_cons_eraseIdx_perm hkth).map leafImage |>.map length).sum_eq]
      simp
    rw [LeafWaste] at hwaste ⊢
    rw [hfrag, UInt8.toNat_add, UInt8.toNat_ofNat', hwaste]
    omega

theorem removeKthIntCell_spec {node : Node} {es : List (Key × ℕ)} (h : IntHolds node es)
    {kth : ℕ} (hkth : kth < es.length) (hrun : removeKthIntCell node kth = .ok node') :
    IntHolds node' (es.eraseIdx kth) ∧ node'.rightChild = node.rightChild ∧
      ∀ bound, bound + 16 < 256 → InnerWaste bound node → InnerWaste (bound + 16) node' := by
  rw [removeKthIntCell] at hrun
  split at hrun
  · cases hrun
  · split at hrun
    · have hnode' := ok.inj hrun
      have hinner : IntHolds node' (es.eraseIdx kth) := by
        rw [← hnode']
        refine ⟨h.inner, ?_, fun e he => h.fits e ((eraseIdx_sublist es kth).subset he)⟩
        rw [← eraseIdx_map]
        exact h.holds.remove (by rw [length_map]; exact hkth) _
      have hfirst : node'.firstCellPos = node.firstCellPos := by rw [← hnode']
      have hfrag' : node'.fragSize = node.fragSize + 16 := by rw [← hnode']
      refine ⟨hinner, by rw [← hnode'], ?_⟩
      rintro bound hbound ⟨hfrag, hle⟩
      have hdead := h.dead_add
      have hdead' := hinner.dead_add
      have hlen := length_eraseIdx_of_lt hkth
      have hadd : (node.fragSize + 16).toNat = node.fragSize.toNat + 16 := by
        rw [UInt8.toNat_add, show (16 : UInt8).toNat = 16 from rfl]
        omega
      rw [InnerWaste, hfrag', hadd]
      omega
    · cases hrun

/-! ### Making room -/

theorem spaceTest_eq_ok {strict : Bool} {size : ℕ} {node : Node} (htop : node.firstCellPos ≤ pageSize) :
    spaceTest strict node size = .ok () ↔
      headerSize + 2 * node.cellSize + size + 2 * strict.toNat ≤ node.firstCellPos := by
  have hpage : pageSize = 1448 := rfl
  rw [spaceTest]
  split
  · exact ⟨fun h => (by cases h), fun h => (by omega)⟩
  · split
    · exact ⟨fun h => (by cases h), fun h => (by omega)⟩
    · exact ⟨fun _ => (by omega), fun _ => rfl⟩

theorem Holds.room_take {node : Node} {images : List (List UInt8)} (h : Holds node images) {i first : ℕ}
    (hi : i < images.length) (hfirst : first + ((images.take i).map List.length).sum = pageSize) :
    headerSize + 2 * i + images[i].length + 2 ≤ first ∧
      first - images[i].length + ((images.take (i + 1)).map List.length).sum = pageSize := by
  have hall := h.sum_le
  have harray := h.array.1
  have hsum : ((images.take (i + 1)).map List.length).sum ≤ (images.map List.length).sum :=
    ((take_sublist (i + 1) images).map List.length).sum_le_sum fun _ _ => Nat.zero_le _
  have htake : ((images.take (i + 1)).map List.length).sum =
      ((images.take i).map List.length).sum + images[i].length := by
    rw [← take_append_getElem hi, map_append, sum_append]
    rfl
  omega

theorem copyLeafCells_eq {node : Node} (h : LeafHolds node es)
    (hes : Sorted es) (strict : Bool) (r i : ℕ) (temp : Node) (hr : i + r = es.length)
    (htemp : LeafHolds temp (es.take i))
    (hfirst : temp.firstCellPos + (((es.map leafImage).take i).map List.length).sum = pageSize) :
    ∃ temp', copyLeafCells strict node i r temp = .ok temp' ∧ LeafHolds temp' es ∧
      temp'.firstCellPos + ((es.map leafImage).map List.length).sum = pageSize ∧
      temp'.fragSize = temp.fragSize := by
  induction r generalizing i temp with
  | zero =>
    obtain rfl : i = es.length := hr
    rw [take_length] at htemp
    rw [take_of_length_le (by simp)] at hfirst
    exact ⟨temp, rfl, htemp, hfirst, rfl⟩
  | succ r ih =>
    have hi : i < es.length := by omega
    obtain ⟨hroom, hnext⟩ := h.holds.room_take (by simpa using hi) hfirst
    rw [getElem_map, length_leafImage] at hroom hnext
    have hsize : temp.cellSize = i := by
      rw [htemp.length, length_take]
      omega
    obtain ⟨pos, hcell, hdata⟩ := getKthLeafCell_eq h (getElem?_eq_getElem hi)
    have hlt := hes.lt_of_take (getElem?_eq_getElem hi)
    obtain ⟨j, hj⟩ : ∃ j, newPlace es[i].1 (es.take i) = some j := by
      refine ne_none_iff_exists'.1 fun hnone => ?_
      obtain ⟨e, he, hkey⟩ := List.mem_map.1
        ((newPlace_eq_none (hes.sublist (take_sublist i es))).1 hnone)
      exact absurd hkey (ne_of_lt (hlt e he))
    obtain ⟨temp', hplace, hholds, hpos, hfrag⟩ := placeLeafCell_new htemp es[i].2 hj (by omega)
    rw [ins_of_le fun e he => le_of_lt (hlt e he), take_append_getElem hi] at hholds
    obtain ⟨out, hout, hrest⟩ := ih (i + 1) temp' (by omega) hholds (by rw [hpos]; exact hnext)
    rw [hfrag] at hrest
    have htest : spaceTest strict temp (es[i].2.length + 8) = .ok () :=
      (spaceTest_eq_ok htemp.holds.array.2).2 (by have := strict.toNat_le; omega)
    refine ⟨out, ?_, hrest⟩
    rw [copyLeafCells, hcell, ok_bind, hdata, ok_bind, htest, ok_bind, hplace, ok_bind]
    exact hout

theorem copyIntCells_eq {node : Node} {es : List (Key × ℕ)} (h : IntHolds node es) (hes : Sorted es)
    (strict : Bool) (r i : ℕ) (temp : Node) (hr : i + r = es.length)
    (htemp : IntHolds temp (es.take i))
    (hfirst : temp.firstCellPos + (((es.map intImage).take i).map List.length).sum = pageSize) :
    ∃ temp', copyIntCells strict node i r temp = .ok temp' ∧ IntHolds temp' es ∧
      temp'.firstCellPos + ((es.map intImage).map List.length).sum = pageSize ∧
      temp'.fragSize = temp.fragSize := by
  induction r generalizing i temp with
  | zero =>
    obtain rfl : i = es.length := hr
    rw [take_length] at htemp
    rw [take_of_length_le (by simp)] at hfirst
    exact ⟨temp, rfl, htemp, hfirst, rfl⟩
  | succ r ih =>
    have hi : i < es.length := by omega
    obtain ⟨hroom, hnext⟩ := h.holds.room_take (by simpa using hi) hfirst
    rw [getElem_map, length_intImage] at hroom hnext
    have hsize : temp.cellSize = i := by
      rw [htemp.length, length_take]
      omega
    have hlt := hes.lt_of_take (getElem?_eq_getElem hi)
    obtain ⟨temp', hplace, hholds, hpos, -, hfrag⟩ := placeIntCell_eq htemp
      (h.fits es[i] (getElem_mem hi)) es[i].1 (by omega)
    rw [ins_of_le fun e he => le_of_lt (hlt e he), take_append_getElem hi] at hholds
    obtain ⟨out, hout, hrest⟩ := ih (i + 1) temp' (by omega) hholds (by rw [hpos]; exact hnext)
    rw [hfrag] at hrest
    have htest : spaceTest strict temp 8 = .ok () :=
      (spaceTest_eq_ok htemp.holds.array.2).2 (by have := strict.toNat_le; omega)
    refine ⟨out, ?_, hrest⟩
    rw [copyIntCells, getKthIntCell_eq h (getElem?_eq_getElem hi), ok_bind, htest, ok_bind,
      hplace, ok_bind]
    exact hout

def room (node : Node) : ℕ :=
  if 64 < node.fragSize then pageSize - headerSize -
    ((range node.cellSize).map fun i =>
      match getKthLeafCell node i with
      | .ok cell => cell.size.toNat + 10
      | .error _ => 0).sum
  else node.firstCellPos - headerSize - 2 * node.cellSize

theorem room_eq {node : Node} (h : LeafHolds node es) :
    room node = (if 64 < node.fragSize then pageSize - ((es.map leafImage).map length).sum
      else node.firstCellPos) - headerSize - 2 * node.cellSize := by
  rw [room]
  split
  · have hcells : ((range node.cellSize).map fun i =>
        match getKthLeafCell node i with
        | .ok cell => cell.size.toNat + 10
        | .error _ => 0) = es.map fun e => (leafImage e).length + 2 := by
      refine ext_getElem (by simp [h.length]) fun i hi hi' => ?_
      rw [length_map] at hi'
      obtain ⟨pos, hcell, -⟩ := getKthLeafCell_eq h (getElem?_eq_getElem hi')
      simp [hcell]
    have hsum : (es.map fun e => (leafImage e).length + 2).sum =
        ((es.map leafImage).map length).sum + 2 * es.length := by
      rw [sum_map_add, List.map_map]
      simp only [map_const', sum_replicate, smul_eq_mul, comp_def]
      omega
    rw [hcells, hsum, h.length]
    omega
  · rfl

theorem collect_leaf {node : Node} (h : LeafHolds node es)
    (hes : Sorted es) (strict : Bool) :
    ∃ node', collect strict node = .ok node' ∧ LeafHolds node' es ∧
      node'.firstCellPos - headerSize - 2 * node'.cellSize = room node ∧
      node'.fragSize.toNat ≤ 64 ∧ (LeafWaste node → LeafWaste node') := by
  rw [collect, room_eq h]
  split
  · obtain ⟨temp, hcopy, hholds, hfirst, hfrag⟩ := copyLeafCells_eq h hes strict es.length 0 getLeafNode
      (Nat.zero_add _) getLeafNode_holds rfl
    have hzero : temp.fragSize.toNat = 0 := congrArg UInt8.toNat hfrag
    refine ⟨temp, ?_, hholds, ?_, by omega, fun _ => ?_⟩
    · rw [spaceCleanUp, if_pos h.leaf, h.length, hcopy]
    · rw [hholds.length, h.length]
      omega
    · have hdead := hholds.dead_add
      rw [LeafWaste]
      omega
  · next hle => exact ⟨node, rfl, h, rfl, UInt8.le_iff_toNat_le.1 (UInt8.not_lt.1 hle), id⟩

theorem collect_inner {node : Node} {es : List (Key × ℕ)} (h : IntHolds node es) (hes : Sorted es)
    (strict : Bool) :
    ∃ node', collect strict node = .ok node' ∧ IntHolds node' es ∧
      node'.rightChild = node.rightChild ∧ ∀ bound, InnerWaste bound node → InnerWaste 64 node' := by
  rw [collect]
  split
  · obtain ⟨temp, hcopy, hholds, hfirst, hfrag⟩ := copyIntCells_eq h hes strict es.length 0 getIntNode
      (Nat.zero_add _) getIntNode_holds rfl
    have hcells : IntHolds { temp with rightChild := node.rightChild } es :=
      ⟨hholds.inner, hholds.holds, hholds.fits⟩
    refine ⟨{ temp with rightChild := node.rightChild }, ?_, hcells, rfl, fun _ _ => ?_⟩
    · rw [spaceCleanUp, if_neg (by simp [h.inner]), h.length, hcopy]
      rfl
    · have hzero : temp.fragSize.toNat = 0 := congrArg UInt8.toNat hfrag
      have hdead := hcells.dead_add
      rw [sum_length_intImage] at hfirst
      rw [InnerWaste]
      dsimp only at hdead ⊢
      omega
  · next hle =>
    refine ⟨node, rfl, h, rfl, fun _ hwaste => ⟨hwaste.1, ?_⟩⟩
    exact UInt8.le_iff_toNat_le.1 (UInt8.not_lt.1 hle)

theorem spaceCheck_eq_ok {strict : Bool} {size : ℕ} {node clean : Node}
    (hcollect : collect strict node = .ok clean) (htop : clean.firstCellPos ≤ pageSize) :
    spaceCheck strict node size = .ok node' ↔
      headerSize + 2 * clean.cellSize + size + 2 * strict.toNat ≤ clean.firstCellPos ∧ node' = clean := by
  rw [spaceCheck, hcollect, ok_bind, ← spaceTest_eq_ok htop]
  constructor
  · intro h
    obtain ⟨u, htest, hsame⟩ := bind_eq_ok.1 h
    exact ⟨htest, (ok.inj hsame).symm⟩
  · rintro ⟨htest, rfl⟩
    rw [htest]
    rfl

/-! ### Inserting a cell -/

theorem insertLeafCell_new {node : Node} (h : LeafHolds node es)
    (hes : Sorted es) {k : Key} (hk : k ∉ es.map Prod.fst) {data : List UInt8} {r : Bool × Node}
    (hrun : insertLeafCell true node k data = .ok r) :
    r.1 = true ∧ LeafHolds r.2 (ins k data es) ∧ (LeafWaste node → LeafWaste r.2) := by
  obtain ⟨clean, hcollect, hclean, -, -, hwaste⟩ := collect_leaf h hes true
  rw [insertLeafCell, if_pos h.leaf] at hrun
  obtain ⟨node₁, hspace, hplace⟩ := bind_eq_ok.1 hrun
  obtain ⟨hroom, rfl⟩ := (spaceCheck_eq_ok hcollect hclean.holds.array.2).1 hspace
  obtain ⟨j, hj⟩ := ne_none_iff_exists'.1 (mt (newPlace_eq_none hes).1 hk)
  obtain ⟨node', hplace', hholds, hfirst, hfrag⟩ := placeLeafCell_new hclean data hj hroom
  rw [hplace'] at hplace
  cases hplace
  refine ⟨rfl, hholds, fun hnode => ?_⟩
  -- the bytes of the cell are taken from the free ones
  have hdead := hclean.dead_add
  have hdead' := hholds.dead_add
  have hsum : (((ins k data es).map leafImage).map List.length).sum =
      data.length + 8 + ((es.map leafImage).map List.length).sum := by
    rw [(((ins_perm k data es).map leafImage).map length).sum_eq]
    simp
  have hsame := hwaste hnode
  rw [LeafWaste] at hsame ⊢
  dsimp only
  rw [hfrag, hsame]
  congr 1
  omega

theorem insertLeafCell_old {node : Node} (h : LeafHolds node es)
    (hes : Sorted es) {k : Key} (hk : k ∈ es.map Prod.fst) (data : List UInt8) :
    ∃ node', LeafHolds node' es ∧ (LeafWaste node → LeafWaste node') ∧
      ∀ r, insertLeafCell false node k data = .ok r ↔
        data.length + 8 ≤ room node ∧ r = (false, node') := by
  obtain ⟨clean, hcollect, hclean, hroom, -, hwaste⟩ := collect_leaf h hes false
  have hplace := placeLeafCell_old hclean data ((newPlace_eq_none hes).2 hk)
  have harray := hclean.holds.array
  refine ⟨clean, hclean, hwaste, fun r => ?_⟩
  rw [insertLeafCell, if_pos h.leaf, bind_eq_ok, ← hroom]
  constructor
  · rintro ⟨node₁, hspace, hr⟩
    obtain ⟨hfits, rfl⟩ := (spaceCheck_eq_ok hcollect harray.2).1 hspace
    rw [hplace] at hr
    exact ⟨by omega, (ok.inj hr).symm⟩
  · rintro ⟨hfits, rfl⟩
    exact ⟨clean, (spaceCheck_eq_ok hcollect harray.2).2 ⟨by rw [Bool.toNat_false]; omega, rfl⟩, hplace⟩

theorem insertIntCell_spec {node : Node} {es : List (Key × ℕ)} (h : IntHolds node es)
    (hes : Sorted es) {k : Key} {child : ℕ} (hrun : insertIntCell true node k child = .ok node') :
    IntHolds node' (ins k child es) ∧ node'.rightChild = node.rightChild ∧
      ∀ bound, InnerWaste bound node → InnerWaste 64 node' := by
  obtain ⟨clean, hcollect, hclean, hright, hwaste⟩ := collect_inner h hes true
  rw [insertIntCell] at hrun
  split at hrun
  · next hguard =>
    obtain ⟨node₁, hspace, hplace⟩ := bind_eq_ok.1 hrun
    obtain ⟨hroom, rfl⟩ := (spaceCheck_eq_ok hcollect hclean.holds.array.2).1 hspace
    obtain ⟨out, hplace', hholds, hfirst, hsame, hfrag⟩ :=
      placeIntCell_eq hclean (hguard.2.2 rfl) k hroom
    rw [hplace'] at hplace
    cases hplace
    refine ⟨hholds, hsame.trans hright, fun bound hnode => ?_⟩
    have hdead := hclean.dead_add
    have hdead' := hholds.dead_add
    rw [(ins_perm k child es).length_eq, length_cons] at hdead'
    have hclean' := hwaste bound hnode
    rw [InnerWaste] at hclean' ⊢
    rw [hfrag]
    omega
  · cases hrun

end SqliteDemo
