/-
**The B+ tree of the SQLite demo (`BPlusTree.c`).**

A node is a page of `PAGE_SIZE` bytes: a header, an array of cell pointers and, from the end of the page
downwards, the cells.  The fields of the header are fields of `Node`; the rest of the page is a memory.  An
access outside it, a failing `assert` and an overflow of an `int` are the outcome `undefined`, and `exit(0)`
behind the message "size error" is `sizeError`.  `alloc n` is the address of the `n`-th node.

Every function that places a cell takes a flag `strict`.  The code is the case `false`; in the case `true`
a call fails as soon as a cell does not find two bytes more than its size, or the address of a child does
not fit in the 32 bits of a cell.
-/

import BackendProgramming.SlottedPage

set_option autoImplicit false

namespace SqliteDemo

open ByteMem SlottedPage Function

/-! ### Nodes -/

def headerSize : ℕ := 16

def pageSize : ℕ := 1448

def theOrder : ℕ := 10

abbrev Key := UInt32

structure Node where
  isLeaf : Bool
  cellSize : ℕ := 0
  firstCellPos : ℕ := pageSize
  fragSize : UInt8 := 0
  rightChild : ℕ := 0
  content : Mem := fun _ => 0

inductive Failure where
  | sizeError
  | undefined
  deriving DecidableEq, Repr

abbrev Result (α : Type) := Except Failure α

def getLeafNode : Node := { isLeaf := true }

def getIntNode : Node := { isLeaf := false }

def InPage (off : ℤ) (len : ℕ) : Prop := headerSize ≤ off ∧ off + len ≤ pageSize

instance (off : ℤ) (len : ℕ) : Decidable (InPage off len) := inferInstanceAs (Decidable (_ ∧ _))

def bytes2Int (node : Node) (offset : ℤ) (size : ℕ) : Result ℤ :=
  if InPage offset size then .ok (leInt (read node.content offset.toNat size)) else .error .undefined

def copyIn (node : Node) (offset : ℕ) (bs : List UInt8) : Result Node :=
  if InPage offset bs.length then .ok { node with content := write node.content offset bs }
  else .error .undefined

def int2Bytes (node : Node) (offset size : ℕ) (number : ℤ) : Result Node :=
  copyIn node offset (leBytes size number)

/-! ### Cells -/

structure LeafCell where
  key : Key
  size : ℤ
  dataPoint : ℤ
  deriving DecidableEq, Repr

structure IntCell where
  key : Key
  childPoint : ℕ
  deriving DecidableEq, Repr

def toKey (z : ℤ) : Key := UInt32.ofNat (z % 2 ^ 32).toNat

def toPointer (z : ℤ) : ℕ := (z % 2 ^ 64).toNat

def Fits32 (a : ℕ) : Prop := toPointer ((a : ℤ).bmod (2 ^ 32)) = a

instance (a : ℕ) : Decidable (Fits32 a) := inferInstanceAs (Decidable (_ = _))

def getKthLeafCell (node : Node) (kth : ℕ) : Result LeafCell :=
  if node.isLeaf = true ∧ kth < node.cellSize then do
    let cellOffset ← bytes2Int node (headerSize + 2 * kth : ℕ) 2
    let key ← bytes2Int node cellOffset 4
    let size ← bytes2Int node (cellOffset + 4) 4
    return ⟨toKey key, size, cellOffset + 8⟩
  else .error .undefined

def getKthIntCell (node : Node) (kth : ℕ) : Result IntCell :=
  if node.isLeaf = false ∧ kth < node.cellSize then do
    let cellOffset ← bytes2Int node (headerSize + 2 * kth : ℕ) 2
    let key ← bytes2Int node cellOffset 4
    let child ← bytes2Int node (cellOffset + 4) 4
    return ⟨toKey key, toPointer child⟩
  else .error .undefined

def readData (node : Node) (cell : LeafCell) : Result (List UInt8) :=
  if 0 ≤ cell.size ∧ InPage cell.dataPoint cell.size.toNat then
    .ok (read node.content cell.dataPoint.toNat cell.size.toNat)
  else .error .undefined

def removeKthLeafCell (node : Node) (kth : ℕ) : Result Node :=
  if pageSize < headerSize + 2 * (node.cellSize + 1) then .error .undefined
  else do
    let cell ← getKthLeafCell node kth
    return { node with
      content := closeSlot headerSize kth (node.cellSize - kth) node.content
      cellSize := node.cellSize - 1
      fragSize := node.fragSize + UInt8.ofNat ((8 + cell.size) % 256).toNat }

def removeKthIntCell (node : Node) (kth : ℕ) : Result Node :=
  if pageSize < headerSize + 2 * (node.cellSize + 1) then .error .undefined
  else if node.isLeaf = false ∧ kth < node.cellSize then
    .ok { node with
      content := closeSlot headerSize kth (node.cellSize - kth) node.content
      cellSize := node.cellSize - 1
      fragSize := node.fragSize + 16 }
  else .error .undefined

/-! ### Making room, and placing a cell -/

def spaceTest (strict : Bool) (node : Node) (size : ℕ) : Result Unit :=
  if 2 ^ 31 ≤ size then .error .undefined
  else if node.firstCellPos < headerSize + 2 * node.cellSize + size + 2 * strict.toNat then
    .error .sizeError
  else .ok ()

def leafSlot (node : Node) (k : Key) : ℕ → ℕ → Result (Option ℕ)
  | kth, 0 => .ok (some kth)
  | kth, r + 1 => do
    let cell ← getKthLeafCell node kth
    if cell.key = k then .ok none
    else if k < cell.key then .ok (some kth)
    else leafSlot node k (kth + 1) r

def intSlot (node : Node) (k : Key) : ℕ → ℕ → Result ℕ
  | kth, 0 => .ok kth
  | kth, r + 1 => do
    let cell ← getKthIntCell node kth
    if k < cell.key then .ok kth else intSlot node k (kth + 1) r

def placeLeafCell (node : Node) (k : Key) (data : List UInt8) : Result (Bool × Node) := do
  match ← leafSlot node k 0 node.cellSize with
  | none => return (false, node)
  | some kth =>
    let first := node.firstCellPos - (data.length + 8)
    let opened := { node with
      content := openSlot headerSize kth node.cellSize node.content, firstCellPos := first }
    let node ← int2Bytes opened first 4 k.toNat
    let node ← int2Bytes node (first + 4) 4 data.length
    let node ← copyIn node (first + 8) data
    let node ← int2Bytes node (headerSize + 2 * kth) 2 first
    return (true, { node with cellSize := node.cellSize + 1 })

def placeIntCell (node : Node) (k : Key) (child : ℕ) : Result Node := do
  let kth ← intSlot node k 0 node.cellSize
  let first := node.firstCellPos - 8
  let opened := { node with
    content := openSlot headerSize kth node.cellSize node.content, firstCellPos := first }
  let node ← int2Bytes opened first 4 k.toNat
  let node ← int2Bytes node (first + 4) 4 child
  let node ← int2Bytes node (headerSize + 2 * kth) 2 first
  return { node with cellSize := node.cellSize + 1 }

def copyLeafCells (strict : Bool) (node : Node) : ℕ → ℕ → Node → Result Node
  | _, 0, temp => .ok temp
  | i, r + 1, temp => do
    let cell ← getKthLeafCell node i
    let data ← readData node cell
    spaceTest strict temp (data.length + 8)
    let (_, temp) ← placeLeafCell temp cell.key data
    copyLeafCells strict node (i + 1) r temp

def copyIntCells (strict : Bool) (node : Node) : ℕ → ℕ → Node → Result Node
  | _, 0, temp => .ok temp
  | i, r + 1, temp => do
    let cell ← getKthIntCell node i
    spaceTest strict temp 8
    let temp ← placeIntCell temp cell.key cell.childPoint
    copyIntCells strict node (i + 1) r temp

def spaceCleanUp (strict : Bool) (node : Node) : Result Node :=
  if node.isLeaf then copyLeafCells strict node 0 node.cellSize getLeafNode
  else do
    let temp ← copyIntCells strict node 0 node.cellSize getIntNode
    return { temp with rightChild := node.rightChild }

def collect (strict : Bool) (node : Node) : Result Node :=
  if 64 < node.fragSize then spaceCleanUp strict node else .ok node

def spaceCheck (strict : Bool) (node : Node) (size : ℕ) : Result Node := do
  let node ← collect strict node
  spaceTest strict node size
  return node

def insertLeafCell (strict : Bool) (node : Node) (k : Key) (data : List UInt8) : Result (Bool × Node) :=
  if node.isLeaf = true then do
    let node ← spaceCheck strict node (data.length + 8)
    placeLeafCell node k data
  else .error .undefined

def insertIntCell (strict : Bool) (node : Node) (k : Key) (child : ℕ) : Result Node :=
  if node.isLeaf = false ∧ child ≠ 0 ∧ (strict = true → Fits32 child) then do
    let node ← spaceCheck strict node 8
    placeIntCell node k child
  else .error .undefined

/-! ### The store of nodes -/

structure Store where
  nodes : ℕ → Option Node
  count : ℕ

def Store.get (st : Store) (a : ℕ) : Result Node :=
  match st.nodes a with
  | some node => .ok node
  | none => .error .undefined

def Store.set (st : Store) (a : ℕ) (node : Node) : Store :=
  { st with nodes := update st.nodes a (some node) }

def Store.next (alloc : ℕ → ℕ) (st : Store) : ℕ := alloc st.count

def Store.add (alloc : ℕ → ℕ) (st : Store) (node : Node) : Store :=
  ⟨update st.nodes (st.next alloc) (some node), st.count + 1⟩

section Store

variable {alloc : ℕ → ℕ} {st : Store} {a x : ℕ} {node : Node}

theorem Store.get_eq (h : st.nodes a = some node) : st.get a = .ok node := by
  rw [Store.get, h]

@[simp] theorem Store.nodes_set_self : (st.set a node).nodes a = some node :=
  update_self ..

theorem Store.nodes_set_of_ne (h : x ≠ a) : (st.set a node).nodes x = st.nodes x :=
  update_of_ne h _ _

theorem Store.set_eq_self (h : st.nodes a = some node) : st.set a node = st := by
  rw [Store.set, ← h, update_eq_self]

@[simp] theorem Store.nodes_add_next : (st.add alloc node).nodes (st.next alloc) = some node :=
  update_self ..

theorem Store.nodes_add_of_ne (h : x ≠ st.next alloc) : (st.add alloc node).nodes x = st.nodes x :=
  update_of_ne h _ _

end Store

/-! ### Splitting a node -/

def getKnumByChild (node : Node) (child : ℕ) : ℕ → ℕ → Result (Option ℕ)
  | _, 0 => .ok none
  | i, r + 1 => do
    let cell ← getKthIntCell node i
    if cell.childPoint = child then .ok (some i) else getKnumByChild node child (i + 1) r

def linkPage (strict : Bool) (father : Node) (node newNode : ℕ) (key : Key) : Result Node := do
  match ← getKnumByChild father node 0 father.cellSize with
  | none =>
    if node = father.rightChild then do
      let father ← insertIntCell strict father key node
      return { father with rightChild := newNode }
    else .error .undefined
  | some kth =>
    let cell ← getKthIntCell father kth
    let father ← removeKthIntCell father kth
    let father ← insertIntCell strict father cell.key newNode
    insertIntCell strict father key node

def link (strict : Bool) (alloc : ℕ → ℕ) (st : Store) (father node newNode : ℕ) (key : Key) :
    Result (Store × ℕ) :=
  if father ≠ 0 then do
    let page ← st.get father
    let page ← linkPage strict page node newNode key
    return (st.set father page, father)
  else do
    let page ← insertIntCell strict { getIntNode with rightChild := newNode } key node
    return (st.add alloc page, st.next alloc)

def moveLeafCells (strict : Bool) : ℕ → Node → Node → Result (Node × Node)
  | 0, node, newNode => .ok (node, newNode)
  | fuel + 1, node, newNode =>
    if theOrder / 2 < node.cellSize then do
      let cell ← getKthLeafCell node (theOrder / 2)
      let data ← readData node cell
      let (_, newNode) ← insertLeafCell strict newNode cell.key data
      let node ← removeKthLeafCell node (theOrder / 2)
      moveLeafCells strict fuel node newNode
    else .ok (node, newNode)

def moveIntCells (strict : Bool) : ℕ → Node → Node → Result (Node × Node)
  | 0, node, newNode => .ok (node, newNode)
  | fuel + 1, node, newNode =>
    if theOrder / 2 + 1 < node.cellSize then do
      let cell ← getKthIntCell node (theOrder / 2 + 1)
      let newNode ← insertIntCell strict newNode cell.key cell.childPoint
      let node ← removeKthIntCell node (theOrder / 2 + 1)
      moveIntCells strict fuel node newNode
    else .ok (node, newNode)

def splitLeafPage (strict : Bool) (node : Node) : Result (Node × Node × Key) := do
  let (node, newNode) ← moveLeafCells strict node.cellSize node getLeafNode
  let cell ← getKthLeafCell node (node.cellSize - 1)
  return (node, newNode, cell.key)

def splitIntPage (strict : Bool) (node : Node) : Result (Node × Node × Key) := do
  let (node, newNode) ← moveIntCells strict node.cellSize node getIntNode
  let cell ← getKthIntCell node (theOrder / 2)
  let removed ← removeKthIntCell node (theOrder / 2)
  return ({ removed with rightChild := cell.childPoint },
    { newNode with rightChild := node.rightChild }, cell.key)

def splitNode (split : Node → Result (Node × Node × Key)) (strict : Bool) (alloc : ℕ → ℕ) (st : Store)
    (a father : ℕ) : Result (Store × ℕ) := do
  let node ← st.get a
  let (node, newNode, key) ← split node
  link strict alloc ((st.add alloc newNode).set a node) father a (st.next alloc) key

def splitLeafNode (strict : Bool) (alloc : ℕ → ℕ) (st : Store) (a father : ℕ) : Result (Store × ℕ) :=
  splitNode (splitLeafPage strict) strict alloc st a father

def splitIntNode (strict : Bool) (alloc : ℕ → ℕ) (st : Store) (a father : ℕ) : Result (Store × ℕ) :=
  splitNode (splitIntPage strict) strict alloc st a father

/-! ### The interface -/

def childFor (node : Node) (k : Key) : ℕ → ℕ → Result ℕ
  | _, 0 => .ok node.rightChild
  | i, r + 1 => do
    let cell ← getKthIntCell node i
    if cell.key < k then childFor node k (i + 1) r else .ok cell.childPoint

def insert2 (strict : Bool) (alloc : ℕ → ℕ) :
    ℕ → Store → ℕ → Key → List UInt8 → ℕ → Result (Store × ℕ × Bool)
  | 0, _, _, _, _, _ => .error .undefined
  | fuel + 1, st, a, k, data, father => do
    let node ← st.get a
    if node.isLeaf then
      let (inserted, node) ← insertLeafCell strict node k data
      if inserted = false then return (st.set a node, father, false)
      else if theOrder ≤ node.cellSize then
        let (st, father) ← splitLeafNode strict alloc (st.set a node) a father
        return (st, father, true)
      else return (st.set a node, father, true)
    else
      let child ← childFor node k 0 node.cellSize
      -- the node is the father of its child, and stays where it is
      let (st, _, inserted) ← insert2 strict alloc fuel st child k data a
      if inserted = false then return (st, father, false)
      else
        let node ← st.get a
        if theOrder ≤ node.cellSize then
          let (st, father) ← splitIntNode strict alloc st a father
          return (st, father, true)
        else return (st, father, true)

structure Tree where
  store : Store
  root : ℕ

def getTree (alloc : ℕ → ℕ) : Tree :=
  let st : Store := ⟨fun _ => none, 0⟩
  ⟨st.add alloc getLeafNode, st.next alloc⟩

def insert (strict : Bool) (alloc : ℕ → ℕ) (t : Tree) (k : Key) (data : List UInt8) :
    Result (Tree × Bool) := do
  let (st, p, inserted) ← insert2 strict alloc t.store.count t.store t.root k data 0
  if inserted = false then return (⟨st, t.root⟩, false)
  else if p ≠ 0 then return (⟨st, p⟩, true)
  else return (⟨st, t.root⟩, true)

def searchLeaf (node : Node) (k : Key) : ℕ → ℕ → Result (Option LeafCell)
  | _, 0 => .ok none
  | i, r + 1 => do
    let cell ← getKthLeafCell node i
    if cell.key = k then .ok (some cell) else searchLeaf node k (i + 1) r

def leafFor (st : Store) (k : Key) : ℕ → ℕ → Result Node
  | 0, _ => .error .undefined
  | fuel + 1, a => do
    let node ← st.get a
    if node.isLeaf then .ok node
    else
      let child ← childFor node k 0 node.cellSize
      leafFor st k fuel child

def search (t : Tree) (k : Key) : Result (Option (ℤ × List UInt8)) := do
  let leaf ← leafFor t.store k t.store.count t.root
  match ← searchLeaf leaf k 0 leaf.cellSize with
  | none => return none
  | some cell =>
    let data ← readData leaf cell
    return some (cell.size, data)

/-! ### Strict calls -/

def Within {α : Type} (x y : Result α) : Prop := ∀ r, x = .ok r → y = .ok r

section Within

variable {α β : Type} {x y : Result α} {f g : α → Result β}

@[simp] theorem ok_bind (a : α) : (Except.ok a : Result α) >>= f = f a := rfl

theorem Within.refl (x : Result α) : Within x x := fun _ h => h

theorem bind_eq_ok {r : β} : x >>= f = .ok r ↔ ∃ a, x = .ok a ∧ f a = .ok r := by
  constructor
  · intro h
    cases x with
    | error e => cases h
    | ok a => exact ⟨a, rfl, h⟩
  · rintro ⟨a, rfl, h⟩
    exact h

theorem toOption_eq_some {r : α} (h : x.toOption = some r) : x = .ok r := by
  cases x with
  | error _ => cases h
  | ok a => exact congrArg Except.ok (Option.some.inj h)

theorem map_eq_error {f : α → β} {e : Failure} (h : x.map f = .error e) : x = .error e := by
  cases x with
  | error e' => exact congrArg Except.error (Except.error.inj h)
  | ok _ => cases h

theorem Within.bind (h : Within x y) (hf : ∀ a, Within (f a) (g a)) :
    Within (x >>= f) (y >>= g) := by
  intro r hr
  obtain ⟨a, hx, hfa⟩ := bind_eq_ok.1 hr
  exact bind_eq_ok.2 ⟨a, h a hx, hf a r hfa⟩

theorem Within.bind_same (hf : ∀ a, Within (f a) (g a)) : Within (x >>= f) (x >>= g) :=
  (Within.refl x).bind hf

theorem Within.ite {c : Prop} [Decidable c] {x' y' : Result α} (h : Within x y)
    (h' : Within x' y') : Within (if c then x else x') (if c then y else y') := by
  split
  · exact h
  · exact h'

end Within

section Strict

variable (strict : Bool)

theorem spaceTest_within (node : Node) (size : ℕ) :
    Within (spaceTest strict node size) (spaceTest false node size) := by
  unfold spaceTest
  refine Within.ite (Within.refl _) fun r h => ?_
  split at h
  · cases h
  · rw [if_neg (by simp only [Bool.toNat_false]; omega), h]

theorem copyLeafCells_within (node : Node) (r i : ℕ) (temp : Node) :
    Within (copyLeafCells strict node i r temp) (copyLeafCells false node i r temp) := by
  induction r generalizing i temp with
  | zero => exact Within.refl _
  | succ r ih =>
    exact .bind_same fun _ => .bind_same fun _ =>
      (spaceTest_within strict temp _).bind fun _ => .bind_same fun _ => ih _ _

theorem copyIntCells_within (node : Node) (r i : ℕ) (temp : Node) :
    Within (copyIntCells strict node i r temp) (copyIntCells false node i r temp) := by
  induction r generalizing i temp with
  | zero => exact Within.refl _
  | succ r ih =>
    exact .bind_same fun _ =>
      (spaceTest_within strict temp _).bind fun _ => .bind_same fun _ => ih _ _

theorem spaceCheck_within (node : Node) (size : ℕ) :
    Within (spaceCheck strict node size) (spaceCheck false node size) := by
  have hclean : Within (spaceCleanUp strict node) (spaceCleanUp false node) :=
    .ite (copyLeafCells_within strict node _ _ _)
      ((copyIntCells_within strict node _ _ _).bind fun _ => Within.refl _)
  have hcollect : Within (collect strict node) (collect false node) := .ite hclean (Within.refl _)
  exact hcollect.bind fun node' => (spaceTest_within strict node' size).bind fun _ => Within.refl _

theorem insertLeafCell_within (node : Node) (k : Key) (data : List UInt8) :
    Within (insertLeafCell strict node k data) (insertLeafCell false node k data) :=
  .ite ((spaceCheck_within strict node _).bind fun _ => Within.refl _) (Within.refl _)

theorem insertIntCell_within (node : Node) (k : Key) (child : ℕ) :
    Within (insertIntCell strict node k child) (insertIntCell false node k child) := by
  intro r h
  unfold insertIntCell at h ⊢
  split at h
  · next hguard =>
    rw [if_pos ⟨hguard.1, hguard.2.1, fun hfalse => absurd hfalse Bool.false_ne_true⟩]
    exact (spaceCheck_within strict node 8).bind (fun _ => Within.refl _) r h
  · cases h

theorem linkPage_within (father : Node) (node newNode : ℕ) (key : Key) :
    Within (linkPage strict father node newNode key) (linkPage false father node newNode key) := by
  refine .bind_same fun kth => ?_
  cases kth with
  | none => exact .ite ((insertIntCell_within strict _ _ _).bind fun _ => Within.refl _) (Within.refl _)
  | some kth =>
    exact .bind_same fun cell => .bind_same fun _ =>
      (insertIntCell_within strict _ _ _).bind fun _ => insertIntCell_within strict _ _ _

theorem link_within (alloc : ℕ → ℕ) (st : Store) (father node newNode : ℕ) (key : Key) :
    Within (link strict alloc st father node newNode key) (link false alloc st father node newNode key) :=
  .ite (.bind_same fun _ => (linkPage_within strict _ _ _ _).bind fun _ => Within.refl _)
    ((insertIntCell_within strict _ _ _).bind fun _ => Within.refl _)

theorem moveLeafCells_within (fuel : ℕ) (node newNode : Node) :
    Within (moveLeafCells strict fuel node newNode) (moveLeafCells false fuel node newNode) := by
  induction fuel generalizing node newNode with
  | zero => exact Within.refl _
  | succ fuel ih =>
    refine .ite ?_ (Within.refl _)
    exact .bind_same fun _ => .bind_same fun _ =>
      (insertLeafCell_within strict _ _ _).bind fun _ => .bind_same fun _ => ih _ _

theorem moveIntCells_within (fuel : ℕ) (node newNode : Node) :
    Within (moveIntCells strict fuel node newNode) (moveIntCells false fuel node newNode) := by
  induction fuel generalizing node newNode with
  | zero => exact Within.refl _
  | succ fuel ih =>
    refine .ite ?_ (Within.refl _)
    exact .bind_same fun _ =>
      (insertIntCell_within strict _ _ _).bind fun _ => .bind_same fun _ => ih _ _

theorem splitNode_within {split split₀ : Node → Result (Node × Node × Key)}
    (hsplit : ∀ node, Within (split node) (split₀ node)) (alloc : ℕ → ℕ) (st : Store) (a father : ℕ) :
    Within (splitNode split strict alloc st a father) (splitNode split₀ false alloc st a father) :=
  .bind_same fun node => (hsplit node).bind fun _ => link_within strict _ _ _ _ _ _

theorem splitLeafPage_within (node : Node) :
    Within (splitLeafPage strict node) (splitLeafPage false node) :=
  (moveLeafCells_within strict _ _ _).bind fun _ => Within.refl _

theorem splitIntPage_within (node : Node) :
    Within (splitIntPage strict node) (splitIntPage false node) :=
  (moveIntCells_within strict _ _ _).bind fun _ => Within.refl _

theorem insert2_within (alloc : ℕ → ℕ) (fuel : ℕ) (st : Store) (a : ℕ) (k : Key) (data : List UInt8)
    (father : ℕ) :
    Within (insert2 strict alloc fuel st a k data father)
      (insert2 false alloc fuel st a k data father) := by
  induction fuel generalizing st a father with
  | zero => exact Within.refl _
  | succ fuel ih =>
    refine .bind_same fun node => .ite ?_ ?_
    · refine (insertLeafCell_within strict node k data).bind fun _ => ?_
      refine .ite (Within.refl _) (.ite ?_ (Within.refl _))
      exact (splitNode_within strict (splitLeafPage_within strict) _ _ _ _).bind fun _ => Within.refl _
    · refine .bind_same fun child => (ih st child a).bind fun _ => ?_
      refine .ite (Within.refl _) (.bind_same fun _ => .ite ?_ (Within.refl _))
      exact (splitNode_within strict (splitIntPage_within strict) _ _ _ _).bind fun _ => Within.refl _

theorem insert_of_strict (alloc : ℕ → ℕ) (t : Tree) (k : Key) (data : List UInt8) :
    Within (insert strict alloc t k data) (insert false alloc t k data) :=
  (insert2_within strict alloc _ _ _ _ _ _).bind fun _ => Within.refl _

end Strict

end SqliteDemo
