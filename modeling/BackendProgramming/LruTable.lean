/-
**The hash table of the `ComponentsW` cache.**

An entry is a record that ends, by intention, in the bytes of its key; the array that these are copied to is
however declared in front of the members `key_length`, `hash` and `value`.  The record is embedded byte by
byte, as it is laid out on a 64-bit machine.
-/

import BackendProgramming.CText
import BackendProgramming.ByteMem
import BackendProgramming.Chains

set_option autoImplicit false

namespace ComponentsW

open CText ByteMem List Option

/-! ### Slices and hashes -/

structure Slice where
  data : Bytes
  size : ℕ
  deriving DecidableEq

def Slice.eq (s t : Slice) : Option Bool :=
  let n := min s.size t.size
  if n ≤ s.data.length ∧ n ≤ t.data.length then
    some (s.data.take n == t.data.take n && s.size == t.size)
  else none

def Slice.of (key : Bytes) : Slice := ⟨key, key.length⟩

def Slice.Denotes (s : Slice) (k : Bytes) : Prop := s.size = k.length ∧ s.data.take k.length = k

theorem Slice.of_denotes (key : Bytes) : (Slice.of key).Denotes key := ⟨rfl, take_length⟩

variable {k : Bytes}

theorem Slice.Denotes.unique {s : Slice} {k' : Bytes} (h : s.Denotes k) (h' : s.Denotes k') : k = k' := by
  rw [← h.2, ← h'.2, ← h.1, ← h'.1]

theorem Slice.Denotes.take {s : Slice} (h : s.Denotes k) {n : ℕ} (hn : n ≤ k.length) :
    n ≤ s.data.length ∧ s.data.take n = k.take n := by
  have hlen := congrArg length h.2
  rw [length_take] at hlen
  refine ⟨by omega, ?_⟩
  conv_rhs => rw [← h.2]
  rw [take_take, min_eq_left hn]

theorem Slice.Denotes.eq {s t : Slice} {k' : Bytes} (h : s.Denotes k) (h' : t.Denotes k') :
    s.eq t = some (decide (k = k')) := by
  obtain ⟨hs, hs'⟩ := h.take (n := min k.length k'.length) (min_le_left _ _)
  obtain ⟨ht, ht'⟩ := h'.take (n := min k.length k'.length) (min_le_right _ _)
  rw [Slice.eq, h.1, h'.1, if_pos ⟨hs, ht⟩, hs', ht']
  congr 1
  rw [Bool.eq_iff_iff, Bool.and_eq_true, beq_iff_eq, beq_iff_eq, decide_eq_true_iff]
  constructor
  · rintro ⟨hbytes, hlen⟩
    rwa [hlen, min_self, take_length, ← hlen, take_length] at hbytes
  · rintro rfl
    exact ⟨rfl, rfl⟩

theorem Slice.denotes_of_eq {s : Slice} (h : (Slice.of k).eq s = some true) : s.Denotes k := by
  rw [Slice.eq] at h
  split at h
  · have hboth := some.inj h
    rw [Bool.and_eq_true, beq_iff_eq, beq_iff_eq] at hboth
    obtain ⟨hbytes, hsize⟩ := hboth
    have hlen : s.size = k.length := hsize.symm
    simp only [Slice.of, hlen, min_self, take_length] at hbytes
    exact ⟨hlen, hbytes.symm⟩
  · cases h

def hashMultiplier : UInt32 := 0xc6a4a793

def hashLoop (h : UInt32) : Bytes → UInt32
  | a :: b :: c :: d :: data =>
    let h := (h + UInt32.ofNat (leNat [a, b, c, d])) * hashMultiplier
    hashLoop (h ^^^ (h >>> 16)) data
  | [] => h
  | data =>
    let h := (h + UInt32.ofNat (leNat data)) * hashMultiplier
    h ^^^ (h >>> 24)

def hashData (data : Bytes) (seed : UInt32) : UInt32 :=
  hashLoop (seed ^^^ (UInt32.ofNat data.length * hashMultiplier)) data

def hashSlice (key : Bytes) : UInt32 := hashData key 0

/-! ### The record -/

def sizeofLRUHandle : ℕ := 80

def keyDataAt : ℕ := 48

def keyLengthAt : ℕ := 56

def hashAt : ℕ := 64

def valueAt : ℕ := 72

structure LRUHandle where
  size : ℕ
  mem : Mem
  inCache : Bool
  refs : UInt32
  charge : UInt64

namespace LRUHandle

def keyLength (e : LRUHandle) : ℕ := leNat (read e.mem keyLengthAt 8)

def hash (e : LRUHandle) : UInt32 := UInt32.ofNat (leNat (read e.mem hashAt 4))

def value (e : LRUHandle) : UInt64 := UInt64.ofNat (leNat (read e.mem valueAt 8))

def key (e : LRUHandle) : Slice := ⟨read e.mem keyDataAt (e.size - keyDataAt), e.keyLength⟩

end LRUHandle

def newHandle (junk : Mem) (key : Bytes) (hash : UInt32) (value charge : UInt64) : Option LRUHandle :=
  let size := sizeofLRUHandle - 1 + key.length
  if valueAt + 8 ≤ size then
    let mem := write junk valueAt (leBytes 8 value.toNat)
    let mem := write mem keyLengthAt (leBytes 8 key.length)
    let mem := write mem hashAt (leBytes 4 hash.toNat)
    some { size := size, mem := write mem keyDataAt key, inCache := false, refs := 1, charge := charge }
  else none

structure LRUHandle.Is (H : Bytes → UInt32) (e : LRUHandle) (k : Bytes) (v : UInt64) : Prop where
  key : e.key.Denotes k
  hash : e.hash = H k
  value : e.value = v

def Intact (H : Bytes → UInt32) (junk : Mem) (k : Bytes) (v : UInt64) : Prop :=
  ∃ e, newHandle junk k (H k) v 0 = some e ∧ e.Is H k v

theorem toNat_leNat_leBytes (n w : ℕ) (h : w < 256 ^ n) : leNat (leBytes n (w : ℤ)) = w := by
  have := leNat_leBytes n w
  rw [Int.emod_eq_of_lt (by omega) (by exact_mod_cast h)] at this
  exact_mod_cast this

theorem Intact.newHandle {H : Bytes → UInt32} {junk : Mem} {v : UInt64} (h : Intact H junk k v)
    (charge : UInt64) :
    ∃ e, newHandle junk k (H k) v charge = some e ∧ e.Is H k v ∧ e.inCache = false ∧ e.refs = 1 ∧
      e.charge = charge := by
  obtain ⟨e, he, his⟩ := h
  unfold ComponentsW.newHandle at he ⊢
  dsimp only at he ⊢
  split at he
  · next hsize =>
    cases he
    rw [if_pos hsize]
    exact ⟨_, rfl, ⟨his.key, his.hash, his.value⟩, rfl, rfl, rfl⟩
  · cases he

theorem intact_of_length_le (H : Bytes → UInt32) (junk : Mem) (v : UInt64) (h₁ : 1 ≤ k.length)
    (h₈ : k.length ≤ 8) : Intact H junk k v := by
  unfold Intact newHandle
  rw [if_pos (by simp only [valueAt, sizeofLRUHandle]; omega)]
  refine ⟨_, rfl, ⟨?_, ?_⟩, ?_, ?_⟩
  · -- the key ends in front of the member behind it, which is written before the hash
    simp only [LRUHandle.key, LRUHandle.keyLength, keyLengthAt, keyDataAt, hashAt]
    rw [read_write_of_apart (by omega), read_write_of_apart (by simp)]
    have hread := read_write (write junk valueAt (leBytes 8 v.toNat)) 56 (leBytes 8 k.length)
    rw [length_leBytes] at hread
    rw [hread, toNat_leNat_leBytes _ _ (by norm_num; omega)]
  · simp only [LRUHandle.key, keyDataAt, sizeofLRUHandle]
    have hsplit : 80 - 1 + k.length - 48 = k.length + 31 := by omega
    rw [hsplit, read_add, read_write, take_left']
    simp
  · simp only [LRUHandle.hash, keyDataAt, hashAt]
    rw [read_write_of_apart (by omega)]
    have hread := read_write (write (write junk valueAt (leBytes 8 v.toNat)) keyLengthAt (leBytes 8 k.length)) 64
      (leBytes 4 (H k).toNat)
    rw [length_leBytes] at hread
    rw [hread, toNat_leNat_leBytes _ _ (UInt32.toNat_lt _), UInt32.ofNat_toNat]
  · simp only [LRUHandle.value, keyDataAt, hashAt, valueAt, keyLengthAt]
    rw [read_write_of_apart (by omega), read_write_of_apart (by simp), read_write_of_apart (by simp)]
    have hread := read_write junk 72 (leBytes 8 v.toNat)
    rw [length_leBytes] at hread
    rw [hread, toNat_leNat_leBytes _ _ (UInt64.toNat_lt _), UInt64.ofNat_toNat]

/-! ### The table -/

abbrev Addr := ℕ

abbrev Heap := Addr → Option LRUHandle

structure HandleTable where
  length : UInt32 := 4
  elems : UInt32 := 0
  list : List (List Addr) := replicate 4 []
  deriving DecidableEq

def LRUHandle.isOf (e : LRUHandle) (key : Slice) (hash : UInt32) : Option Bool :=
  if e.hash ≠ hash then some false else key.eq e.key

def walk (heap : Heap) (key : Slice) (hash : UInt32) : List Addr → Option (List Addr × List Addr)
  | [] => some ([], [])
  | a :: chain => do
    let e ← heap a
    let found ← e.isOf key hash
    if found then some ([], a :: chain)
    else (walk heap key hash chain).map fun x => (a :: x.1, x.2)

def growth : ℕ → UInt32 → UInt32 → Option UInt32
  | 0, _, _ => none
  | fuel + 1, newLength, elems =>
    if newLength < elems then growth fuel (newLength * 2) elems else some newLength

def moveAll (heap : Heap) (newLength : UInt32) :
    List Addr → List (List Addr) → UInt32 → Option (List (List Addr) × UInt32)
  | [], newList, count => some (newList, count)
  | h :: hs, newList, count => do
    let e ← heap h
    moveAll heap newLength hs (Chains.push newList (e.hash &&& (newLength - 1)).toNat h) (count + 1)

namespace HandleTable

def index (t : HandleTable) (hash : UInt32) : ℕ := (hash &&& (t.length - 1)).toNat

def findPointer (t : HandleTable) (heap : Heap) (key : Slice) (hash : UInt32) :
    Option (List Addr × List Addr) :=
  (t.list[t.index hash]?).bind (walk heap key hash)

def lookup (t : HandleTable) (heap : Heap) (key : Slice) (hash : UInt32) : Option (Option Addr) :=
  (t.findPointer heap key hash).map fun x => x.2.head?

def resize (t : HandleTable) (heap : Heap) : Option HandleTable := do
  let newLength ← growth 30 4 t.elems
  let (newList, count) ← moveAll heap newLength t.list.flatten (replicate newLength.toNat []) 0
  if t.elems = count then some { t with list := newList, length := newLength } else none

def grow (t : HandleTable) (heap : Heap) : Option HandleTable :=
  if t.length < t.elems then t.resize heap else some t

def insert (t : HandleTable) (heap : Heap) (h : Addr) : Option (Option Addr × HandleTable) := do
  let e ← heap h
  let (before, rest) ← t.findPointer heap e.key e.hash
  let t := { t with list := t.list.set (t.index e.hash) (before ++ h :: rest.tail) }
  if rest.head?.isSome then some (rest.head?, t)
  else
    let t ← { t with elems := t.elems + 1 }.grow heap
    some (none, t)

def remove (t : HandleTable) (heap : Heap) (key : Slice) (hash : UInt32) :
    Option (Option Addr × HandleTable) := do
  let (before, rest) ← t.findPointer heap key hash
  if rest.head?.isSome then
    some (rest.head?, { t with list := t.list.set (t.index hash) (before ++ rest.tail), elems := t.elems - 1 })
  else some (none, t)

def addrs (t : HandleTable) : List Addr := t.list.flatten

end HandleTable

example : HandleTable.resize { length := 0, elems := 0, list := [] } (fun _ => none) = some {} := by decide

/-! ### What is kept of a table -/

section Table

variable (H : Bytes → UInt32) (heap : Heap)

def HasKey (a : Addr) (k : Bytes) : Prop := ∃ e, heap a = some e ∧ e.key.Denotes k ∧ e.hash = H k

def bucket (length : UInt32) (a : Addr) : ℕ :=
  match heap a with
  | some e => (e.hash &&& (length - 1)).toNat
  | none => 0

structure HandleTable.Ok (t : HandleTable) : Prop where
  size : t.list.length = t.length.toNat
  pos : 0 < t.length.toNat
  placed : Chains.Placed (bucket heap t.length) t.list
  nodup : t.addrs.Nodup
  count : t.elems.toNat = t.addrs.length
  keys : ∀ a ∈ t.addrs, ∃ k, HasKey H heap a k
  unique : ∀ a ∈ t.addrs, ∀ b ∈ t.addrs, ∀ k, HasKey H heap a k → HasKey H heap b k → a = b

variable {H heap}

variable {a : Addr}

theorem HasKey.unique {k' : Bytes} (h : HasKey H heap a k) (h' : HasKey H heap a k') : k = k' := by
  obtain ⟨e, he, hkey, -⟩ := h
  obtain ⟨e', he', hkey', -⟩ := h'
  obtain rfl := some.inj (he.symm.trans he')
  exact hkey.unique hkey'

theorem HasKey.bucket (h : HasKey H heap a k) (length : UInt32) :
    bucket heap length a = (H k &&& (length - 1)).toNat := by
  obtain ⟨e, he, -, hhash⟩ := h
  rw [ComponentsW.bucket, he, ← hhash]

def SameRecord (e e' : Option LRUHandle) : Prop :=
  (e.map fun e => (e.size, e.mem)) = e'.map fun e => (e.size, e.mem)

theorem SameRecord.exists {e : LRUHandle} {o : Option LRUHandle} (h : SameRecord (some e) o) :
    ∃ e', o = some e' ∧ e'.key = e.key ∧ e'.hash = e.hash ∧ e'.value = e.value := by
  obtain ⟨e', he', hrec⟩ := map_eq_some_iff.1 (Eq.symm h)
  obtain ⟨hsize, hmem⟩ := Prod.mk.inj hrec
  refine ⟨e', he', ?_, ?_, ?_⟩
  · rw [LRUHandle.key, LRUHandle.key, LRUHandle.keyLength, LRUHandle.keyLength, hsize, hmem]
  · rw [LRUHandle.hash, LRUHandle.hash, hmem]
  · rw [LRUHandle.value, LRUHandle.value, hmem]

theorem HasKey.of_sameRecord {heap' : Heap} (h : HasKey H heap a k)
    (hsame : SameRecord (heap a) (heap' a)) : HasKey H heap' a k := by
  obtain ⟨e, he, hkey, hhash⟩ := h
  rw [he] at hsame
  obtain ⟨e', he', hkey', hhash', -⟩ := hsame.exists
  exact ⟨e', he', hkey' ▸ hkey, hhash'.trans hhash⟩

theorem toNat_and_sub_one_lt (hash : UInt32) {length : UInt32} (h : 0 < length.toNat) :
    (hash &&& (length - 1)).toNat < length.toNat := by
  have hle : (1 : UInt32) ≤ length := by
    rw [UInt32.le_iff_toNat_le]
    exact h
  have hsub : (length - 1).toNat = length.toNat - 1 := by
    rw [UInt32.toNat_sub_of_le _ _ hle]
    rfl
  have hand : (hash &&& (length - 1)).toNat ≤ (length - 1).toNat := by
    rw [UInt32.toNat_and]
    exact Nat.and_le_right
  omega

theorem walk_spec {key : Slice} (hkey : key.Denotes k) {chain : List Addr}
    (hchain : ∀ a ∈ chain, ∃ k', HasKey H heap a k') :
    ∃ before rest, walk heap key (H k) chain = some (before, rest) ∧ chain = before ++ rest ∧
      (∀ a ∈ before, ¬ HasKey H heap a k) ∧ ∀ a ∈ rest.head?, HasKey H heap a k := by
  induction chain with
  | nil => exact ⟨[], [], rfl, rfl, by simp, by simp⟩
  | cons a chain ih =>
    obtain ⟨k', e, he, hden, hhash⟩ := hchain a mem_cons_self
    have hfound : e.isOf key (H k) = some (decide (k = k')) := by
      rw [LRUHandle.isOf, hkey.eq hden]
      split
      · next hne => rw [decide_eq_false (fun hk => hne (by rw [hhash, hk]))]
      · rfl
    rw [walk, he, bind_eq_bind, bind_some, hfound, bind_eq_bind, bind_some]
    by_cases hk : k = k'
    · rw [if_pos (decide_eq_true hk)]
      refine ⟨[], a :: chain, rfl, rfl, by simp, ?_⟩
      intro b hb
      cases hb
      exact hk ▸ ⟨e, he, hden, hhash⟩
    · obtain ⟨before, rest, hwalk, hsplit, hbefore, hrest⟩ := ih fun b hb => hchain b (mem_cons_of_mem _ hb)
      rw [if_neg (by simpa using hk), hwalk]
      refine ⟨a :: before, rest, rfl, by rw [hsplit, cons_append], ?_, hrest⟩
      intro b hb
      rcases mem_cons.1 hb with rfl | hb
      · exact fun h => hk (h.unique ⟨e, he, hden, hhash⟩)
      · exact hbefore b hb

theorem walk_found {key : Slice} {hash : UInt32} {chain before rest : List Addr}
    (h : walk heap key hash chain = some (before, rest)) (ha : rest.head? = some a) :
    ∃ e, heap a = some e ∧ e.isOf key hash = some true := by
  induction chain generalizing before with
  | nil =>
    cases h
    cases ha
  | cons b chain ih =>
    obtain ⟨e, he, h⟩ := bind_eq_some_iff.1 h
    obtain ⟨found, hfound, h⟩ := bind_eq_some_iff.1 h
    split at h
    · next htrue =>
      cases h
      cases ha
      exact ⟨e, he, htrue ▸ hfound⟩
    · obtain ⟨⟨before', rest'⟩, hwalk, heq⟩ := map_eq_some_iff.1 h
      obtain ⟨-, rfl⟩ := Prod.mk.inj heq
      exact ih hwalk

namespace HandleTable

theorem lookup_found {t : HandleTable} {key : Slice} {hash : UInt32}
    (h : t.lookup heap key hash = some (some a)) : ∃ e, heap a = some e ∧ e.isOf key hash = some true := by
  obtain ⟨⟨before, rest⟩, hfind, ha⟩ := map_eq_some_iff.1 h
  obtain ⟨chain, -, hwalk⟩ := bind_eq_some_iff.1 hfind
  exact walk_found hwalk ha

theorem findPointer_new (key : Slice) (hash : UInt32) : findPointer {} heap key hash = some ([], []) := by
  have hlt : index {} hash < 4 := toNat_and_sub_one_lt hash (by decide)
  have hget : (replicate 4 ([] : List Addr))[index {} hash]? = some [] := by
    rw [getElem?_replicate, if_pos hlt]
  rw [findPointer, hget]
  rfl

theorem insert_new {e : LRUHandle} (he : heap a = some e) :
    ∃ t, insert {} heap a = some (none, t) := by
  rw [insert, he, bind_eq_bind, bind_some, findPointer_new, bind_eq_bind, bind_some]
  exact ⟨_, rfl⟩

end HandleTable

namespace HandleTable.Ok

variable {t : HandleTable}

theorem findPointer (h : t.Ok H heap) {key : Slice} (hkey : key.Denotes k) :
    ∃ before rest, t.findPointer heap key (H k) = some (before, rest) ∧
      t.list[t.index (H k)]? = some (before ++ rest) ∧
      ∀ a, rest.head? = some a ↔ a ∈ t.addrs ∧ HasKey H heap a k := by
  have hlt : t.index (H k) < t.list.length := by
    rw [h.size]
    exact toNat_and_sub_one_lt _ h.pos
  have hget := getElem?_eq_getElem hlt
  have hmem : ∀ a ∈ t.list[t.index (H k)], a ∈ t.addrs := fun a ha =>
    mem_flatten.2 ⟨_, getElem_mem hlt, ha⟩
  obtain ⟨before, rest, hwalk, hsplit, hbefore, hrest⟩ := walk_spec hkey fun a ha => h.keys a (hmem a ha)
  refine ⟨before, rest, by rw [HandleTable.findPointer, hget]; exact hwalk, by rw [hget, hsplit], fun a => ⟨?_, ?_⟩⟩
  · intro ha
    refine ⟨hmem a ?_, hrest a ha⟩
    rw [hsplit]
    exact mem_append_right _ (mem_of_mem_head? ha)
  · rintro ⟨ha, hk⟩
    -- the entry stands in the bucket of its hash, behind those that were passed
    obtain ⟨chain, hchain, hin⟩ := h.placed.mem_chain ha
    rw [hk.bucket] at hchain
    obtain rfl := some.inj (hget.symm.trans hchain)
    rw [hsplit] at hin
    rcases mem_append.1 hin with hin | hin
    · exact absurd hk (hbefore a hin)
    · cases rest with
      | nil => cases hin
      | cons b rest =>
        have hb : HasKey H heap b k := hrest b rfl
        have hbmem : b ∈ t.addrs := hmem b (by rw [hsplit]; simp)
        rw [h.unique a ha b hbmem k hk hb]
        rfl

theorem lookup (h : t.Ok H heap) {key : Slice} (hkey : key.Denotes k) :
    ∃ r, t.lookup heap key (H k) = some r ∧ ∀ a, r = some a ↔ a ∈ t.addrs ∧ HasKey H heap a k := by
  obtain ⟨before, rest, hfind, -, hrest⟩ := h.findPointer hkey
  exact ⟨rest.head?, by rw [HandleTable.lookup, hfind]; rfl, hrest⟩

end HandleTable.Ok

/-! ### Growing -/

theorem growth_spec {elems : UInt32} (h : elems.toNat ≤ 2 ^ 31) (j : ℕ) {newLength : UInt32} (hj : j ≤ 31)
    (hlen : newLength.toNat = 2 ^ (31 - j)) :
    ∃ n, growth (j + 1) newLength elems = some n ∧ 0 < n.toNat := by
  induction j generalizing newLength with
  | zero =>
    have hnot : ¬ newLength < elems := by
      rw [UInt32.lt_iff_toNat_lt, hlen]
      exact not_lt.2 h
    exact ⟨newLength, by rw [growth, if_neg hnot], by rw [hlen]; positivity⟩
  | succ j ih =>
    rw [growth]
    split
    · refine ih (by omega) ?_
      have hpow : 2 ^ (31 - j) = 2 ^ (31 - (j + 1)) * 2 := by
        rw [← pow_succ]
        congr 1
        omega
      have hlt : 2 ^ (31 - j) < 2 ^ 32 := Nat.pow_lt_pow_right (by norm_num) (by omega)
      rw [UInt32.toNat_mul, hlen]
      change 2 ^ (31 - (j + 1)) * 2 % 2 ^ 32 = _
      rw [← hpow, Nat.mod_eq_of_lt hlt]
    · exact ⟨newLength, rfl, by rw [hlen]; positivity⟩

theorem moveAll_spec {newLength : UInt32} (hpos : 0 < newLength.toNat) {hs : List Addr}
    (hlive : ∀ a ∈ hs, ∃ k, HasKey H heap a k) {newList : List (List Addr)} (count : UInt32)
    (hsize : newList.length = newLength.toNat) (hplaced : Chains.Placed (bucket heap newLength) newList) :
    ∃ newList', moveAll heap newLength hs newList count = some (newList', count + UInt32.ofNat hs.length) ∧
      newList'.length = newLength.toNat ∧ Chains.Placed (bucket heap newLength) newList' ∧
      newList'.flatten.Perm (hs ++ newList.flatten) := by
  induction hs generalizing newList count with
  | nil => exact ⟨newList, by simp [moveAll], hsize, hplaced, List.Perm.refl _⟩
  | cons a hs ih =>
    obtain ⟨k, e, he, -, -⟩ := hlive a mem_cons_self
    have hbucket : bucket heap newLength a = (e.hash &&& (newLength - 1)).toNat := by rw [bucket, he]
    have hlt : (e.hash &&& (newLength - 1)).toNat < newList.length := by
      rw [hsize]
      exact toNat_and_sub_one_lt _ hpos
    obtain ⟨newList', hmove, hlen, hplaced', hperm⟩ := ih (fun b hb => hlive b (mem_cons_of_mem _ hb))
      (count + 1) (by rw [Chains.length_push, hsize]) (hplaced.push hlt hbucket)
    refine ⟨newList', ?_, hlen, hplaced', ?_⟩
    · rw [moveAll, he, bind_eq_bind, bind_some, hmove, length_cons]
      congr 2
      rw [UInt32.ofNat_add, UInt32.add_assoc, UInt32.add_comm 1]
      rfl
    · have hpush := (Chains.flatten_push (a := a) hlt).append_left hs
      exact hperm.trans (hpush.trans perm_middle)

namespace HandleTable.Ok

variable {t : HandleTable}

theorem of_perm (h : t.Ok H heap) {t' : HandleTable} (hsize : t'.list.length = t'.length.toNat)
    (hpos : 0 < t'.length.toNat) (hplaced : Chains.Placed (bucket heap t'.length) t'.list)
    (helems : t'.elems = t.elems) (hperm : t'.addrs.Perm t.addrs) : t'.Ok H heap where
  size := hsize
  pos := hpos
  placed := hplaced
  nodup := hperm.nodup_iff.2 h.nodup
  count := by rw [helems, h.count, hperm.length_eq]
  keys a ha := h.keys a (hperm.mem_iff.1 ha)
  unique a ha b hb := h.unique a (hperm.mem_iff.1 ha) b (hperm.mem_iff.1 hb)

theorem resize (h : t.Ok H heap) (helems : t.elems.toNat ≤ 2 ^ 31) :
    ∃ t', t.resize heap = some t' ∧ t'.Ok H heap ∧ t'.addrs.Perm t.addrs := by
  obtain ⟨newLength, hgrowth, hpos⟩ :=
    growth_spec helems 29 (by omega) (show (4 : UInt32).toNat = 2 ^ (31 - 29) from rfl)
  obtain ⟨newList, hmove, hsize, hplaced, hperm⟩ :=
    moveAll_spec hpos h.keys 0 length_replicate (Chains.placed_replicate_nil _ newLength.toNat)
  have hcount : t.elems = 0 + UInt32.ofNat t.addrs.length := by
    rw [UInt32.zero_add, ← h.count, UInt32.ofNat_toNat]
  have hall : newList.flatten.Perm t.addrs := by simpa using hperm
  refine ⟨{ t with list := newList, length := newLength }, ?_, h.of_perm hsize hpos hplaced rfl hall, hall⟩
  unfold HandleTable.resize
  unfold HandleTable.addrs at hmove hcount
  rw [hgrowth, bind_eq_bind, bind_some, hmove, bind_eq_bind, bind_some]
  exact if_pos hcount

theorem grow (h : t.Ok H heap) (helems : t.elems.toNat ≤ 2 ^ 31) :
    ∃ t', t.grow heap = some t' ∧ t'.Ok H heap ∧ t'.addrs.Perm t.addrs := by
  unfold HandleTable.grow
  split
  · exact h.resize helems
  · exact ⟨t, rfl, h, List.Perm.refl _⟩

theorem split (h : t.Ok H heap) {key : Slice} (hkey : key.Denotes k) :
    ∃ before rest others, t.findPointer heap key (H k) = some (before, rest) ∧
      t.addrs.Perm (rest.head?.toList ++ others) ∧
      (∀ a, rest.head? = some a ↔ a ∈ t.addrs ∧ HasKey H heap a k) ∧
      others.Nodup ∧ (∀ a, a ∈ others ↔ a ∈ t.addrs ∧ rest.head? ≠ some a) ∧
      ∀ new, (∀ a ∈ new, HasKey H heap a k) →
        (t.list.set (t.index (H k)) (before ++ new ++ rest.tail)).flatten.Perm (new ++ others) ∧
          Chains.Placed (bucket heap t.length) (t.list.set (t.index (H k)) (before ++ new ++ rest.tail)) := by
  obtain ⟨before, rest, hfind, hget, hrest⟩ := h.findPointer hkey
  obtain ⟨front, back, hflat, hset⟩ := Chains.exists_frame hget
  have hperm : t.addrs.Perm (rest.head?.toList ++ (front ++ (before ++ rest.tail) ++ back)) := by
    rw [HandleTable.addrs, hflat]
    cases rest with
    | nil => simp
    | cons a rest =>
      have hmiddle : (front ++ before ++ a :: (rest ++ back)).Perm (a :: (front ++ before ++ (rest ++ back))) :=
        perm_middle
      simpa using hmiddle
  have hnodup := nodup_append.1 (hperm.nodup_iff.1 h.nodup)
  refine ⟨before, rest, front ++ (before ++ rest.tail) ++ back, hfind, hperm, hrest, hnodup.2.1, ?_, ?_⟩
  · intro a
    constructor
    · intro ha
      refine ⟨hperm.mem_iff.2 (mem_append_right _ ha), fun hhead => ?_⟩
      exact hnodup.2.2 a (mem_toList.2 hhead) a ha rfl
    · rintro ⟨ha, hne⟩
      rcases mem_append.1 (hperm.mem_iff.1 ha) with ha | ha
      · exact absurd (mem_toList.1 ha) hne
      · exact ha
  · intro new hnew
    constructor
    · rw [hset]
      have : (front ++ before ++ new ++ (rest.tail ++ back)).Perm (new ++ (front ++ before) ++ (rest.tail ++ back)) :=
        perm_append_comm.append_right _
      simpa using this
    · refine h.placed.set fun a ha => ?_
      simp only [mem_append] at ha
      have hold : a ∈ before ++ rest → bucket heap t.length a = t.index (H k) := h.placed _ _ hget a
      rcases ha with (ha | ha) | ha
      · exact hold (mem_append_left _ ha)
      · exact (hnew a ha).bucket t.length
      · exact hold (mem_append_right _ (mem_of_mem_tail ha))

theorem insert (h : t.Ok H heap) (hk : HasKey H heap a k) (ha : a ∉ t.addrs)
    (helems : t.elems.toNat < 2 ^ 31) :
    ∃ old t', t.insert heap a = some (old, t') ∧ t'.Ok H heap ∧
      (∀ b, old = some b ↔ b ∈ t.addrs ∧ HasKey H heap b k) ∧
      ∀ b, b ∈ t'.addrs ↔ b = a ∨ b ∈ t.addrs ∧ old ≠ some b := by
  obtain ⟨e, he, hden, hhash⟩ := id hk
  obtain ⟨before, rest, others, hfind, hperm, hrest, hnodup, hmem, hnew⟩ := h.split hden
  obtain ⟨hflat, hplaced⟩ := hnew [a] fun b hb => (mem_singleton.1 hb) ▸ hk
  set list := t.list.set (t.index (H k)) (before ++ [a] ++ rest.tail) with hlist
  have hothers : ∀ b ∈ others, ¬ HasKey H heap b k := fun b hb hbk =>
    ((hmem b).1 hb).2 ((hrest b).2 ⟨((hmem b).1 hb).1, hbk⟩)
  -- the new table before it grows
  have hok : ∀ elems : UInt32, elems.toNat = others.length + 1 →
      HandleTable.Ok H heap { t with list := list, elems := elems } := by
    intro elems hcount
    refine ⟨by rw [hlist, length_set, h.size], h.pos, hplaced, ?_, ?_, ?_, ?_⟩
    · exact hflat.nodup_iff.2 (nodup_cons.2 ⟨fun hin => ha ((hmem a).1 hin).1, hnodup⟩)
    · exact hcount.trans hflat.length_eq.symm
    · intro b hb
      rcases mem_cons.1 (hflat.mem_iff.1 hb) with rfl | hb'
      · exact ⟨k, hk⟩
      · exact h.keys b ((hmem b).1 hb').1
    · intro b hb c hc k' hbk hck
      rcases mem_cons.1 (hflat.mem_iff.1 hb) with rfl | hb' <;>
        rcases mem_cons.1 (hflat.mem_iff.1 hc) with rfl | hc'
      · rfl
      · exact absurd (hbk.unique hk ▸ hck) (hothers c hc')
      · exact absurd (hck.unique hk ▸ hbk) (hothers b hb')
      · exact h.unique b ((hmem b).1 hb').1 c ((hmem c).1 hc').1 k' hbk hck
  have hinsert : t.insert heap a = if rest.head?.isSome then some (rest.head?, { t with list := list })
      else ({ t with list := list, elems := t.elems + 1 } : HandleTable).grow heap >>= fun t' =>
        some (none, t') := by
    rw [HandleTable.insert, he, bind_eq_bind, bind_some, hhash, hfind, bind_eq_bind,
      bind_some]
    simp only [hlist, append_assoc, singleton_append]
  have hlen := hperm.length_eq
  rw [← h.count, length_append] at hlen
  rw [hinsert]
  cases hhead : rest.head? with
  | some b =>
    rw [hhead] at hlen hrest hmem
    refine ⟨some b, _, rfl, hok t.elems (by rw [hlen, Nat.add_comm]; rfl), hrest, fun c => ?_⟩
    rw [← hmem, ← mem_cons]
    exact hflat.mem_iff
  | none =>
    rw [hhead] at hlen hrest hmem
    have hsucc : (t.elems + 1).toNat = t.elems.toNat + 1 := by
      rw [UInt32.toNat_add]
      exact Nat.mod_eq_of_lt (by change _ + 1 < _; omega)
    have hcount : (t.elems + 1).toNat = others.length + 1 := by
      rw [hsucc, hlen]
      simp
    obtain ⟨t', hgrow, hok', hperm'⟩ := (hok _ hcount).grow (by rw [hsucc]; omega)
    refine ⟨none, t', by rw [hgrow]; rfl, hok', hrest, fun c => ?_⟩
    rw [← hmem, ← mem_cons]
    exact hperm'.mem_iff.trans hflat.mem_iff

theorem remove (h : t.Ok H heap) {key : Slice} (hkey : key.Denotes k) :
    ∃ old t', t.remove heap key (H k) = some (old, t') ∧ t'.Ok H heap ∧
      (∀ b, old = some b ↔ b ∈ t.addrs ∧ HasKey H heap b k) ∧
      ∀ b, b ∈ t'.addrs ↔ b ∈ t.addrs ∧ old ≠ some b := by
  obtain ⟨before, rest, others, hfind, hperm, hrest, hnodup, hmem, hnew⟩ := h.split hkey
  obtain ⟨hflat, hplaced⟩ := hnew [] (by simp)
  rw [append_nil] at hflat hplaced
  rw [HandleTable.remove, hfind, bind_eq_bind, bind_some]
  dsimp only
  cases hhead : rest.head? with
  | none =>
    rw [hhead] at hrest
    exact ⟨none, t, rfl, h, hrest, fun b => by simp⟩
  | some a =>
    rw [hhead] at hrest hmem hperm
    have hcount : (t.elems - 1).toNat = others.length := by
      have hlen := hperm.length_eq
      rw [← h.count, toList_some, singleton_append, length_cons] at hlen
      have hle : (1 : UInt32) ≤ t.elems := by
        rw [UInt32.le_iff_toNat_le, hlen]
        exact Nat.le_add_left ..
      rw [UInt32.toNat_sub_of_le _ _ hle, hlen]
      rfl
    have hsub : ∀ b ∈ (t.list.set (t.index (H k)) (before ++ rest.tail)).flatten, b ∈ t.addrs := fun b hb =>
      ((hmem b).1 (hflat.mem_iff.1 hb)).1
    refine ⟨some a, _, rfl, ⟨by rw [length_set, h.size], h.pos, hplaced, hflat.nodup_iff.2 hnodup,
      hcount.trans hflat.length_eq.symm, fun b hb => h.keys b (hsub b hb),
      fun b hb c hc => h.unique b (hsub b hb) c (hsub c hc)⟩, hrest, fun b => ?_⟩
    rw [← hmem]
    exact hflat.mem_iff

theorem of_heap (h : t.Ok H heap) {heap' : Heap} (hsame : ∀ a ∈ t.addrs, SameRecord (heap a) (heap' a)) :
    t.Ok H heap' where
  size := h.size
  pos := h.pos
  placed := by
    intro i chain hi a ha
    have hmem : a ∈ t.addrs := mem_flatten.2 ⟨chain, mem_of_getElem? hi, ha⟩
    obtain ⟨k, hk⟩ := h.keys a hmem
    rw [(hk.of_sameRecord (hsame a hmem)).bucket, ← hk.bucket]
    exact h.placed i chain hi a ha
  nodup := h.nodup
  count := h.count
  keys a ha := (h.keys a ha).imp fun _ hk => hk.of_sameRecord (hsame a ha)
  unique a ha b hb k hak hbk :=
    h.unique a ha b hb k (hak.of_sameRecord (hsame a ha).symm) (hbk.of_sameRecord (hsame b hb).symm)

end HandleTable.Ok

end Table

end ComponentsW
