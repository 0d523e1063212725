/-
**A dictionary that is rehashed a bucket per call (`redis_hashtable.c`).**

While a dictionary is rehashed, every call first moves the next bucket from the first table to the second.  The
move of an entry decreases the counter of the second table where it should increase it.
-/

import BackendProgramming.KeyedChains
import BackendProgramming.Lts

set_option autoImplicit false

namespace RedisDict

open KeyedChains Function List Option Prod

/-! ### The dictionary -/

section Model

variable (K V : Type*)

structure Dictht where
  table : ℕ → List (K × V) := fun _ => []
  size : ℕ := 0
  used : ℕ := 0

structure Dict where
  ht : Fin 2 → Dictht K V := fun _ => {}
  rehashidx : Option ℕ := none

end Model

variable {K V : Type*}

def Dictht.idx (t : Dictht K V) (hash : UInt64) : ℕ := hash.toNat &&& (t.size - 1)

def Dictht.count (t : Dictht K V) : ℕ := ∑ i ∈ Finset.range t.size, (t.table i).length

def incr (used : ℕ) : ℕ := (used + 1) % 2 ^ 64

def decr (used : ℕ) : ℕ := (used + (2 ^ 64 - 1)) % 2 ^ 64

def doubleUntil (size : ℕ) : ℕ → ℕ → ℕ
  | 0, i => i
  | fuel + 1, i => if size ≤ i then i else doubleUntil size fuel (i * 2)

def dictNextPower (size : ℕ) : ℕ := if 2 ^ 63 - 1 ≤ size then 2 ^ 63 else doubleUntil size 62 4

def nextBucket (t : Dictht K V) : ℕ → ℕ → Option (ℕ × Bool)
  | 0, i => some (i, false)
  | visits + 1, i =>
    if t.size ≤ i then none
    else match t.table i with
      | [] => nextBucket t visits (i + 1)
      | _ :: _ => some (i, true)

def setVal [DecidableEq K] (key : K) (val : V) : List (K × V) → List (K × V)
  | [] => []
  | e :: l => if e.1 = key then (e.1, val) :: l else e :: setVal key val l

namespace Dict

def count (d : Dict K V) : ℕ := (d.ht 0).count + (d.ht 1).count

def used (d : Dict K V) : ℕ := ((d.ht 0).used + (d.ht 1).used) % 2 ^ 64

def dictExpand (d : Dict K V) (size : ℕ) : Dict K V × Bool :=
  let realsize := dictNextPower size
  if size < (d.ht 0).used ∨ realsize = (d.ht 0).size then (d, false)
  else if (d.ht 0).size = 0 then ({ d with ht := update d.ht 0 { size := realsize } }, true)
  else ({ ht := update d.ht 1 { size := realsize }, rehashidx := some 0 }, true)

def dictExpandIfNeeded (canResize : Bool) (ratio : ℕ) (d : Dict K V) : Dict K V × Bool :=
  if d.rehashidx.isSome then (d, true)
  else if (d.ht 0).size = 0 then d.dictExpand 4
  else if (d.ht 0).size ≤ (d.ht 0).used ∧ (canResize ∨ ratio < (d.ht 0).used / (d.ht 0).size) then
    d.dictExpand ((d.ht 0).used * 2 % 2 ^ 64)
  else (d, true)

def finish (d : Dict K V) : Dict K V :=
  if (d.ht 0).used = 0 then { ht := update (fun _ => d.ht 1) 1 {}, rehashidx := none } else d

variable (hash : K → UInt64)

def chain (d : Dict K V) (t : Fin 2) (key : K) : List (K × V) := (d.ht t).table ((d.ht t).idx (hash key))

def setChain (d : Dict K V) (t : Fin 2) (key : K) (l : List (K × V)) (used : ℕ) : Dict K V :=
  { d with
    ht := update d.ht t
      { d.ht t with table := update (d.ht t).table ((d.ht t).idx (hash key)) l, used := used } }

def moveEntry (d : Dict K V) (de : K × V) : Dict K V :=
  let d := d.setChain hash 1 de.1 (de :: d.chain hash 1 de.1) (decr (d.ht 1).used)
  { d with ht := update d.ht 0 { d.ht 0 with used := decr (d.ht 0).used } }

def moveEntries (d : Dict K V) (l : List (K × V)) : Dict K V := l.foldl (moveEntry hash) d

def clearBucket (d : Dict K V) (i : ℕ) : Dict K V :=
  { ht := update d.ht 0 { d.ht 0 with table := update (d.ht 0).table i [] }
    rehashidx := some (i + 1) }

def rehashStep (d : Dict K V) : Option (Dict K V) :=
  match d.rehashidx with
  | none => some d
  | some i =>
    if (d.ht 0).used = 0 then some d.finish
    else (nextBucket (d.ht 0) 10 i).map fun
      | (i, false) => { d with rehashidx := some i }
      | (i, true) => (((d.moveEntries hash ((d.ht 0).table i)).clearBucket i)).finish

variable [DecidableEq K]

def holder (d : Dict K V) (key : K) : Option (Fin 2) :=
  if (d.chain hash 0 key).any (·.1 = key) then some 0
  else if d.rehashidx.isSome && (d.chain hash 1 key).any (·.1 = key) then some 1
  else none

inductive AddRaw (K V : Type*) where
  | added (d : Dict K V)
  | existing (d : Dict K V) (t : Fin 2)
  | failed (d : Dict K V)

def addEntry (canResize : Bool) (ratio : ℕ) (d : Dict K V) (key : K) (val : V) : AddRaw K V :=
  match d.dictExpandIfNeeded canResize ratio with
  | (d, false) => .failed d
  | (d, true) =>
    match d.holder hash key with
    | some t => .existing d t
    | none =>
      let t := if d.rehashidx.isSome then 1 else 0
      .added (d.setChain hash t key ((key, val) :: d.chain hash t key) (incr (d.ht t).used))

def dictAddRaw (canResize : Bool) (ratio : ℕ) (d : Dict K V) (key : K) (val : V) : Option (AddRaw K V) :=
  (d.rehashStep hash).map fun d => d.addEntry hash canResize ratio key val

def dictAdd (canResize : Bool) (ratio : ℕ) (d : Dict K V) (key : K) (val : V) : Option (Dict K V × Bool) :=
  (d.dictAddRaw hash canResize ratio key val).map fun
    | .added d => (d, true)
    | .existing d _ => (d, false)
    | .failed d => (d, false)

def setEntry (d : Dict K V) (t : Fin 2) (key : K) (val : V) : Dict K V :=
  d.setChain hash t key (setVal key val (d.chain hash t key)) (d.ht t).used

def dictReplace (canResize : Bool) (ratio : ℕ) (d : Dict K V) (key : K) (val : V) : Option (Dict K V) :=
  (d.dictAddRaw hash canResize ratio key val).bind fun
    | .added d => some d
    | .existing d t => some (d.setEntry hash t key val)
    | .failed _ => none

def value (d : Dict K V) (key : K) : Option V :=
  (d.holder hash key).bind fun t => ((d.chain hash t key).find? (·.1 = key)).map snd

def dictFind (d : Dict K V) (key : K) : Option (Dict K V × Option V) :=
  if d.used = 0 then some (d, none) else (d.rehashStep hash).map fun d => (d, d.value hash key)

def unlink (d : Dict K V) (key : K) : Dict K V :=
  match d.holder hash key with
  | some t => d.setChain hash t key ((d.chain hash t key).eraseP (·.1 = key)) (decr (d.ht t).used)
  | none => d

def dictDelete (d : Dict K V) (key : K) : Option (Dict K V) :=
  if (d.ht 0).used = 0 ∧ (d.ht 1).used = 0 then some d else (d.rehashStep hash).map fun d => d.unlink hash key

end Dict

/-! ### The system -/

inductive Event (K V : Type*) where
  | add (key : K) (val : V)
  | replace (key : K) (val : V)
  | find (key : K)
  | delete (key : K)

structure System (K V : Type*) where
  dict : Dict K V := {}
  latest : K → Option V := fun _ => none

section System

variable [DecidableEq K] (hash : K → UInt64) (canResize : Bool) (ratio : ℕ)

def System.step (s : System K V) : Event K V → Option (System K V)
  | .add key val => (s.dict.dictAdd hash canResize ratio key val).map fun r =>
    ⟨r.1, if r.2 then update s.latest key (some val) else s.latest⟩
  | .replace key val => (s.dict.dictReplace hash canResize ratio key val).map fun d =>
    ⟨d, update s.latest key (some val)⟩
  | .find key => (s.dict.dictFind hash key).map fun r => ⟨r.1, s.latest⟩
  | .delete key => (s.dict.dictDelete hash key).map fun d => ⟨d, update s.latest key none⟩

def Right (s : System K V) (e : Event K V) : Prop :=
  (∃ s', s.step hash canResize ratio e = some s' ∧ s'.dict.used = s'.dict.count) ∧
    ∀ key, e = .find key → (s.dict.dictFind hash key).map snd = some (s.latest key)

def Dict.moving (d : Dict K V) : List (K × V) :=
  match d.rehashidx with
  | none => []
  | some i =>
    if (d.ht 0).used = 0 then []
    else match nextBucket (d.ht 0) 10 i with
      | some (i, true) => (d.ht 0).table i
      | _ => []

end System

/-! ### Tables and counters -/

theorem cast_incr (used : ℕ) : (incr used : ℤ) = (used + 1) % 2 ^ 64 := by
  rw [incr]
  omega

theorem cast_decr (used : ℕ) : (decr used : ℤ) = (used - 1) % 2 ^ 64 := by
  rw [decr]
  omega

theorem Dictht.idx_lt {t : Dictht K V} (h : 0 < t.size) (hash : UInt64) : t.idx hash < t.size :=
  lt_of_le_of_lt Nat.and_le_right (Nat.sub_lt h Nat.one_pos)

theorem Dictht.count_used (t : Dictht K V) (used : ℕ) : Dictht.count { t with used := used } = t.count := rfl

theorem Dictht.count_update {t : Dictht K V} {i : ℕ} (h : i < t.size) (l : List (K × V)) (used : ℕ) :
    Dictht.count { t with table := update t.table i l, used := used } + (t.table i).length =
      t.count + l.length := by
  have hmem := Finset.mem_range.2 h
  have hrest : ∑ j ∈ (Finset.range t.size).erase i, (update t.table i l j).length =
      ∑ j ∈ (Finset.range t.size).erase i, (t.table j).length :=
    Finset.sum_congr rfl fun j hj => by rw [update_of_ne (Finset.ne_of_mem_erase hj)]
  have hnew := Finset.add_sum_erase _ (fun j => (update t.table i l j).length) hmem
  have hold := Finset.add_sum_erase _ (fun j => (t.table j).length) hmem
  rw [update_self, hrest] at hnew
  rw [count, count, ← hnew, ← hold]
  omega

namespace Dict

structure Shaped (d : Dict K V) : Prop where
  null : ∀ t, (d.ht t).size = 0 → d.ht t = {}
  rehash : d.rehashidx.isSome = true → 0 < (d.ht 0).size ∧ 0 < (d.ht 1).size
  rest : d.rehashidx.isSome = false → d.ht 1 = {}

def Counted (d : Dict K V) (z : Fin 2 → ℤ) : Prop :=
  ∀ t, ((d.ht t).used : ℤ) = ((d.ht t).count + z t) % 2 ^ 64

variable {hash : K → UInt64} {d : Dict K V} {z : Fin 2 → ℤ} {t : Fin 2}

variable {key : K} {l : List (K × V)} {used : ℕ}

theorem ht_setChain_self : (d.setChain hash t key l used).ht t =
    { d.ht t with table := update (d.ht t).table ((d.ht t).idx (hash key)) l, used := used } :=
  update_self ..

theorem ht_setChain_ne {t' : Fin 2} (ht : t' ≠ t) : (d.setChain hash t key l used).ht t' = d.ht t' :=
  update_of_ne ht ..

theorem Shaped.size_pos (h : d.Shaped) (hne : d.chain hash t key ≠ []) : 0 < (d.ht t).size := by
  rw [Nat.pos_iff_ne_zero]
  intro hsize
  rw [chain, h.null t hsize] at hne
  exact hne rfl

theorem Shaped.chain_nil (h : d.Shaped) (hcount : (d.ht t).count = 0) (key : K) : d.chain hash t key = [] := by
  by_contra hne
  refine hne (length_eq_zero_iff.1 (Finset.sum_eq_zero_iff.1 hcount _ ?_))
  exact Finset.mem_range.2 (Dictht.idx_lt (h.size_pos hne) _)

theorem Shaped.setChain (h : d.Shaped) (hsize : 0 < (d.ht t).size) :
    (d.setChain hash t key l used).Shaped := by
  have hsizes (t' : Fin 2) : ((d.setChain hash t key l used).ht t').size = (d.ht t').size := by
    by_cases ht : t' = t
    · rw [ht, ht_setChain_self]
    · rw [ht_setChain_ne ht]
  refine ⟨fun t' ht' => ?_, fun hr => ?_, fun hr => ?_⟩
  · rw [hsizes] at ht'
    have ht : t' ≠ t := by
      rintro rfl
      exact hsize.ne' ht'
    exact (ht_setChain_ne ht).trans (h.null t' ht')
  · rw [hsizes, hsizes]
    exact h.rehash hr
  · have ht : 1 ≠ t := by
      rintro rfl
      rw [h.rest hr] at hsize
      exact hsize.ne rfl
    exact (ht_setChain_ne ht).trans (h.rest hr)

theorem Counted.setChain (h : d.Counted z) (hsize : 0 < (d.ht t).size)
    (hused : (used : ℤ) = ((d.ht t).used + (l.length - (d.chain hash t key).length)) % 2 ^ 64) :
    (d.setChain hash t key l used).Counted z := by
  intro t'
  by_cases ht : t' = t
  · subst ht
    have hcount := Dictht.count_update (Dictht.idx_lt hsize (hash key)) l used
    have := h t'
    rw [chain] at hused
    rw [ht_setChain_self]
    dsimp only at hused ⊢
    omega
  · rw [ht_setChain_ne ht]
    exact h t'

theorem chain_setChain_self : (d.setChain hash t key l used).chain hash t key = l := by
  rw [chain, ht_setChain_self]
  exact update_self ..

theorem chain_setChain_ne {t' : Fin 2} (ht : t' ≠ t) (k : K) :
    (d.setChain hash t key l used).chain hash t' k = d.chain hash t' k := by
  rw [chain, ht_setChain_ne ht, chain]

theorem chain_setChain (hash : K → UInt64) (d : Dict K V) (t : Fin 2) (key : K) (l : List (K × V)) (used : ℕ) (k : K) :
    (d.setChain hash t key l used).chain hash t k = l ∧ d.chain hash t k = d.chain hash t key ∨
      (d.setChain hash t key l used).chain hash t k = d.chain hash t k := by
  rw [chain, chain, chain, ht_setChain_self]
  by_cases hb : (d.ht t).idx (hash k) = (d.ht t).idx (hash key)
  · refine .inl ⟨?_, congrArg _ hb⟩
    exact (congrArg _ hb).trans (update_self ..)
  · exact .inr (update_of_ne hb ..)

/-! ### Growing and rehashing -/

structure Expanded (d d' : Dict K V) : Prop where
  shaped : d'.Shaped
  chain : ∀ (hash : K → UInt64) t k, d'.chain hash t k = d.chain hash t k
  counted : ∀ z, d.Counted z → d'.Counted z
  early : d'.rehashidx = d.rehashidx ∧ d'.ht 0 = d.ht 0 ∨ d'.rehashidx = some 0 ∨ d'.rehashidx = none

theorem Counted.update_empty (h : d.Counted z) (ht : d.ht t = {}) (size : ℕ) (r : Option ℕ) :
    Counted { ht := update d.ht t { size := size }, rehashidx := r } z := by
  intro t'
  by_cases htt : t' = t
  · subst htt
    have := h t'
    rw [ht] at this
    rw [show ({ ht := _, rehashidx := r } : Dict K V).ht t' = { size := size } from update_self ..]
    rw [this, Dictht.count, Dictht.count]
    simp
  · rw [show ({ ht := _, rehashidx := r } : Dict K V).ht t' = d.ht t' from update_of_ne htt ..]
    exact h t'

theorem chain_update_empty (ht : d.ht t = {}) (size : ℕ) (r : Option ℕ) (t' : Fin 2) (k : K) :
    chain hash { ht := update d.ht t { size := size }, rehashidx := r } t' k = d.chain hash t' k := by
  by_cases htt : t' = t
  · subst htt
    rw [chain, chain, ht]
    dsimp only
    rw [update_self]
  · rw [chain, chain]
    dsimp only
    rw [update_of_ne htt]

theorem le_doubleUntil (size fuel i : ℕ) : i ≤ doubleUntil size fuel i := by
  induction fuel generalizing i with
  | zero => exact le_rfl
  | succ fuel ih =>
    rw [doubleUntil]
    split
    · exact le_rfl
    · exact le_trans (Nat.le_mul_of_pos_right i two_pos) (ih _)

theorem size_le_doubleUntil {size fuel i : ℕ} (h : size ≤ i * 2 ^ fuel) : size ≤ doubleUntil size fuel i := by
  induction fuel generalizing i with
  | zero => rwa [pow_zero, mul_one] at h
  | succ fuel ih =>
    rw [doubleUntil]
    split
    · next hle => exact hle
    · refine ih ?_
      rwa [pow_succ', ← mul_assoc] at h

theorem dictNextPower_pos (size : ℕ) : 0 < dictNextPower size := by
  rw [dictNextPower]
  split
  · decide
  · exact lt_of_lt_of_le (by decide) (le_doubleUntil ..)

theorem lt_dictNextPower {u : ℕ} (hpos : 0 < u) (hlt : u < 2 ^ 63) : u < dictNextPower (u * 2) := by
  rw [dictNextPower]
  split
  · exact hlt
  · have : u * 2 ≤ doubleUntil (u * 2) 62 4 := size_le_doubleUntil (by omega)
    omega

theorem Shaped.dictExpand (h : d.Shaped) (hr : d.rehashidx.isSome = false) (size : ℕ) :
    Expanded d (d.dictExpand size).1 ∧ ((d.dictExpand size).2 = true → 0 < ((d.dictExpand size).1.ht 0).size) := by
  rw [isSome_eq_false_iff, isNone_iff_eq_none] at hr
  have hpos := dictNextPower_pos size
  rw [Dict.dictExpand]
  split
  · exact ⟨⟨h, fun _ _ _ => rfl, fun _ => id, .inl ⟨rfl, rfl⟩⟩, fun hf => by cases hf⟩
  · split
    · next hsize =>
      have hempty := h.null 0 hsize
      refine ⟨⟨⟨Fin.forall_fin_two.2 ⟨fun h0 => (hpos.ne' h0).elim, h.null 1⟩, fun h' => ?_, fun _ => ?_⟩,
        fun _ => chain_update_empty hempty _ _, fun _ hz => hz.update_empty hempty _ _, .inr (.inr hr)⟩, fun _ => hpos⟩
      · dsimp only at h'
        rw [hr] at h'
        cases h'
      · exact h.rest (by rw [hr]; rfl)
    · next hsize =>
      have hempty := h.rest (by rw [hr]; rfl)
      have hpos0 := Nat.pos_of_ne_zero hsize
      exact ⟨⟨⟨Fin.forall_fin_two.2 ⟨h.null 0, fun h1 => (hpos.ne' h1).elim⟩, fun _ => ⟨hpos0, hpos⟩,
        fun h' => by cases h'⟩, fun _ => chain_update_empty hempty _ _, fun _ hz => hz.update_empty hempty _ _,
        .inr (.inl rfl)⟩, fun _ => hpos0⟩

theorem Shaped.dictExpandIfNeeded (h : d.Shaped) (canResize : Bool) (ratio : ℕ) :
    Expanded d (d.dictExpandIfNeeded canResize ratio).1 ∧
      ((d.dictExpandIfNeeded canResize ratio).2 = true →
        0 < ((d.dictExpandIfNeeded canResize ratio).1.ht 0).size) := by
  have hsame : Expanded d d := ⟨h, fun _ _ _ => rfl, fun _ => id, .inl ⟨rfl, rfl⟩⟩
  rw [Dict.dictExpandIfNeeded]
  split
  · next hr => exact ⟨hsame, fun _ => (h.rehash hr).1⟩
  · next hr =>
    rw [Bool.not_eq_true] at hr
    split
    · exact h.dictExpand hr 4
    · next hsize =>
      split
      · exact h.dictExpand hr _
      · exact ⟨hsame, fun _ => Nat.pos_of_ne_zero hsize⟩

theorem dictExpandIfNeeded_ok (h : d.Shaped) (hused : (d.ht 0).used < 2 ^ 63) (canResize : Bool) (ratio : ℕ) :
    (d.dictExpandIfNeeded canResize ratio).2 = true := by
  rw [dictExpandIfNeeded]
  split
  · rfl
  · split
    · next hsize =>
      rw [dictExpand, h.null 0 hsize]
      rfl
    · next hsize =>
      split
      · next hneed =>
        have hlt := lt_dictNextPower (lt_of_lt_of_le (Nat.pos_of_ne_zero hsize) hneed.1) hused
        rw [dictExpand, Nat.mod_eq_of_lt (by omega), if_neg (by omega), if_neg hsize]
      · rfl

def Early (d : Dict K V) : Prop := ∀ i, d.rehashidx = some i → ∀ j < i, (d.ht 0).table j = []

theorem Early.expanded (h : d.Early) {d' : Dict K V} (hd : Expanded d d') : d'.Early := by
  intro i hi j hj
  rcases hd.early with ⟨hr, ht⟩ | hr | hr
  · rw [ht]
    exact h i (hr ▸ hi) j hj
  · rw [hr] at hi
    cases hi
    exact absurd hj (Nat.not_lt_zero j)
  · rw [hr] at hi
    cases hi

theorem Early.setChain (h : d.Early) (hne : t = 0 → d.rehashidx.isSome = true → d.chain hash t key ≠ []) :
    (d.setChain hash t key l used).Early := by
  intro i hi j hj
  by_cases ht : 0 = t
  · subst ht
    have hempty := h i hi j hj
    rw [ht_setChain_self]
    refine (update_of_ne ?_ ..).trans hempty
    rintro rfl
    exact hne rfl (by rw [show d.rehashidx = some i from hi]; rfl) hempty
  · rw [ht_setChain_ne ht]
    exact h i hi j hj

theorem nextBucket_spec {ht : Dictht K V} (n : ℕ) {i j : ℕ} (hearly : ∀ j < i, ht.table j = []) (hj : j < ht.size)
    (hne : ht.table j ≠ []) : ∃ i' b, nextBucket ht n i = some (i', b) ∧ (∀ j < i', ht.table j = []) ∧
      (b = true → i' < ht.size ∧ ht.table i' ≠ []) := by
  induction n generalizing i with
  | zero => exact ⟨i, false, rfl, hearly, fun h => by cases h⟩
  | succ n ih =>
    have hij : i ≤ j := not_lt.1 fun h => hne (hearly j h)
    rw [nextBucket, if_neg (by omega)]
    cases htable : ht.table i with
    | nil =>
      refine ih fun j' hj' => ?_
      rcases Nat.lt_succ_iff_lt_or_eq.1 hj' with hj' | rfl
      · exact hearly j' hj'
      · exact htable
    | cons e l => exact ⟨i, true, rfl, hearly, fun _ => ⟨by omega, by rw [htable]; exact cons_ne_nil _ _⟩⟩

theorem Shaped.of_rehash (h0 : 0 < (d.ht 0).size) (h1 : 0 < (d.ht 1).size) (hr : d.rehashidx.isSome = true) :
    d.Shaped :=
  ⟨Fin.forall_fin_two.2 ⟨fun h => (h0.ne' h).elim, fun h => (h1.ne' h).elim⟩, fun _ => ⟨h0, h1⟩,
    fun h => by rw [hr] at h; cases h⟩

theorem moveEntry_spec (hash : K → UInt64) (de : K × V) (h1 : 0 < (d.ht 1).size) (hz : d.Counted z) :
    (d.moveEntry hash de).Counted (fun t => z t - (t.val + 1)) ∧ (d.moveEntry hash de).rehashidx = d.rehashidx ∧
      ((d.moveEntry hash de).ht 0).table = (d.ht 0).table ∧
      ((d.moveEntry hash de).ht 0).size = (d.ht 0).size ∧ 0 < ((d.moveEntry hash de).ht 1).size := by
  have ht0 : (d.moveEntry hash de).ht 0 = { d.ht 0 with used := decr (d.ht 0).used } := by
    rw [moveEntry]
    dsimp only
    rw [update_self, ht_setChain_ne (by decide)]
  have ht1 : (d.moveEntry hash de).ht 1 =
      { d.ht 1 with
        table := update (d.ht 1).table ((d.ht 1).idx (hash de.1)) (de :: d.chain hash 1 de.1)
        used := decr (d.ht 1).used } := by
    rw [moveEntry]
    dsimp only
    rw [update_of_ne (by decide), ht_setChain_self]
  rw [ht0, ht1]
  refine ⟨Fin.forall_fin_two.2 ⟨?_, ?_⟩, rfl, rfl, rfl, h1⟩
  · have := hz 0
    rw [ht0, Dictht.count_used]
    simp only [Fin.val_zero, Nat.cast_zero, cast_decr]
    omega
  · have := hz 1
    have hcount := Dictht.count_update (Dictht.idx_lt h1 (hash de.1)) (de :: d.chain hash 1 de.1)
      (decr (d.ht 1).used)
    rw [length_cons] at hcount
    change _ + (d.chain hash 1 de.1).length = _ at hcount
    rw [ht1]
    simp only [Fin.val_one, Nat.cast_one, cast_decr]
    omega

theorem moveEntries_spec (hash : K → UInt64) (l : List (K × V)) (h1 : 0 < (d.ht 1).size) (hz : d.Counted z) :
    (d.moveEntries hash l).Counted (fun t => z t - (t.val + 1) * l.length) ∧
      (d.moveEntries hash l).rehashidx = d.rehashidx ∧
      ((d.moveEntries hash l).ht 0).table = (d.ht 0).table ∧
      ((d.moveEntries hash l).ht 0).size = (d.ht 0).size ∧ 0 < ((d.moveEntries hash l).ht 1).size := by
  induction l generalizing d z with
  | nil =>
    refine ⟨fun t => (hz t).trans (congrArg (fun x => (_ + x) % _) ?_), rfl, rfl, rfl, h1⟩
    dsimp only
    rw [length_nil, Nat.cast_zero, mul_zero, sub_zero]
  | cons de l ih =>
    obtain ⟨hz', hr', htable', hsize', h1'⟩ := moveEntry_spec hash de h1 hz
    obtain ⟨hz'', hr, htable, hsize, h1⟩ := ih h1' hz'
    refine ⟨fun t => ?_, hr.trans hr', htable.trans htable', hsize.trans hsize', h1⟩
    refine (hz'' t).trans (congrArg (fun x => (_ + x) % _) ?_)
    rw [length_cons]
    push_cast
    ring

theorem Shaped.finish (h0 : 0 < (d.ht 0).size) (h1 : 0 < (d.ht 1).size) (hr : d.rehashidx.isSome = true) :
    d.finish.Shaped := by
  rw [Dict.finish]
  split
  · exact ⟨Fin.forall_fin_two.2 ⟨fun h => (h1.ne' h).elim, fun _ => rfl⟩, fun h => (by cases h), fun _ => rfl⟩
  · exact .of_rehash h0 h1 hr

theorem Counted.finish (hz : d.Counted z) (h0 : z 0 = 0) : ∃ z', d.finish.Counted z' ∧ z' 0 + z' 1 = z 1 := by
  rw [Dict.finish]
  split
  · refine ⟨update (fun _ => z 1) 1 0, Fin.forall_fin_two.2 ⟨hz 1, ?_⟩, add_zero _⟩
    dsimp only
    rw [update_self, update_self, Dictht.count, Finset.range_zero, Finset.sum_empty]
    rfl
  · exact ⟨z, hz, by rw [h0, zero_add]⟩

theorem Counted.clearBucket (hz : d.Counted z) {i : ℕ} (hi : i < (d.ht 0).size) :
    (d.clearBucket i).Counted fun t => z t + if t = 0 then ((d.ht 0).table i).length else 0 := by
  have hcount := Dictht.count_update hi [] (d.ht 0).used
  have := hz 0
  refine Fin.forall_fin_two.2 ⟨?_, ?_⟩
  · rw [length_nil] at hcount
    rw [Dict.clearBucket]
    dsimp only
    rw [update_self, if_pos rfl]
    dsimp only
    omega
  · rw [Dict.clearBucket]
    dsimp only
    rw [update_of_ne one_ne_zero, if_neg one_ne_zero, Nat.cast_zero, add_zero]
    exact hz 1

theorem exists_nextBucket (hz : d.Counted 0) (hearly : d.Early) {i : ℕ} (hr : d.rehashidx = some i)
    (hused : (d.ht 0).used ≠ 0) : ∃ i' b, nextBucket (d.ht 0) 10 i = some (i', b) ∧
      (∀ j < i', (d.ht 0).table j = []) ∧ (b = true → i' < (d.ht 0).size ∧ (d.ht 0).table i' ≠ []) := by
  obtain ⟨j, hj, hne⟩ : ∃ j < (d.ht 0).size, (d.ht 0).table j ≠ [] := by
    by_contra! hall
    have hzero : (d.ht 0).count = 0 :=
      Finset.sum_eq_zero fun j hj => by rw [hall j (Finset.mem_range.1 hj), length_nil]
    have := hz 0
    rw [hzero] at this
    exact hused (Int.natCast_eq_zero.1 this)
  exact nextBucket_spec 10 (hearly i hr) hj hne

variable (hash) in
theorem rehashStep_moving (h : d.Shaped) (hz : d.Counted 0) (hearly : d.Early) (hmove : d.moving ≠ []) :
    (d.ht 0).used ≠ 0 ∧ d.moving.length ≤ (d.ht 0).count ∧
      ∃ d' z, d.rehashStep hash = some d' ∧ d'.Shaped ∧ d'.Counted z ∧ z 0 + z 1 = -2 * d.moving.length := by
  rw [moving] at hmove ⊢
  rw [rehashStep]
  cases hr : d.rehashidx with
  | none =>
    rw [hr] at hmove
    exact (hmove rfl).elim
  | some i =>
    obtain ⟨h0, h1⟩ := h.rehash (by rw [hr]; rfl)
    rw [hr] at hmove
    dsimp only at hmove ⊢
    split at hmove
    · exact (hmove rfl).elim
    · next hused =>
      obtain ⟨i', b, hb, -, hfound⟩ := exists_nextBucket hz hearly hr hused
      rw [hb] at hmove ⊢
      rw [if_neg hused, if_neg hused]
      cases b with
      | false => exact (hmove rfl).elim
      | true =>
        obtain ⟨hi', -⟩ := hfound rfl
        obtain ⟨hz1, hr1, htable, hsize, h1'⟩ := moveEntries_spec hash ((d.ht 0).table i') h1 hz
        have hz2 := hz1.clearBucket (hsize ▸ hi')
        rw [htable] at hz2
        obtain ⟨z, hz3, hsum⟩ := hz2.finish (by simp)
        refine ⟨hused, ?_, _, z, rfl, .finish ?_ h1' rfl, hz3, hsum.trans ?_⟩
        · exact Finset.single_le_sum (f := fun i => ((d.ht 0).table i).length) (fun _ _ => Nat.zero_le _)
            (Finset.mem_range.2 hi')
        · exact lt_of_lt_of_eq h0 hsize.symm
        · simp

variable (hash) in
theorem rehashStep_idle (h : d.Shaped) (hz : d.Counted 0) (hearly : d.Early) (hcount : d.count < 2 ^ 63)
    (hmove : d.moving = []) :
    ∃ d', d.rehashStep hash = some d' ∧ d'.Shaped ∧ d'.Counted 0 ∧ d'.Early ∧ d'.count = d.count ∧
      ∀ k, d'.chain hash 0 k ++ d'.chain hash 1 k = d.chain hash 0 k ++ d.chain hash 1 k := by
  rw [moving] at hmove
  rw [rehashStep]
  cases hr : d.rehashidx with
  | none => exact ⟨d, rfl, h, hz, hearly, rfl, fun _ => rfl⟩
  | some i =>
    obtain ⟨h0, h1⟩ := h.rehash (by rw [hr]; rfl)
    rw [hr] at hmove
    dsimp only at hmove ⊢
    by_cases hused : (d.ht 0).used = 0
    · have hcount0 : (d.ht 0).count = 0 := by
        have := hz 0
        rw [count] at hcount
        rw [hused, Pi.zero_apply, add_zero] at this
        omega
      rw [if_pos hused]
      refine ⟨_, rfl, .finish h0 h1 (by rw [hr]; rfl), ?_⟩
      rw [Dict.finish, if_pos hused]
      refine ⟨Fin.forall_fin_two.2 ⟨hz 1, rfl⟩, fun i hi => (by cases hi), ?_, fun k => ?_⟩
      · rw [count, count, hcount0, zero_add]
        exact add_zero _
      · rw [h.chain_nil hcount0, nil_append]
        exact append_nil _
    · obtain ⟨i', b, hb, hearly', hfound⟩ := exists_nextBucket hz hearly hr hused
      rw [if_neg hused, hb] at hmove
      rw [if_neg hused, hb]
      cases b with
      | true => exact ((hfound rfl).2 hmove).elim
      | false =>
        refine ⟨_, rfl, .of_rehash h0 h1 rfl, hz, fun i hi => ?_, rfl, fun _ => rfl⟩
        cases hi
        exact hearly'

/-! ### The calls after the rehash step -/

section Calls

variable [DecidableEq K] {canResize : Bool} {ratio : ℕ} {val : V} {latest : K → Option V}

theorem length_setVal (key : K) (val : V) (l : List (K × V)) : (setVal key val l).length = l.length := by
  induction l with
  | nil => rfl
  | cons e l ih =>
    rw [setVal]
    split
    · rfl
    · rw [length_cons, length_cons, ih]

theorem pick_setVal_self {e : K × V} (l : List (K × V)) (h : pick fst key l = [e]) :
    pick fst key (setVal key val l) = [(key, val)] := by
  induction l with
  | nil => cases h
  | cons e' l ih =>
    rw [setVal]
    split
    · next hkey =>
      rw [pick_cons_self hkey] at h
      rw [pick_cons_self (a := (e'.1, val)) hkey, (cons.inj h).2, hkey]
    · next hkey =>
      rw [pick_cons_ne hkey] at h
      rw [pick_cons_ne hkey, ih h]

theorem pick_setVal_ne {k : K} (hk : k ≠ key) (l : List (K × V)) :
    pick fst k (setVal key val l) = pick fst k l := by
  induction l with
  | nil => rfl
  | cons e l ih =>
    rw [setVal]
    split
    · next hkey =>
      have hne : e.1 ≠ k := fun h => hk (h.symm.trans hkey)
      rw [pick_cons_ne (a := (e.1, val)) hne, pick_cons_ne hne]
    · rw [pick, pick, filter_cons, filter_cons]
      exact congrArg (fun l => if decide (e.1 = k) = true then e :: l else l) ih

theorem any_of_holder (h : d.holder hash key = some t) : (d.chain hash t key).any (·.1 = key) = true := by
  rw [holder] at h
  split at h
  · next hany => exact some.inj h ▸ hany
  · split at h
    · next hany =>
      rw [Bool.and_eq_true] at hany
      exact some.inj h ▸ hany.2
    · cases h

theorem Shaped.size_holder (h : d.Shaped) (ht : d.holder hash key = some t) :
    0 < (d.ht t).size ∧ d.chain hash t key ≠ [] := by
  have hne : d.chain hash t key ≠ [] := by
    intro hnil
    have hany := any_of_holder ht
    rw [hnil] at hany
    cases hany
  exact ⟨h.size_pos hne, hne⟩

theorem Counted.setEntry (hz : d.Counted z) (hsize : 0 < (d.ht t).size) : (d.setEntry hash t key val).Counted z := by
  refine hz.setChain hsize ?_
  have := hz t
  rw [length_setVal]
  omega

theorem Counted.addEntry (hz : d.Counted z) (h : d.Shaped) {r : AddRaw K V}
    (hr : d.addEntry hash canResize ratio key val = r) :
    match r with
    | .added d' => d'.Counted z
    | .existing d' t => d'.Counted z ∧ 0 < (d'.ht t).size
    | .failed d' => d'.Counted z := by
  obtain ⟨hexp, hsize⟩ := h.dictExpandIfNeeded canResize ratio
  rcases hd' : d.dictExpandIfNeeded canResize ratio with ⟨d', ok⟩
  rw [Dict.addEntry, hd'] at hr
  rw [hd'] at hexp hsize
  have hz' : d'.Counted z := hexp.counted z hz
  cases ok with
  | false => exact hr ▸ hz'
  | true =>
    dsimp only at hr
    split at hr
    · next t ht => exact hr ▸ ⟨hz', (hexp.shaped.size_holder ht).1⟩
    · subst hr
      refine hz'.setChain ?_ ?_
      · split
        · next hre => exact (hexp.shaped.rehash hre).2
        · exact hsize rfl
      · rw [length_cons, cast_incr]
        omega

theorem Counted.unlink (hz : d.Counted z) (h : d.Shaped) : (d.unlink hash key).Counted z := by
  rw [Dict.unlink]
  split
  · next t ht =>
    obtain ⟨hsize, hne⟩ := h.size_holder ht
    refine hz.setChain hsize ?_
    have := length_pos_iff.2 hne
    rw [length_eraseP, if_pos (any_of_holder ht), cast_decr]
    omega
  · exact hz

structure Good (hash : K → UInt64) (d : Dict K V) (latest : K → Option V) : Prop where
  shaped : d.Shaped
  counted : d.Counted 0
  early : d.Early
  holds : ∀ k, pick fst k (d.chain hash 0 k ++ d.chain hash 1 k) = ((latest k).map (k, ·)).toList

namespace Good

theorem expanded (h : d.Good hash latest) {d' : Dict K V} (hd : Expanded d d') : d'.Good hash latest :=
  ⟨hd.shaped, hd.counted 0 h.counted, h.early.expanded hd, fun k => by rw [hd.chain, hd.chain, h.holds]⟩

theorem used_eq (h : d.Good hash latest) (hcount : d.count < 2 ^ 63) (t : Fin 2) :
    (d.ht t).used = (d.ht t).count := by
  have := h.counted t
  have hle : (d.ht t).count ≤ d.count := by
    rw [count]
    fin_cases t
    · exact Nat.le_add_right ..
    · exact Nat.le_add_left ..
  rw [Pi.zero_apply, add_zero] at this
  omega

theorem holder_none (h : d.Good hash latest) (hnone : d.holder hash key = none) :
    latest key = none ∧ ∀ t, pick fst key (d.chain hash t key) = [] := by
  have hany (l : List (K × V)) (hl : ¬l.any (·.1 = key) = true) : pick fst key l = [] :=
    pick_eq_nil fun a ha hkey => hl (any_eq_true.2 ⟨a, ha, decide_eq_true hkey⟩)
  have hpick : ∀ t, pick fst key (d.chain hash t key) = [] := by
    rw [holder] at hnone
    split at hnone
    · cases hnone
    · next h0 =>
      split at hnone
      · cases hnone
      · next h1 =>
        refine Fin.forall_fin_two.2 ⟨hany _ h0, ?_⟩
        cases hr : d.rehashidx.isSome with
        | true => exact hany _ (by rwa [hr, Bool.true_and] at h1)
        | false =>
          rw [chain, h.shaped.rest hr]
          rfl
  have hholds := h.holds key
  rw [pick_append, hpick, hpick] at hholds
  refine ⟨?_, hpick⟩
  cases hl : latest key with
  | none => rfl
  | some v =>
    rw [hl] at hholds
    cases hholds

theorem holder_some (h : d.Good hash latest) (hsome : d.holder hash key = some t) :
    ∃ v, latest key = some v ∧ pick fst key (d.chain hash t key) = [(key, v)] ∧
      ∀ t' ≠ t, pick fst key (d.chain hash t' key) = [] := by
  have hne : pick fst key (d.chain hash t key) ≠ [] := by
    obtain ⟨a, ha, hkey⟩ := any_eq_true.1 (any_of_holder hsome)
    exact ne_nil_of_mem (mem_filter.2 ⟨ha, hkey⟩)
  have hholds := h.holds key
  rw [pick_append] at hholds
  cases hl : latest key with
  | none =>
    rw [hl] at hholds
    obtain ⟨h0, h1⟩ := append_eq_nil_iff.1 hholds
    fin_cases t
    · exact (hne h0).elim
    · exact (hne h1).elim
  | some v =>
    rw [hl] at hholds
    refine ⟨v, rfl, ?_⟩
    rcases append_eq_singleton_iff.1 hholds with ⟨h0, h1⟩ | ⟨h0, h1⟩
    · fin_cases t
      · exact (hne h0).elim
      · exact ⟨h1, Fin.forall_fin_two.2 ⟨fun _ => h0, fun h => (h rfl).elim⟩⟩
    · fin_cases t
      · exact ⟨h0, Fin.forall_fin_two.2 ⟨fun h => (h rfl).elim, fun _ => h1⟩⟩
      · exact (hne h1).elim

theorem setChain (h : d.Good hash latest) (hsize : 0 < (d.ht t).size)
    (hz : (d.setChain hash t key l used).Counted 0)
    (hne : t = 0 → d.rehashidx.isSome = true → d.chain hash t key ≠ [])
    (hother : ∀ k ≠ key, pick fst k l = pick fst k (d.chain hash t key))
    (hnil : ∀ t' ≠ t, pick fst key (d.chain hash t' key) = []) {v : Option V}
    (hl : pick fst key l = (v.map (key, ·)).toList) :
    (d.setChain hash t key l used).Good hash (update latest key v) := by
  refine ⟨h.shaped.setChain hsize, hz, h.early.setChain hne, fun k => ?_⟩
  rw [pick_append]
  by_cases hk : k = key
  · subst hk
    rw [update_self, ← hl]
    fin_cases t
    · rw [show ((⟨0, _⟩ : Fin 2)) = 0 from rfl, chain_setChain_self, chain_setChain_ne one_ne_zero, hnil 1 one_ne_zero,
        append_nil]
    · rw [show ((⟨1, _⟩ : Fin 2)) = 1 from rfl, chain_setChain_self, chain_setChain_ne zero_ne_one, hnil 0 zero_ne_one,
        nil_append]
  · have hpick (t' : Fin 2) : pick fst k ((d.setChain hash t key l used).chain hash t' k) =
        pick fst k (d.chain hash t' k) := by
      by_cases ht : t' = t
      · subst ht
        rcases chain_setChain hash d t' key l used k with ⟨hl, hsame⟩ | hsame
        · rw [hl, hother k hk, hsame]
        · rw [hsame]
      · rw [chain_setChain_ne ht]
    rw [update_of_ne hk, hpick, hpick, ← pick_append, h.holds]

theorem value_eq (h : d.Good hash latest) (key : K) : d.value hash key = latest key := by
  rw [value]
  cases ht : d.holder hash key with
  | none => exact (h.holder_none ht).1.symm
  | some t =>
    obtain ⟨v, hv, hpick, -⟩ := h.holder_some ht
    rw [bind_some, find_eq, hpick, hv]
    rfl

theorem unlink (h : d.Good hash latest) (key : K) :
    (d.unlink hash key).Good hash (update latest key none) := by
  have hz : (d.unlink hash key).Counted 0 := h.counted.unlink h.shaped
  rw [Dict.unlink] at hz ⊢
  cases ht : d.holder hash key with
  | none =>
    rw [← (h.holder_none ht).1, update_eq_self]
    exact h
  | some t =>
    obtain ⟨hsize, hne⟩ := h.shaped.size_holder ht
    obtain ⟨v, -, hpick, hnil⟩ := h.holder_some ht
    rw [ht] at hz
    refine h.setChain hsize hz (fun _ _ => hne) (fun k hk => pick_erase_ne hk _) hnil ?_
    rw [pick_erase_self, hpick]
    rfl

theorem setEntry (h : d.Good hash latest) (ht : d.holder hash key = some t) (val : V) :
    (d.setEntry hash t key val).Good hash (update latest key (some val)) := by
  obtain ⟨hsize, hne⟩ := h.shaped.size_holder ht
  obtain ⟨v, -, hpick, hnil⟩ := h.holder_some ht
  exact h.setChain hsize (h.counted.setEntry hsize) (fun _ _ => hne) (fun k hk => pick_setVal_ne hk _) hnil
    (pick_setVal_self _ hpick)

theorem addEntry (h : d.Good hash latest) (hcount : d.count < 2 ^ 63) (canResize : Bool) (ratio : ℕ) (key : K)
    (val : V) :
    (∃ d', d.addEntry hash canResize ratio key val = .added d' ∧
        d'.Good hash (update latest key (some val))) ∨
      ∃ d' t, d.addEntry hash canResize ratio key val = .existing d' t ∧ d'.Good hash latest ∧
        (d'.setEntry hash t key val).Good hash (update latest key (some val)) := by
  have hok : (d.dictExpandIfNeeded canResize ratio).2 = true := by
    refine dictExpandIfNeeded_ok h.shaped ?_ canResize ratio
    rw [h.used_eq hcount]
    exact lt_of_le_of_lt (Nat.le_add_right ..) hcount
  obtain ⟨hexp, hsize⟩ := h.shaped.dictExpandIfNeeded canResize ratio
  rcases hd' : d.dictExpandIfNeeded canResize ratio with ⟨d', ok⟩
  rw [hd'] at hok hexp hsize
  obtain rfl : ok = true := hok
  have h' : d'.Good hash latest := h.expanded hexp
  cases ht : d'.holder hash key with
  | some t =>
    refine .inr ⟨d', t, ?_, h', h'.setEntry ht val⟩
    rw [Dict.addEntry, hd']
    dsimp only
    rw [ht]
  | none =>
    set t : Fin 2 := if d'.rehashidx.isSome then 1 else 0 with hdt
    have hadd : d.addEntry hash canResize ratio key val =
        .added (d'.setChain hash t key ((key, val) :: d'.chain hash t key) (incr (d'.ht t).used)) := by
      rw [Dict.addEntry, hd']
      dsimp only
      rw [ht]
    have hpick := (h'.holder_none ht).2
    refine .inl ⟨_, hadd, h'.setChain ?_ (h.counted.addEntry h.shaped hadd) (fun h0 hre => ?_)
      (fun k hk => pick_cons_ne hk.symm _) (fun t' _ => hpick t') ?_⟩
    · rw [hdt]
      split
      · next hre => exact (h'.shaped.rehash hre).2
      · exact hsize rfl
    · rw [hdt, if_pos hre] at h0
      cases h0
    · rw [pick_cons_self (a := (key, val)) rfl, hpick]
      rfl

theorem rehashStep (h : d.Good hash latest) (hcount : d.count < 2 ^ 63) (hmove : d.moving = []) :
    ∃ d', d.rehashStep hash = some d' ∧ d'.Good hash latest ∧ d'.count = d.count := by
  obtain ⟨d', hd', hshaped, hz, hearly, hcount', hchain⟩ :=
    rehashStep_idle hash h.shaped h.counted h.early hcount hmove
  exact ⟨d', hd', ⟨hshaped, hz, hearly, fun k => by rw [hchain, h.holds]⟩, hcount'⟩

end Good

end Calls

end Dict

/-! ### Runs -/

section Runs

variable [DecidableEq K] {hash : K → UInt64} {canResize : Bool} {ratio : ℕ} {s s' : System K V} {e : Event K V}

def NoMove (s : System K V) (_ : Event K V) : Prop := s.dict.moving = []

instance [DecidableEq V] (s : System K V) (e : Event K V) : Decidable (NoMove s e) :=
  inferInstanceAs (Decidable (_ = []))

def Fits (hash : K → UInt64) (canResize : Bool) (ratio : ℕ) (s : System K V) (e : Event K V) : Prop :=
  s.dict.count < 2 ^ 63 ∧ ∀ s', s.step hash canResize ratio e = some s' → s'.dict.count < 2 ^ 63

instance (s : System K V) (e : Event K V) : Decidable (Fits hash canResize ratio s e) :=
  inferInstanceAs (Decidable (_ ∧ ∀ s' ∈ s.step hash canResize ratio e, s'.dict.count < 2 ^ 63))

def System.Sound (hash : K → UInt64) (s : System K V) : Prop := s.dict.Good hash s.latest

theorem used_eq_count (h : s.Sound hash) (hcount : s.dict.count < 2 ^ 63) : s.dict.used = s.dict.count := by
  rw [Dict.used, h.used_eq hcount, h.used_eq hcount]
  exact Nat.mod_eq_of_lt (hcount.trans (by decide))

theorem latest_of_empty (h : s.Sound hash) (hcount : s.dict.count = 0) (key : K) : s.latest key = none := by
  obtain ⟨h0, h1⟩ := Nat.add_eq_zero_iff.1 hcount
  have := h.holds key
  rw [h.shaped.chain_nil h0, h.shaped.chain_nil h1] at this
  cases hl : s.latest key with
  | none => rfl
  | some v =>
    rw [hl] at this
    cases this

theorem System.Sound.step (h : s.Sound hash) (hcount : s.dict.count < 2 ^ 63) (hmove : s.dict.moving = [])
    (canResize : Bool) (ratio : ℕ) (e : Event K V) :
    (∃ s', s.step hash canResize ratio e = some s' ∧ s'.Sound hash) ∧
      ∀ key, e = .find key → (s.dict.dictFind hash key).map snd = some (s.latest key) := by
  obtain ⟨d, hd, hgood, hcount'⟩ := h.rehashStep hcount hmove
  rw [← hcount'] at hcount
  cases e with
  | add key val =>
    refine ⟨?_, fun _ h => by cases h⟩
    rw [System.step, Dict.dictAdd, Dict.dictAddRaw, hd]
    rcases hgood.addEntry hcount canResize ratio key val with ⟨d', hd', hgood'⟩ | ⟨d', t, hd', hgood', -⟩
    · exact ⟨⟨d', update s.latest key (some val)⟩, by rw [map_some, hd']; rfl, hgood'⟩
    · exact ⟨⟨d', s.latest⟩, by rw [map_some, hd']; rfl, hgood'⟩
  | replace key val =>
    refine ⟨?_, fun _ h => by cases h⟩
    rw [System.step, Dict.dictReplace, Dict.dictAddRaw, hd]
    rcases hgood.addEntry hcount canResize ratio key val with ⟨d', hd', hgood'⟩ | ⟨d', t, hd', -, hgood'⟩
    · exact ⟨⟨d', update s.latest key (some val)⟩, by rw [map_some, hd']; rfl, hgood'⟩
    · exact ⟨⟨d'.setEntry hash t key val, update s.latest key (some val)⟩,
        by rw [map_some, hd']; rfl, hgood'⟩
  | find key =>
    rw [hcount'] at hcount
    by_cases hused : s.dict.used = 0
    · have hfind : s.dict.dictFind hash key = some (s.dict, none) := if_pos hused
      refine ⟨⟨s, by rw [System.step, hfind]; rfl, h⟩, fun _ he => ?_⟩
      cases he
      rw [hfind, latest_of_empty h (by rw [← used_eq_count h hcount, hused])]
      rfl
    · have hfind : s.dict.dictFind hash key = some (d, d.value hash key) := by
        rw [Dict.dictFind, if_neg hused, hd]
        rfl
      refine ⟨⟨⟨d, s.latest⟩, by rw [System.step, hfind]; rfl, hgood⟩, fun _ he => ?_⟩
      cases he
      rw [hfind, hgood.value_eq]
      rfl
  | delete key =>
    rw [hcount'] at hcount
    refine ⟨?_, fun _ h => by cases h⟩
    rw [System.step, Dict.dictDelete]
    split
    · next hused =>
      refine ⟨s, ?_, h⟩
      rw [h.used_eq hcount, h.used_eq hcount] at hused
      rw [← latest_of_empty h (Nat.add_eq_zero_iff.2 hused) key, update_eq_self]
      rfl
    · rw [hd]
      exact ⟨_, rfl, hgood.unlink key⟩

theorem exists_rehashStep (hused : (s.dict.ht 0).used ≠ 0) (hsum : s.dict.used ≠ 0)
    (h : s.step hash canResize ratio e = some s') :
    ∃ d, s.dict.rehashStep hash = some d ∧ (d.Shaped → ∀ z, d.Counted z → s'.dict.Counted z) := by
  cases e with
  | add key val =>
    obtain ⟨r, hr, rfl⟩ := map_eq_some_iff.1 h
    obtain ⟨a, ha, rfl⟩ := map_eq_some_iff.1 hr
    obtain ⟨d, hd, ha⟩ := map_eq_some_iff.1 ha
    refine ⟨d, hd, fun hshaped z hz => ?_⟩
    have := hz.addEntry hshaped ha
    cases a with
    | added d' => exact this
    | existing d' t => exact this.1
    | failed d' => exact this
  | replace key val =>
    obtain ⟨r, hr, rfl⟩ := map_eq_some_iff.1 h
    obtain ⟨a, ha, hr⟩ := Option.bind_eq_some_iff.1 hr
    obtain ⟨d, hd, ha⟩ := map_eq_some_iff.1 ha
    refine ⟨d, hd, fun hshaped z hz => ?_⟩
    have := hz.addEntry hshaped ha
    cases a with
    | added d' => exact some.inj hr ▸ this
    | existing d' t => exact some.inj hr ▸ this.1.setEntry this.2
    | failed d' => cases hr
  | find key =>
    obtain ⟨r, hr, rfl⟩ := map_eq_some_iff.1 h
    rw [Dict.dictFind, if_neg hsum] at hr
    obtain ⟨d, hd, rfl⟩ := map_eq_some_iff.1 hr
    exact ⟨d, hd, fun _ z hz => hz⟩
  | delete key =>
    obtain ⟨r, hr, rfl⟩ := map_eq_some_iff.1 h
    rw [Dict.dictDelete, if_neg fun h => hused h.1] at hr
    obtain ⟨d, hd, rfl⟩ := map_eq_some_iff.1 hr
    exact ⟨d, hd, fun hshaped z hz => hz.unlink hshaped⟩

theorem used_ne_count (h : s.Sound hash) (hcount : s.dict.count < 2 ^ 63) (hmove : s.dict.moving ≠ [])
    (hs' : s.step hash canResize ratio e = some s') :
    s'.dict.used ≠ s'.dict.count := by
  obtain ⟨hused, hle, d', z, hd', hshaped, hz, hoff⟩ :=
    Dict.rehashStep_moving hash h.shaped h.counted h.early hmove
  have hsum : s.dict.used ≠ 0 := by
    rw [Dict.used, h.used_eq hcount, h.used_eq hcount]
    rw [h.used_eq hcount] at hused
    rw [Dict.count] at hcount
    omega
  obtain ⟨d, hd, hkept⟩ := exists_rehashStep hused hsum hs'
  obtain rfl := some.inj (hd.symm.trans hd')
  have h0 := hkept hshaped z hz 0
  have h1 := hkept hshaped z hz 1
  have hpos := length_pos_iff.2 hmove
  rw [Dict.count] at hcount
  rw [Dict.used, Dict.count]
  omega

theorem dict_right_iff (hash : K → UInt64) (canResize : Bool) (ratio : ℕ) (es : List (Event K V))
    (hfits : Lts.Along (System.step hash canResize ratio) (Fits hash canResize ratio) {} es) :
    Lts.Along (System.step hash canResize ratio) (Right hash canResize ratio) {} es ↔
      Lts.Along (System.step hash canResize ratio) NoMove {} es := by
  refine Lts.Along.iff_of_invariant (I := System.Sound hash) (fun s e hs hfit => ⟨⟨fun hright => ?_, fun hmove => ?_⟩,
    fun hmove s' hs' => ?_⟩) ?_ hfits
  · obtain ⟨⟨s', hs', heq⟩, -⟩ := hright
    by_contra hmove
    exact used_ne_count hs hfit.1 hmove hs' heq
  · obtain ⟨⟨s', hs', hsound⟩, hfind⟩ := hs.step hfit.1 hmove canResize ratio e
    exact ⟨⟨s', hs', used_eq_count hsound (hfit.2 s' hs')⟩, hfind⟩
  · obtain ⟨⟨t, ht, hsound⟩, -⟩ := hs.step hfit.1 hmove canResize ratio e
    rw [hs'] at ht
    exact some.inj ht ▸ hsound
  · exact ⟨⟨fun _ _ => rfl, fun h => (by cases h), fun _ => rfl⟩, fun _ => rfl, fun i hi => (by cases hi), fun _ => rfl⟩

theorem dict_right_five :
    Lts.Along (System.step UInt64.ofNat true 5) (Right UInt64.ofNat true 5) {}
      [.add 1 10, .add 2 20, .add 3 30, .replace 2 21, .add 4 40, .add 5 50] :=
  (dict_right_iff UInt64.ofNat true 5 _ (by decide)).2 (by decide)

theorem dict_six_lost :
    (Lts.run (System.step UInt64.ofNat true 5) {}
        [.add 1 10, .add 2 20, .add 3 30, .add 4 40, .add 5 50, .add 6 60, .find 1, .find 1]).map
      (fun s => (s.dict.used, s.dict.count, (s.dict.dictFind UInt64.ofNat 1).map snd, s.latest 1)) =
    some (0, 6, some none, some 10) := by decide

end Runs

end RedisDict
