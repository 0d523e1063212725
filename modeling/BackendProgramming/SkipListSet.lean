/-
**The skip list as an ordered set.**

`FindPre` compares the keys with `<` and `==`, the loops of the iterator with the comparator, so that the searches
find what they look for **as long as the comparator agrees with `<`**.
-/

import BackendProgramming.Lts
import BackendProgramming.SkipList

set_option autoImplicit false

namespace ComponentsW

open OrderedLinks List Option

variable {α : Type*}

section Levels

variable {L : SkipList α} {key : α}

def Left (L : SkipList α) (key : α) (left l : ℕ) (k : α) : Prop := L.AtLevel l k ∧ (left ≤ l → k ≠ key)

theorem left_of_lt {left l : ℕ} (h : l < left) (k : α) : Left L key left l k ↔ L.AtLevel l k :=
  ⟨And.left, fun hk => ⟨hk, fun hle => absurd h (not_lt.2 hle)⟩⟩

theorem left_of_le {left l : ℕ} (h : left ≤ l) (k : α) : Left L key left l k ↔ L.AtLevel l k ∧ k ≠ key :=
  and_congr_right fun _ => ⟨fun hne => hne h, fun hne _ => hne⟩

end Levels

/-! ### The functions -/

def randomLevel (maxHeight : ℕ) : ℕ → List Bool → ℕ
  | level, [] => level
  | level, odd :: coins => if odd ∧ level < maxHeight then randomLevel maxHeight (level + 1) coins else level

def Links.chain (links : Links α) (l : ℕ) : ℕ → Option α → Option (List α)
  | 0, _ => none
  | _ + 1, none => some []
  | fuel + 1, some k => (links (some k) l).bind fun next => (links.chain l fuel next).map (k :: ·)

variable [LinearOrder α]

def removeLoop (pre : ℕ → Option α) : ℕ → Links α → Option (Links α)
  | 0, links => some links
  | l + 1, links =>
    (links (pre l) l).bind fun node =>
      node.bind fun k =>
        (links (some k) l).bind fun next => removeLoop pre l (links.setNext (pre l) l (some next))

namespace SkipList

def remove (L : SkipList α) (key : α) : Option (SkipList α) :=
  (L.findPre key).bind fun found =>
    if found.2 = 0 then some L
    else (removeLoop found.1 found.2 L.next).map fun links => { L with keys := L.keys.erase key, next := links }

def contains (L : SkipList α) (key : α) : Option Bool := (L.findPre key).map fun found => found.2 ≠ 0

def descend (L : SkipList α) (check : Option α → Bool) (after : α → Bool) :
    ℕ → ℕ → Option α → Option (Option α × Option α)
  | 0, _, _ => none
  | fuel + 1, level, x =>
    if check x then
      (L.next x level).bind fun next =>
        if next.any after then L.descend check after fuel level next
        else
          match level with
          | 0 => some (x, next)
          | level + 1 => L.descend check after fuel level x
    else none

def search (L : SkipList α) (check : Option α → Bool) (after : α → Bool) : Option (Option α × Option α) :=
  match L.maxHeight with
  | 0 => none
  | top + 1 => L.descend check after (top + L.keys.card + 1) top none

def findGreaterOrEqual (L : SkipList α) (comparator : α → α → ℤ) (key : α) : Option (Option α) :=
  (L.search (fun _ => true) fun k => comparator k key < 0).map Prod.snd

def findLessThan (L : SkipList α) (comparator : α → α → ℤ) (key : α) : Option (Option α) :=
  (L.search (fun x => x.all fun k => comparator k key < 0) fun k => ¬ comparator k key ≥ 0).map Prod.fst

def findLast (L : SkipList α) : Option (Option α) :=
  (L.search (fun _ => true) fun _ => true).map Prod.fst

def seekToFirst (L : SkipList α) : Option (Option α) := L.next none 0

def seekToLast (L : SkipList α) : Option (Option α) := L.findLast

def seek (L : SkipList α) (comparator : α → α → ℤ) (target : α) : Option (Option α) :=
  L.findGreaterOrEqual comparator target

def iterNext (L : SkipList α) (k : α) : Option (Option α) := L.next (some k) 0

def iterPrev (L : SkipList α) (comparator : α → α → ℤ) (k : α) : Option (Option α) := L.findLessThan comparator k

def enumerate (L : SkipList α) (fuel : ℕ) : Option (List α) := L.seekToFirst.bind (L.next.chain 0 fuel)

end SkipList

inductive SkipListCall (α : Type*) where
  | insert (key : α) (coins : List Bool)
  | remove (key : α)
deriving DecidableEq, Repr

def SkipList.step (L : SkipList α) : SkipListCall α → Option (SkipList α)
  | .insert key coins =>
    if randomLevel L.maxHeight 1 coins ≤ L.maxHeight then L.insert key (randomLevel L.maxHeight 1 coins)
    else none
  | .remove key => L.remove key

def afterCall (keys : Finset α) : SkipListCall α → Finset α
  | .insert key _ => Insert.insert key keys
  | .remove key => keys.erase key

def present (calls : List (SkipListCall α)) : Finset α := calls.foldl afterCall ∅

/-! ### Taking a key out -/

variable {L : SkipList α} {key : α}

theorem one_le_randomLevel {maxHeight level : ℕ} (coins : List Bool) (h : 1 ≤ level) :
    1 ≤ randomLevel maxHeight level coins := by
  induction coins generalizing level with
  | nil => exact h
  | cons odd coins ih =>
    rw [randomLevel]
    split
    · exact ih (by omega)
    · exact h

theorem randomLevel_le {maxHeight level : ℕ} (coins : List Bool) (h : level ≤ maxHeight) :
    randomLevel maxHeight level coins ≤ maxHeight := by
  induction coins generalizing level with
  | nil => exact h
  | cons odd coins ih =>
    rw [randomLevel]
    split
    · next hand => exact ih hand.2
    · exact h

theorem joined_past {links : Links α} {l : ℕ} {p y : Option α} (hjoined : links.Joined l (L.AtLevel l))
    (hpre : IsPre (L.AtLevel l) key p) (hy : IsNext (L.AtLevel l) (some key) y) :
    (links.setNext p l (some y)).Joined l fun k => L.AtLevel l k ∧ k ≠ key := by
  intro x hx
  by_cases hxp : x = p
  · subst hxp
    exact ⟨y, Links.setNext_self .., hy.past_old hpre⟩
  · obtain ⟨z, hz, hnext⟩ := hjoined x fun k hk => (hx k hk).1
    refine ⟨z, ?_, hnext.other_old hpre (fun k hk => (hx k hk).1) hxp⟩
    rw [Links.setNext_of_ne _ fun hand => hxp hand.1]
    exact hz

theorem removeLoop_spec {pre : ℕ → Option α} {left : ℕ} {links : Links α} (hmax : left ≤ L.maxHeight)
    (hpre : ∀ l < left, IsPre (L.AtLevel l) key (pre l)) (hat : ∀ l < left, L.AtLevel l key)
    (hjoined : ∀ l < L.maxHeight, links.Joined l (Left L key left l)) :
    ∃ links', removeLoop pre left links = some links' ∧
      ∀ l < L.maxHeight, links'.Joined l (Left L key 0 l) := by
  induction left generalizing links with
  | zero => exact ⟨links, rfl, hjoined⟩
  | succ left ih =>
    have hold : links.Joined left (L.AtLevel left) :=
      (hjoined left (by omega)).congr (left_of_lt left.lt_succ_self) fun _ _ => rfl
    have hp := hpre left left.lt_succ_self
    obtain ⟨n, hn, hnext⟩ := hold (pre left) hp.mem
    obtain rfl := (SkipList.isNext_key_iff hp hnext).2 (hat left left.lt_succ_self)
    obtain ⟨y, hy, hynext⟩ := hold (some key) fun k hk => some.inj hk ▸ hat left left.lt_succ_self
    simp only [removeLoop, hn, hy, bind_some]
    refine ih (by omega) (fun l hl => hpre l (by omega)) (fun l hl => hat l (by omega)) fun l hl => ?_
    by_cases heq : l = left
    · subst heq
      exact (joined_past hold hp hynext).congr (fun k => (left_of_le le_rfl k).symm) fun _ _ => rfl
    · -- another level
      refine (hjoined l hl).congr (fun k => ?_) fun x _ => Links.setNext_of_ne _ fun hand => heq hand.2
      exact and_congr_right fun _ => imp_congr_left (by omega)

theorem Links.Joined.chain_spec {links : Links α} {l : ℕ} {P : α → Prop} {U : Finset α}
    (h : links.Joined l P) (hU : ∀ k, P k → k ∈ U) {fuel : ℕ} {x y : Option α} (hy : IsNext P x y)
    (hfuel : (U.filter (Behind x)).card < fuel) :
    ∃ ks, links.chain l fuel y = some ks ∧ ks.Pairwise (· < ·) ∧ ∀ k, k ∈ ks ↔ P k ∧ Behind x k := by
  induction fuel generalizing x y with
  | zero => exact absurd hfuel (Nat.not_lt_zero _)
  | succ fuel ih =>
    cases y with
    | none =>
      refine ⟨[], rfl, List.Pairwise.nil, fun k => iff_of_false not_mem_nil fun hk => ?_⟩
      obtain ⟨j, hj, -⟩ := hy.le k hk.1 hk.2
      cases hj
    | some k =>
      obtain ⟨hk, hbehind⟩ := hy.mem k rfl
      have hcard := card_behind_lt (hU k hk) hbehind
      obtain ⟨z, hz, hnext⟩ := h (some k) fun j hj => some.inj hj ▸ hk
      obtain ⟨ks, hchain, hsorted, hmem⟩ := ih hnext (by omega)
      refine ⟨k :: ks, by simp [Links.chain, hz, hchain], ?_, fun j => ?_⟩
      · exact List.pairwise_cons.2 ⟨fun j hj => behind_some.1 ((hmem j).1 hj).2, hsorted⟩
      · rw [mem_cons, hmem, behind_some]
        constructor
        · rintro (rfl | ⟨hj, hlt⟩)
          · exact ⟨hk, hbehind⟩
          · exact ⟨hj, hbehind.trans hlt.le⟩
        · rintro ⟨hj, hxj⟩
          obtain ⟨i, hi, hle⟩ := hy.le j hj hxj
          cases hi
          exact hle.eq_or_lt.imp Eq.symm fun hlt => ⟨hj, hlt⟩

namespace SkipList

theorem Valid.remove (hL : L.Valid) (hpos : 0 < L.maxHeight) (key : α) :
    ∃ L', L.remove key = some L' ∧ L'.Valid ∧ L'.maxHeight = L.maxHeight ∧ L'.keys = L.keys.erase key := by
  obtain ⟨pre, level, hfind, hpre, hkey, hlevel, hmax⟩ := hL.findPre_spec hpos key
  by_cases hzero : level = 0
  · have hno : key ∉ L.keys := fun hmem => hkey.2 hmem hzero
    exact ⟨L, by simp [SkipList.remove, hfind, hzero], hL, rfl, (Finset.erase_eq_of_notMem hno).symm⟩
  · have hjoined : ∀ l < L.maxHeight, L.next.Joined l (Left L key level l) := by
      intro l hl
      refine (hL.joined l hl).congr (fun k => ⟨fun hk => ⟨hk, fun hle => ?_⟩, And.left⟩) fun _ _ => rfl
      rintro rfl
      exact absurd ((hlevel l hl).1 hk) (not_lt.2 hle)
    obtain ⟨links, hloop, hlinks⟩ := removeLoop_spec hmax (fun l hl => hpre l (hl.trans_le hmax))
      (fun l hl => (hlevel l (hl.trans_le hmax)).2 hl) hjoined
    refine ⟨{ L with keys := L.keys.erase key, next := links }, by simp [SkipList.remove, hfind, hzero, hloop],
      ⟨?_, ?_⟩, rfl, rfl⟩
    · intro k hk
      exact hL.level_pos k (Finset.mem_of_mem_erase hk)
    · intro l hl
      refine (hlinks l hl).congr (fun k => ?_) fun _ _ => rfl
      rw [left_of_le (Nat.zero_le l)]
      simp only [AtLevel, Finset.mem_erase]
      tauto

theorem Valid.contains_eq (hL : L.Valid) (hpos : 0 < L.maxHeight) (key : α) :
    L.contains key = some (decide (key ∈ L.keys)) := by
  obtain ⟨pre, level, hfind, -, hkey, -⟩ := hL.findPre_spec hpos key
  rw [contains, hfind, map_some, decide_eq_decide.2 hkey]

/-! ### The searches -/

theorem Valid.atLevel_zero (hL : L.Valid) (k : α) : L.AtLevel 0 k ↔ k ∈ L.keys :=
  ⟨And.left, fun hk => ⟨hk, hL.level_pos k hk⟩⟩

theorem Valid.descend_spec (hL : L.Valid) {check : Option α → Bool} {after : α → Bool}
    (hcheck : ∀ x, (∀ k, x = some k → after k) → check x) {fuel level : ℕ} {x : Option α}
    (hlevel : level < L.maxHeight) (hx : ∀ k, x = some k → L.AtLevel level k ∧ after k)
    (hfuel : level + (L.keys.filter (Behind x)).card < fuel) :
    ∃ y n, L.descend check after fuel level x = some (y, n) ∧ (∀ k, y = some k → k ∈ L.keys ∧ after k) ∧
      IsNext (· ∈ L.keys) y n ∧ ∀ k, n = some k → ¬ after k := by
  induction fuel generalizing level x with
  | zero => exact absurd hfuel (Nat.not_lt_zero _)
  | succ fuel ih =>
    obtain ⟨n, hn, hnext⟩ := hL.joined level hlevel x fun k hk => (hx k hk).1
    have hok : check x = true := hcheck x fun k hk => (hx k hk).2
    rw [descend, if_pos hok, hn, bind_some]
    by_cases hgo : n.any after = true
    · obtain ⟨k, rfl, hk⟩ := (Option.any_eq_true _ _).1 hgo
      obtain ⟨hat, hbehind⟩ := hnext.mem k rfl
      have hcard := card_behind_lt hat.1 hbehind
      rw [if_pos hgo]
      exact ih hlevel (fun j hj => some.inj hj ▸ ⟨hat, hk⟩) (by omega)
    · rw [if_neg hgo]
      cases level with
      | zero =>
        refine ⟨x, n, rfl, fun k hk => ⟨(hx k hk).1.1, (hx k hk).2⟩, ?_, ?_⟩
        · exact hnext.congr hL.atLevel_zero
        · rintro k rfl
          simpa using hgo
      | succ level =>
        exact ih (by omega) (fun k hk => ⟨(hx k hk).1.down level.le_succ, (hx k hk).2⟩) (by omega)

end SkipList

def Lands (Best : Set α → α → Prop) (s : Set α) : Option α → Prop
  | none => s = ∅
  | some k => Best s k

theorem lands_of_border {keys : Finset α} {after : α → Bool} (hdown : ∀ j k, j ≤ k → after k → after j)
    {y n : Option α} (hy : ∀ k, y = some k → k ∈ keys ∧ after k) (hnext : IsNext (· ∈ keys) y n)
    (hn : ∀ k, n = some k → ¬ after k) :
    Lands IsGreatest {k | k ∈ keys ∧ after k} y ∧ Lands IsLeast {k | k ∈ keys ∧ ¬ after k} n := by
  have hfront : ∀ j ∈ keys, Behind y j → ¬ after j := by
    intro j hj hbehind hafter
    obtain ⟨k, rfl, hle⟩ := hnext.le j hj hbehind
    exact hn k rfl (hdown k j hle hafter)
  have hback : ∀ j, ¬ after j → Behind y j := by
    rintro j hj i rfl
    by_contra hle
    exact hj (hdown j i (not_lt.1 hle) (hy i rfl).2)
  constructor
  · cases y with
    | none => exact Set.eq_empty_of_forall_notMem fun j hj => hfront j hj.1 (behind_none j) hj.2
    | some k =>
      refine ⟨hy k rfl, fun j hj => not_lt.1 fun hlt => ?_⟩
      exact hfront j hj.1 (behind_some.2 hlt) hj.2
  · cases n with
    | none =>
      refine Set.eq_empty_of_forall_notMem fun j hj => ?_
      obtain ⟨k, hk, -⟩ := hnext.le j hj.1 (hback j hj.2)
      cases hk
    | some k =>
      refine ⟨⟨(hnext.mem k rfl).1, hn k rfl⟩, fun j hj => ?_⟩
      obtain ⟨i, hi, hle⟩ := hnext.le j hj.1 (hback j hj.2)
      exact some.inj hi ▸ hle

namespace SkipList

theorem Valid.search_spec (hL : L.Valid) (hpos : 0 < L.maxHeight) {check : Option α → Bool} {after : α → Bool}
    (hcheck : ∀ x, (∀ k, x = some k → after k) → check x) (hdown : ∀ j k, j ≤ k → after k → after j) :
    ∃ y n, L.search check after = some (y, n) ∧ Lands IsGreatest {k | k ∈ L.keys ∧ after k} y ∧
      Lands IsLeast {k | k ∈ L.keys ∧ ¬ after k} n := by
  obtain ⟨top, htop⟩ := Nat.exists_eq_succ_of_ne_zero hpos.ne'
  have hfuel : top + (L.keys.filter (Behind none)).card < top + L.keys.card + 1 := by
    have := Finset.card_filter_le L.keys (Behind none)
    omega
  have hrun : ∃ y n, L.descend check after (top + L.keys.card + 1) top none = some (y, n) ∧
      (∀ k, y = some k → k ∈ L.keys ∧ after k) ∧ IsNext (· ∈ L.keys) y n ∧ ∀ k, n = some k → ¬ after k :=
    hL.descend_spec hcheck (by omega) (fun k hk => by cases hk) hfuel
  obtain ⟨y, n, hdescend, hy, hnext, hn⟩ := hrun
  refine ⟨y, n, ?_, lands_of_border hdown hy hnext hn⟩
  rw [search, htop]
  exact hdescend

/-! ### An ordered set -/

structure ActsAsSet (L : SkipList α) (comparator : α → α → ℤ) (S : Finset α) : Prop where
  contains : ∀ k, L.contains k = some (decide (k ∈ S))
  enumerate : ∀ fuel, S.card < fuel →
    ∃ l, L.enumerate fuel = some l ∧ l.Pairwise (· < ·) ∧ ∀ k, k ∈ l ↔ k ∈ S
  seek : ∀ t, ∃ r, L.seek comparator t = some r ∧ Lands IsLeast {k | k ∈ S ∧ t ≤ k} r
  next : ∀ k ∈ S, ∃ r, L.iterNext k = some r ∧ Lands IsLeast {j | j ∈ S ∧ k < j} r
  prev : ∀ k ∈ S, ∃ r, L.iterPrev comparator k = some r ∧ Lands IsGreatest {j | j ∈ S ∧ j < k} r
  last : ∃ r, L.seekToLast = some r ∧ Lands IsGreatest {k | k ∈ S} r

theorem Valid.enumerate_spec (hL : L.Valid) (hpos : 0 < L.maxHeight) {fuel : ℕ} (hfuel : L.keys.card < fuel) :
    ∃ l, L.enumerate fuel = some l ∧ l.Pairwise (· < ·) ∧ ∀ k, k ∈ l ↔ k ∈ L.keys := by
  obtain ⟨y, hy, hnext⟩ := hL.joined 0 hpos none fun k hk => by cases hk
  obtain ⟨l, hchain, hsorted, hmem⟩ := (hL.joined 0 hpos).chain_spec (fun k hk => hk.1) hnext
    ((Finset.card_filter_le _ _).trans_lt hfuel)
  refine ⟨l, by simp [SkipList.enumerate, seekToFirst, hy, hchain], hsorted, fun k => ?_⟩
  rw [hmem, hL.atLevel_zero]
  simp

theorem Valid.actsAsSet (hL : L.Valid) (hpos : 0 < L.maxHeight) {comparator : α → α → ℤ}
    (hcmp : ∀ a b, comparator a b < 0 ↔ a < b) : L.ActsAsSet comparator L.keys where
  contains := hL.contains_eq hpos
  enumerate _ hfuel := hL.enumerate_spec hpos hfuel
  seek t := by
    have hsearch : ∃ y n, L.search (fun _ => true) (fun k => comparator k t < 0) = some (y, n) ∧ _ ∧ _ :=
      hL.search_spec hpos (fun _ _ => rfl) fun j k hjk hk => by
        simp only [hcmp, decide_eq_true_eq] at hk ⊢
        exact hjk.trans_lt hk
    obtain ⟨y, n, hfind, -, hn⟩ := hsearch
    refine ⟨n, by rw [SkipList.seek, findGreaterOrEqual, hfind]; rfl, ?_⟩
    simpa only [hcmp, decide_eq_true_eq, not_lt] using hn
  next k hk := by
    obtain ⟨z, hz, hnext⟩ := hL.joined 0 hpos (some k) fun j hj =>
      some.inj hj ▸ (hL.atLevel_zero k).2 hk
    refine ⟨z, hz, ?_⟩
    have hn : ∀ j, z = some j → ¬ decide (j ≤ k) = true := by
      intro j hj
      simpa using behind_some.1 (hnext.mem j hj).2
    have hdown : ∀ i j, i ≤ j → decide (j ≤ k) = true → decide (i ≤ k) = true := by
      intro i j hij hj
      simpa using hij.trans (by simpa using hj)
    have hborder := lands_of_border hdown (fun j hj => some.inj hj ▸ ⟨hk, by simp⟩)
      (hnext.congr hL.atLevel_zero) hn
    simpa only [decide_eq_true_eq, not_le] using hborder.2
  prev k hk := by
    have hsearch : ∃ y n, L.search (fun x => x.all fun j => comparator j k < 0)
        (fun j => ¬ comparator j k ≥ 0) = some (y, n) ∧ _ ∧ _ :=
      hL.search_spec hpos (fun x hx => by
          cases x with
          | none => rfl
          | some j => simpa using hx j rfl)
        fun i j hij hj => by
          simp only [ge_iff_le, not_le, hcmp, decide_eq_true_eq] at hj ⊢
          exact hij.trans_lt hj
    obtain ⟨y, n, hfind, hy, -⟩ := hsearch
    refine ⟨y, by rw [iterPrev, findLessThan, hfind]; rfl, ?_⟩
    simpa only [ge_iff_le, not_le, hcmp, decide_eq_true_eq] using hy
  last := by
    have hsearch : ∃ y n, L.search (fun _ => true) (fun _ => true) = some (y, n) ∧ _ ∧ _ :=
      hL.search_spec hpos (fun _ _ => rfl) fun _ _ _ _ => rfl
    obtain ⟨y, n, hfind, hy, -⟩ := hsearch
    refine ⟨y, by rw [seekToLast, findLast, hfind]; rfl, ?_⟩
    simpa only [and_true] using hy

/-! ### Runs -/

theorem Valid.step_spec (hL : L.Valid) (hpos : 0 < L.maxHeight) (call : SkipListCall α) :
    ∃ L', L.step call = some L' ∧ L'.Valid ∧ L'.maxHeight = L.maxHeight ∧ L'.keys = afterCall L.keys call := by
  cases call with
  | insert key coins =>
    have hle : randomLevel L.maxHeight 1 coins ≤ L.maxHeight := randomLevel_le coins hpos
    obtain ⟨L', hinsert, hL'⟩ := hL.insert (one_le_randomLevel coins le_rfl) hle key
    exact ⟨L', by rw [SkipList.step, if_pos hle, hinsert], hL'⟩
  | remove key => exact hL.remove hpos key

theorem Valid.run_spec (hL : L.Valid) (hpos : 0 < L.maxHeight) (calls : List (SkipListCall α)) :
    ∃ L', Lts.run SkipList.step L calls = some L' ∧ L'.Valid ∧ L'.maxHeight = L.maxHeight ∧
      L'.keys = calls.foldl afterCall L.keys := by
  induction calls generalizing L with
  | nil => exact ⟨L, rfl, hL, rfl, rfl⟩
  | cons call calls ih =>
    obtain ⟨L₁, hstep, hL₁, hmax, hkeys⟩ := hL.step_spec hpos call
    obtain ⟨L₂, hrun, hL₂, hmax₂, hkeys₂⟩ := ih hL₁ (hmax ▸ hpos)
    refine ⟨L₂, ?_, hL₂, hmax₂.trans hmax, ?_⟩
    · rw [Lts.run, hstep, bind_some, hrun]
    · rw [hkeys₂, hkeys, foldl_cons]

theorem run_new {maxLevel : ℕ} (hpos : 0 < maxLevel) (calls : List (SkipListCall α)) :
    ∃ L, Lts.run SkipList.step (new maxLevel) calls = some L ∧ L.Valid ∧ 0 < L.maxHeight ∧
      L.keys = present calls := by
  obtain ⟨L, hrun, hL, hmax, hkeys⟩ := (valid_new maxLevel).run_spec (L := new maxLevel) hpos calls
  exact ⟨L, hrun, hL, hmax ▸ hpos, hkeys⟩

end SkipList

theorem skip_list_ordered_set {maxLevel : ℕ} (hpos : 0 < maxLevel) {comparator : α → α → ℤ}
    (hcmp : ∀ a b, comparator a b < 0 ↔ a < b) (calls : List (SkipListCall α)) :
    ∃ L, Lts.run SkipList.step (SkipList.new maxLevel) calls = some L ∧ L.ActsAsSet comparator (present calls) := by
  obtain ⟨L, hrun, hL, hmax, hkeys⟩ := SkipList.run_new hpos calls
  exact ⟨L, hrun, hkeys ▸ hL.actsAsSet hmax hcmp⟩

theorem skip_list_of_three_levels :
    ∃ L, Lts.run SkipList.step (SkipList.new 3) [.insert (5 : ℤ) [true, true, true], .insert 2 [], .remove 5] =
        some L ∧
      L.ActsAsSet (fun a b => a - b) (present [.insert 5 [true, true, true], .insert 2 [], .remove 5]) :=
  skip_list_ordered_set (by decide) (fun _ _ => sub_neg) _

theorem no_level_no_insert :
    ¬ ∃ L, Lts.run SkipList.step (SkipList.new 0) [.insert (5 : ℤ) []] = some L ∧
      L.ActsAsSet (fun a b => a - b) (present [.insert 5 []]) := by
  rintro ⟨L, hrun, -⟩
  cases hrun

/-- After every sequence of inserts and removes, whatever the coins, the links of each level, followed from the
head, visit in increasing order the keys whose nodes have more levels than that. -/
theorem levels_sorted {maxLevel : ℕ} (hpos : 0 < maxLevel) (calls : List (SkipListCall α)) :
    ∃ L, Lts.run SkipList.step (SkipList.new maxLevel) calls = some L ∧
      ∀ l < maxLevel, ∃ first, L.next none l = some first ∧ ∀ fuel, (present calls).card < fuel →
        L.next.chain l fuel first = some (((present calls).filter (l < L.level ·)).sort (· ≤ ·)) := by
  obtain ⟨L, hrun, hL, hmax, hkeys⟩ := (SkipList.valid_new maxLevel).run_spec hpos calls
  have hpresent : L.keys = present calls := hkeys
  refine ⟨L, hrun, fun l hl => ?_⟩
  have hjoined := hL.joined l (hmax ▸ hl)
  obtain ⟨first, hfirst, hnext⟩ := hjoined none fun k hk => by cases hk
  refine ⟨first, hfirst, fun fuel hfuel => ?_⟩
  rw [← hpresent] at hfuel ⊢
  obtain ⟨ks, hchain, hsorted, hmem⟩ := hjoined.chain_spec (fun k hk => hk.1) hnext
    ((Finset.card_filter_le _ _).trans_lt hfuel)
  rw [hchain, hsorted.eq_of_mem_iff (Finset.sortedLT_sort _).pairwise fun k => ?_]
  rw [hmem, Finset.mem_sort, Finset.mem_filter, SkipList.AtLevel, and_iff_left (behind_none k)]

theorem levels_sorted_three :
    ∃ L, Lts.run SkipList.step (SkipList.new 3) [.insert (5 : ℤ) [true]] = some L ∧
      ∀ l < 3, ∃ first, L.next none l = some first ∧
        ∀ fuel, (present [.insert (5 : ℤ) [true]]).card < fuel →
          L.next.chain l fuel first =
            some (((present [.insert 5 [true]]).filter (l < L.level ·)).sort (· ≤ ·)) :=
  levels_sorted (by decide) _

/-! ### Another order -/

structure StrictTotal (comparator : α → α → ℤ) : Prop where
  irrefl : ∀ a, ¬ comparator a a < 0
  trans : ∀ a b c, comparator a b < 0 → comparator b c < 0 → comparator a c < 0
  total : ∀ a b, a ≠ b → comparator a b < 0 ∨ comparator b a < 0

def IsFirst (comparator : α → α → ℤ) (s : Set α) (k : α) : Prop :=
  k ∈ s ∧ ∀ j ∈ s, j = k ∨ comparator k j < 0

structure SkipList.Follows (L : SkipList α) (comparator : α → α → ℤ) (S : Finset α) : Prop where
  enumerate : ∀ fuel, S.card < fuel →
    ∃ l, L.enumerate fuel = some l ∧ l.Pairwise (comparator · · < 0) ∧ ∀ k, k ∈ l ↔ k ∈ S
  seek : ∀ t, ∃ r, L.seek comparator t = some r ∧
    Lands (IsFirst comparator) {k | k ∈ S ∧ ¬ comparator k t < 0} r

variable {comparator : α → α → ℤ}

theorem StrictTotal.neg_iff_lt (h : StrictTotal comparator) (hlt : ∀ a b, a < b → comparator a b < 0) (a b : α) :
    comparator a b < 0 ↔ a < b := by
  refine ⟨fun hab => ?_, hlt a b⟩
  rcases lt_trichotomy a b with hab' | rfl | hba
  · exact hab'
  · exact absurd hab (h.irrefl a)
  · exact absurd (h.trans a b a hab (hlt b a hba)) (h.irrefl a)

theorem SkipList.ActsAsSet.follows {S : Finset α} (h : L.ActsAsSet comparator S)
    (hcmp : ∀ a b, comparator a b < 0 ↔ a < b) : L.Follows comparator S where
  enumerate fuel hfuel := by simpa only [hcmp] using h.enumerate fuel hfuel
  seek t := by
    obtain ⟨r, hr, hlands⟩ := h.seek t
    refine ⟨r, hr, ?_⟩
    simp only [hcmp, not_lt]
    cases r with
    | none => exact hlands
    | some k => exact ⟨hlands.1, fun j hj => (hlands.2 hj).eq_or_lt.imp Eq.symm (hcmp k j).2⟩

theorem SkipList.Valid.neg_of_follows (hL : L.Valid) (hpos : 0 < L.maxHeight)
    (h : L.Follows comparator L.keys) {a b : α} (ha : a ∈ L.keys) (hb : b ∈ L.keys) (hlt : a < b) :
    comparator a b < 0 := by
  obtain ⟨l, hl, hsorted, hmem⟩ := hL.enumerate_spec hpos (Nat.lt_succ_self _)
  obtain ⟨l', hl', hpair, -⟩ := h.enumerate _ (Nat.lt_succ_self _)
  obtain rfl := some.inj (hl.symm.trans hl')
  have hboth : l.Pairwise fun x y => (x < y ∧ comparator x y < 0) ∨ (y < x ∧ comparator y x < 0) :=
    (hsorted.and hpair).imp Or.inl
  have hsymm : Std.Symm fun x y => (x < y ∧ comparator x y < 0) ∨ (y < x ∧ comparator y x < 0) :=
    ⟨fun x y hxy => hxy.symm⟩
  rcases hboth.forall ((hmem a).2 ha) ((hmem b).2 hb) hlt.ne with hab | hba
  · exact hab.2
  · exact absurd hba.1 hlt.asymm

theorem comparator_order_iff {maxLevel : ℕ} (hpos : 0 < maxLevel) (h : StrictTotal comparator) :
    (∀ calls, ∃ L, Lts.run SkipList.step (SkipList.new maxLevel) calls = some L ∧
      L.Follows comparator (present calls)) ↔ ∀ a b, a < b → comparator a b < 0 := by
  constructor
  · intro hall a b hlt
    obtain ⟨L, hrun, hL, hmax, hkeys⟩ := SkipList.run_new hpos [.insert a [], .insert b []]
    obtain ⟨L', hrun', hfollows⟩ := hall [.insert a [], .insert b []]
    obtain rfl := some.inj (hrun.symm.trans hrun')
    rw [← hkeys] at hfollows
    refine hL.neg_of_follows hmax hfollows ?_ ?_ hlt
    · simp [hkeys, present, afterCall]
    · simp [hkeys, present, afterCall]
  · intro hlt calls
    have hcmp := h.neg_iff_lt hlt
    obtain ⟨L, hrun, hL, hmax, hkeys⟩ := SkipList.run_new hpos calls
    exact ⟨L, hrun, hkeys ▸ (hL.actsAsSet hmax hcmp).follows hcmp⟩

theorem strictTotal_sub : StrictTotal fun a b : ℤ => a - b where
  irrefl a := by simp
  trans a b c hab hbc := by omega
  total a b hne := by omega

theorem order_of_three_levels :
    (∀ calls, ∃ L, Lts.run SkipList.step (SkipList.new 3) calls = some L ∧
      L.Follows (fun a b : ℤ => a - b) (present calls)) ↔ ∀ a b : ℤ, a < b → a - b < 0 :=
  comparator_order_iff (by decide) strictTotal_sub

theorem reversed_order_lost :
    StrictTotal (fun a b : ℤ => b - a) ∧
      ∃ L, Lts.run SkipList.step (SkipList.new 3) [.insert (1 : ℤ) [], .insert 2 []] = some L ∧
        L.enumerate 3 = some [1, 2] ∧ ¬ L.Follows (fun a b => b - a) (present [.insert 1 [], .insert 2 []]) := by
  refine ⟨⟨fun a => by simp, fun a b c hab hbc => by omega, fun a b hne => by omega⟩, _, rfl, by decide, ?_⟩
  intro hfollows
  obtain ⟨l, hl, hpair, -⟩ := hfollows.enumerate 3 (by decide)
  obtain rfl : [1, 2] = l := some.inj (by rw [← hl]; decide)
  exact absurd hpair (by decide)

end ComponentsW
