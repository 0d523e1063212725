/-
**The skip list of `ComponentsW/skiplist.leveldb` and its writer.**

`Insert` puts a node into its levels one after the other, **the top one first**: at each level the link of the new
node is set, then the link that leads to it.  A node is named by its key, `head_` and `NULL` by `none`.  Each
`SetNext` is a step of its own, so that a reader can come in between.
-/

import BackendProgramming.OrderedLinks

set_option autoImplicit false

namespace ComponentsW

open OrderedLinks Function Option Finset

variable {α : Type*}

abbrev Links (α : Type*) := Option α → ℕ → Option (Option α)

structure SkipList (α : Type*) where
  maxHeight : ℕ
  keys : Finset α
  level : α → ℕ
  next : Links α

/-! ### The keys of a level -/

def SkipList.AtLevel (L : SkipList α) (l : ℕ) (k : α) : Prop := k ∈ L.keys ∧ l < L.level k

def Published (L : SkipList α) (key : α) (height left l : ℕ) (k : α) : Prop :=
  L.AtLevel l k ∨ (k = key ∧ left ≤ l ∧ l < height)

section Levels

variable {L : SkipList α} {key k : α} {height left l : ℕ}

theorem SkipList.AtLevel.down {l' : ℕ} (h : L.AtLevel l k) (hl : l' ≤ l) : L.AtLevel l' k :=
  ⟨h.1, hl.trans_lt h.2⟩

theorem Published.later {left' : ℕ} (h : Published L key height left l k) (hle : left' ≤ left) :
    Published L key height left' l k :=
  h.imp_right fun hk => ⟨hk.1, hle.trans hk.2.1, hk.2.2⟩

theorem published_of_le (hle : left ≤ l → height ≤ l) (k : α) :
    Published L key height left l k ↔ L.AtLevel l k :=
  ⟨fun h => h.elim id fun hk => absurd (hle hk.2.1) (not_le.2 hk.2.2), Or.inl⟩

theorem published_succ (hl : l < height) (k : α) :
    Published L key height l l k ↔ L.AtLevel l k ∨ k = key :=
  ⟨fun h => h.imp_right And.left, fun h => h.imp_right fun hk => ⟨hk, le_rfl, hl⟩⟩

end Levels

/-! ### The functions -/

variable [LinearOrder α]

def Links.setNext (links : Links α) (x : Option α) (l : ℕ) (link : Option (Option α)) : Links α :=
  fun x' l' => if x' = x ∧ l' = l then link else links x' l'

def Links.newNode (links : Links α) (key : α) : Links α := fun x l => if x = some key then none else links x l

namespace SkipList

def new (maxLevel : ℕ) : SkipList α where
  maxHeight := maxLevel
  keys := ∅
  level := fun _ => 0
  next := fun x l => if x = none ∧ l < maxLevel then some none else none

def findPreLoop (L : SkipList α) (key : α) (l : ℕ) : ℕ → Option α → Option (Option α × Option α)
  | 0, _ => none
  | fuel + 1, p =>
    (L.next p l).bind fun next =>
      match next with
      | none => some (p, none)
      | some k => if k < key then L.findPreLoop key l fuel (some k) else some (p, some k)

def findPreLevels (L : SkipList α) (key : α) :
    ℕ → Option α → (ℕ → Option α) → ℕ → Option ((ℕ → Option α) × ℕ)
  | 0, _, pre, level => some (pre, level)
  | l + 1, p, pre, level =>
    (L.findPreLoop key l (L.keys.card + 1) p).bind fun found =>
      L.findPreLevels key l found.1 (update pre l found.1)
        (if found.2 = some key ∧ level = 0 then l + 1 else level)

def findPre (L : SkipList α) (key : α) : Option ((ℕ → Option α) × ℕ) :=
  L.findPreLevels key L.maxHeight none (fun _ => none) 0

end SkipList

structure Inserter (α : Type*) where
  key : α
  pre : ℕ → Option α
  left : ℕ
  half : Bool

def Inserter.step (links : Links α) (w : Inserter α) : Option (Links α × Inserter α) :=
  match w.left with
  | 0 => none
  | l + 1 =>
    if w.half then some (links.setNext (w.pre l) l (some (some w.key)), { w with left := l, half := false })
    else some (links.setNext (some w.key) l (links (w.pre l) l), { w with half := true })

def Inserter.finish : ℕ → Links α → Inserter α → Links α
  | 0, links, _ => links
  | n + 1, links, w =>
    match w.step links with
    | none => links
    | some (links', w') => Inserter.finish n links' w'

namespace SkipList

def insertBegin (L : SkipList α) (key : α) (level : ℕ) : Option (Links α × Inserter α) :=
  L.findPre key |>.map fun found =>
    if found.2 ≠ 0 then (L.next, ⟨key, found.1, 0, false⟩)
    else (L.next.newNode key, ⟨key, found.1, level, false⟩)

def insert (L : SkipList α) (key : α) (level : ℕ) : Option (SkipList α) :=
  L.insertBegin key level |>.map fun begun =>
    { L with
      keys := Insert.insert key L.keys
      level := if key ∈ L.keys then L.level else update L.level key level
      next := Inserter.finish (2 * level) begun.1 begun.2 }

end SkipList

def Links.Joined (links : Links α) (l : ℕ) (P : α → Prop) : Prop :=
  ∀ x, (∀ k, x = some k → P k) → ∃ y, links x l = some y ∧ IsNext P x y

theorem Links.Joined.congr {links links' : Links α} {l : ℕ} {P Q : α → Prop} (h : links.Joined l P)
    (hPQ : ∀ k, P k ↔ Q k) (hlinks : ∀ x, (∀ k, x = some k → Q k) → links' x l = links x l) :
    links'.Joined l Q := by
  intro x hx
  obtain ⟨y, hy, hnext⟩ := h x fun k hk => (hPQ k).2 (hx k hk)
  exact ⟨y, (hlinks x hx).trans hy, hnext.congr hPQ⟩

structure SkipList.Valid (L : SkipList α) : Prop where
  level_pos : ∀ k ∈ L.keys, 0 < L.level k
  joined : ∀ l < L.maxHeight, L.next.Joined l (L.AtLevel l)

namespace SkipList

variable {L : SkipList α} {key : α}

theorem valid_new (maxLevel : ℕ) : (new maxLevel : SkipList α).Valid where
  level_pos k hk := absurd hk (notMem_empty k)
  joined l hl x hx := by
    have hnone : x = none := eq_none_iff_forall_ne_some.2 fun k hk =>
      notMem_empty k (hx k hk).1
    subst hnone
    refine ⟨none, if_pos ⟨rfl, hl⟩, ⟨fun k hk => ?_, fun j hj _ => absurd hj.1 (notMem_empty j)⟩⟩
    cases hk

/-! ### `FindPre` -/

theorem Valid.findPreLoop_spec (hL : L.Valid) {l : ℕ} (hl : l < L.maxHeight) {fuel : ℕ} {p : Option α}
    (hp : ∀ k, p = some k → L.AtLevel l k) (hkey : Behind p key)
    (hfuel : (L.keys.filter (Behind p)).card < fuel) :
    ∃ q n, L.findPreLoop key l fuel p = some (q, n) ∧ IsPre (L.AtLevel l) key q ∧
      IsNext (L.AtLevel l) q n := by
  induction fuel generalizing p with
  | zero => exact absurd hfuel (Nat.not_lt_zero _)
  | succ fuel ih =>
    obtain ⟨n, hn, hnext⟩ := hL.joined l hl p hp
    cases n with
    | none =>
      refine ⟨p, none, by simp [findPreLoop, hn], .of_isNext hnext hp hkey fun j hj => ?_, hnext⟩
      cases hj
    | some k =>
      obtain ⟨hk, hpk⟩ := hnext.mem k rfl
      by_cases hlt : k < key
      · have hcard := card_behind_lt hk.1 hpk
        obtain ⟨q, n, hloop, hq⟩ := ih (p := some k) (fun j hj => some.inj hj ▸ hk)
          (behind_some.2 hlt) (by omega)
        exact ⟨q, n, by simp [findPreLoop, hn, hlt, hloop], hq⟩
      · refine ⟨p, some k, by simp [findPreLoop, hn, hlt], .of_isNext hnext hp hkey ?_, hnext⟩
        intro j hj
        exact some.inj hj ▸ not_lt.1 hlt

theorem isNext_key_iff {P : α → Prop} {q n : Option α} (hpre : IsPre P key q) (hnext : IsNext P q n) :
    n = some key ↔ P key := by
  constructor
  · rintro rfl
    exact (hnext.mem key rfl).1
  · intro hkey
    obtain ⟨k, rfl, hle⟩ := hnext.le key hkey hpre.behind
    obtain ⟨hk, hqk⟩ := hnext.mem k rfl
    rcases hle.lt_or_eq with hlt | rfl
    · obtain ⟨i, rfl, hki⟩ := hpre.le k hk hlt
      exact absurd (behind_some.1 hqk) (not_lt.2 hki)
    · rfl

theorem Valid.findPreLevels_spec (hL : L.Valid) {l : ℕ} (hl : l ≤ L.maxHeight) {p : Option α}
    {pre : ℕ → Option α} {level : ℕ} (hp : ∀ k, p = some k → L.AtLevel l k) (hkey : Behind p key)
    (hpre : ∀ l', l ≤ l' → l' < L.maxHeight → IsPre (L.AtLevel l') key (pre l'))
    (hzero : level ≠ 0 → l < level)
    (hlevel : ∀ l', l ≤ l' → l' < L.maxHeight → (L.AtLevel l' key ↔ l' < level)) (hmax : level ≤ L.maxHeight) :
    ∃ pre' level', L.findPreLevels key l p pre level = some (pre', level') ∧
      (∀ l' < L.maxHeight, IsPre (L.AtLevel l') key (pre' l')) ∧
      (∀ l' < L.maxHeight, (L.AtLevel l' key ↔ l' < level')) ∧ level' ≤ L.maxHeight := by
  induction l generalizing p pre level with
  | zero =>
    exact ⟨pre, level, rfl, fun l' => hpre l' (Nat.zero_le _), fun l' => hlevel l' (Nat.zero_le _), hmax⟩
  | succ l ih =>
    have hfuel : (L.keys.filter (Behind p)).card < L.keys.card + 1 :=
      Nat.lt_succ_of_le (card_filter_le _ _)
    obtain ⟨q, n, hloop, hq, hnext⟩ := hL.findPreLoop_spec hl
      (fun k hk => (hp k hk).down l.le_succ) hkey hfuel
    have hfound := isNext_key_iff hq hnext
    simp only [findPreLevels, hloop, bind_some]
    refine ih (by omega) hq.mem hq.behind (fun l' hl' hlt => ?_) ?_ (fun l' hl' hlt => ?_) ?_
    · rcases eq_or_lt_of_le hl' with rfl | hl'
      · simpa using hq
      · rw [update_of_ne (by omega)]
        exact hpre l' hl' hlt
    · split
      · exact fun _ => l.lt_succ_self
      · exact fun hne => by have := hzero hne; omega
    · rcases eq_or_lt_of_le hl' with rfl | hl'
      · rw [← hfound]
        by_cases hset : level = 0
        · by_cases hn : n = some key <;> simp [hn, hset]
        · -- the key has been found above, and so it is at this level too
          have habove := hzero hset
          have hat := (hlevel (level - 1) (by omega) (by omega)).2 (by omega)
          simp only [hset, and_false, if_false, hfound]
          exact iff_of_true (hat.down (by omega)) (by omega)
      · rw [hlevel l' hl' hlt]
        split <;> omega
    · split <;> omega

theorem Valid.findPre_spec (hL : L.Valid) (hpos : 0 < L.maxHeight) (key : α) :
    ∃ pre level, L.findPre key = some (pre, level) ∧
      (∀ l < L.maxHeight, IsPre (L.AtLevel l) key (pre l)) ∧ (level ≠ 0 ↔ key ∈ L.keys) ∧
      (∀ l < L.maxHeight, (L.AtLevel l key ↔ l < level)) ∧ level ≤ L.maxHeight := by
  have hlevels : ∃ pre level, L.findPreLevels key L.maxHeight none (fun _ => none) 0 = some (pre, level) ∧
      (∀ l < L.maxHeight, IsPre (L.AtLevel l) key (pre l)) ∧
      (∀ l < L.maxHeight, (L.AtLevel l key ↔ l < level)) ∧ level ≤ L.maxHeight :=
    hL.findPreLevels_spec le_rfl (fun k hk => by cases hk) (behind_none key) (fun l' hl hlt => by omega)
      (fun h => absurd rfl h) (fun l' hl hlt => by omega) (Nat.zero_le _)
  obtain ⟨pre, level, hfind, hpre, hlevel, hmax⟩ := hlevels
  refine ⟨pre, level, hfind, hpre, ?_, hlevel, hmax⟩
  rw [← Nat.pos_iff_ne_zero, ← hlevel 0 hpos]
  exact ⟨fun hat => hat.1, fun hkey => ⟨hkey, hL.level_pos key hkey⟩⟩

end SkipList

/-! ### The writer -/

structure InsertOk (L : SkipList α) (key : α) (height : ℕ) (links : Links α) (w : Inserter α) : Prop where
  key_eq : w.key = key
  left_le : w.left ≤ height
  height_le : height ≤ L.maxHeight
  fresh : 0 < height → key ∉ L.keys
  pre : ∀ l < height, IsPre (L.AtLevel l) key (w.pre l)
  joined : ∀ l < L.maxHeight, links.Joined l (Published L key height w.left l)
  half : w.half = true → ∃ l, w.left = l + 1 ∧ links (some key) l = links (w.pre l) l
  unset : ∀ l, (if w.half then l + 1 else l) < w.left → links (some key) l = none

variable {L : SkipList α} {key : α} {height : ℕ} {links : Links α} {w : Inserter α}

theorem Published.mem {left l : ℕ} {k : α} (h : Published L key height left l k) :
    k ∈ Insert.insert key L.keys :=
  h.elim (fun hat => mem_insert_of_mem hat.1) fun hk => hk.1 ▸ mem_insert_self _ _

theorem Inserter.step_cases {links' : Links α} {w' : Inserter α} (h : w.step links = some (links', w')) :
    ∃ l, w.left = l + 1 ∧
      ((w.half = false ∧ links' = links.setNext (some w.key) l (links (w.pre l) l) ∧
        w' = { w with half := true }) ∨
       (w.half = true ∧ links' = links.setNext (w.pre l) l (some (some w.key)) ∧
        w' = { w with left := l, half := false })) := by
  obtain ⟨k, pre, left, half⟩ := w
  cases left with
  | zero => cases h
  | succ l =>
    refine ⟨l, rfl, ?_⟩
    cases half with
    | false =>
      cases h
      exact Or.inl ⟨rfl, rfl, rfl⟩
    | true =>
      cases h
      exact Or.inr ⟨rfl, rfl, rfl⟩

theorem Links.setNext_self (links : Links α) (x : Option α) (l : ℕ) (link : Option (Option α)) :
    links.setNext x l link x l = link :=
  if_pos ⟨rfl, rfl⟩

theorem Links.setNext_of_ne {x x' : Option α} {l l' : ℕ} (link : Option (Option α)) (h : ¬ (x' = x ∧ l' = l)) :
    links.setNext x l link x' l' = links x' l' :=
  if_neg h

theorem InsertOk.set_own {l : ℕ} (h : InsertOk L key height links w) (hleft : w.left = l + 1)
    (hhalf : w.half = false) :
    InsertOk L key height (links.setNext (some key) l (links (w.pre l) l)) { w with half := true } where
  key_eq := h.key_eq
  left_le := h.left_le
  height_le := h.height_le
  fresh := h.fresh
  pre := h.pre
  joined l' hl' := by
    refine (h.joined l' hl').congr (fun _ => Iff.rfl) fun x hx => Links.setNext_of_ne _ ?_
    rintro ⟨rfl, rfl⟩
    rcases hx key rfl with hat | ⟨-, hle, -⟩
    · exact h.fresh (by have := h.left_le; omega) hat.1
    · exact absurd hle (by simp [hleft])
  half _ := by
    refine ⟨l, hleft, ?_⟩
    have hl : l < height := by have := h.left_le; omega
    rw [Links.setNext_self, Links.setNext_of_ne]
    rintro ⟨hpre, -⟩
    exact lt_irrefl key (behind_some.1 (hpre ▸ (h.pre l hl).behind))
  unset l' hl' := by
    simp only [if_true, hleft] at hl'
    rw [Links.setNext_of_ne _ (by omega)]
    exact h.unset l' (by simp [hhalf, hleft]; omega)

theorem InsertOk.publish {l : ℕ} (h : InsertOk L key height links w) (hleft : w.left = l + 1)
    (hhalf : w.half = true) :
    InsertOk L key height (links.setNext (w.pre l) l (some (some key))) { w with left := l, half := false } := by
  have hl : l < height := by have := h.left_le; omega
  have hpre := h.pre l hl
  have hfresh := h.fresh (by omega)
  have hne : some key ≠ w.pre l := fun heq => lt_irrefl key (behind_some.1 (heq ▸ hpre.behind))
  have hjoined : ∀ x, (∀ k, x = some k → L.AtLevel l k) →
      ∃ y, links x l = some y ∧ IsNext (L.AtLevel l) x y :=
    (h.joined l (hl.trans_le h.height_le)).congr (published_of_le (by omega)) fun _ _ => rfl
  refine ⟨h.key_eq, by simp; omega, h.height_le, h.fresh, h.pre, fun l' hl' => ?_, fun hf => by simp at hf,
    fun l' hl' => ?_⟩
  · by_cases heq : l' = l
    · subst heq
      intro x hx
      have hcases : ∀ k, x = some k → L.AtLevel l' k ∨ k = key := fun k hk =>
        (published_succ hl k).1 (hx k hk)
      -- the link that leads to the new node, its own, or one that is left as it is
      suffices hy : ∃ y, links.setNext (w.pre l') l' (some (some key)) x l' = some y ∧
          IsNext (fun k => L.AtLevel l' k ∨ k = key) x y by
        obtain ⟨y, hy, hnext⟩ := hy
        exact ⟨y, hy, hnext.congr fun k => (published_succ hl k).symm⟩
      by_cases hx' : x = w.pre l'
      · subst hx'
        exact ⟨some key, Links.setNext_self .., .to_new hpre⟩
      · rw [Links.setNext_of_ne _ fun hand => hx' hand.1]
        by_cases hkey : x = some key
        · subst hkey
          obtain ⟨y, hy, hnext⟩ := hjoined (w.pre l') hpre.mem
          obtain ⟨l'', hl'', hown⟩ := h.half hhalf
          obtain rfl : l'' = l' := by omega
          exact ⟨y, hown.trans hy, hnext.from_new hpre fun hat => hfresh hat.1⟩
        · have hold : ∀ k, x = some k → L.AtLevel l' k := fun k hk =>
            (hcases k hk).resolve_right fun hk' => hkey (hk' ▸ hk)
          obtain ⟨y, hy, hnext⟩ := hjoined x hold
          exact ⟨y, hy, hnext.other hpre hold hx'⟩
    · -- another level
      refine (h.joined l' hl').congr (fun k => ?_) fun x _ => Links.setNext_of_ne _ fun hand => heq hand.2
      simp only [Published, hleft]
      exact or_congr_right (and_congr_right fun _ => and_congr_left fun _ => by omega)
  · simp only [Bool.false_eq_true, if_false] at hl'
    rw [Links.setNext_of_ne _ fun hand => hne hand.1]
    exact h.unset l' (by simp [hhalf, hleft]; omega)

theorem InsertOk.step {links' : Links α} {w' : Inserter α} (h : InsertOk L key height links w)
    (hstep : w.step links = some (links', w')) :
    InsertOk L key height links' w' ∧ w'.left ≤ w.left := by
  obtain ⟨l, hleft, ⟨hhalf, rfl, rfl⟩ | ⟨hhalf, rfl, rfl⟩⟩ := Inserter.step_cases hstep
  · obtain rfl := h.key_eq
    exact ⟨h.set_own hleft hhalf, le_rfl⟩
  · obtain rfl := h.key_eq
    exact ⟨h.publish hleft hhalf, by simp [hleft]⟩

/-! ### A whole insert -/

theorem InsertOk.start {pre : ℕ → Option α} (hL : L.Valid) (hkey : key ∉ L.keys) (hle : height ≤ L.maxHeight)
    (hpre : ∀ l < height, IsPre (L.AtLevel l) key (pre l)) :
    InsertOk L key height (L.next.newNode key) ⟨key, pre, height, false⟩ where
  key_eq := rfl
  left_le := le_rfl
  height_le := hle
  fresh _ := hkey
  pre := hpre
  joined l hl := by
    refine (hL.joined l hl).congr (fun k => (published_of_le id k).symm) fun x hx => if_neg ?_
    rintro rfl
    exact hkey ((published_of_le id key).1 (hx key rfl)).1
  half h := absurd h Bool.false_ne_true
  unset _ _ := if_pos rfl

theorem SkipList.Valid.insertBegin_spec (hL : L.Valid) (hpos : 0 < height) (hle : height ≤ L.maxHeight)
    (key : α) :
    ∃ links w, L.insertBegin key height = some (links, w) ∧ w.half = false ∧
      w.left = (if key ∈ L.keys then 0 else height) ∧ InsertOk L key w.left links w := by
  obtain ⟨pre, level, hfind, hpre, hlevel, -⟩ := hL.findPre_spec (hpos.trans_le hle) key
  by_cases hkey : key ∈ L.keys
  · refine ⟨L.next, ⟨key, pre, 0, false⟩, by simp [insertBegin, hfind, hlevel.2 hkey], rfl,
      (if_pos hkey).symm, rfl, le_rfl, Nat.zero_le _, fun h => absurd h (Nat.lt_irrefl 0),
      fun l hl => absurd hl (Nat.not_lt_zero l), fun l hl => ?_, fun h => absurd h Bool.false_ne_true,
      fun l hl => absurd hl (Nat.not_lt_zero _)⟩
    exact (hL.joined l hl).congr (fun k => (published_of_le (fun _ => Nat.zero_le l) k).symm) fun _ _ => rfl
  · have hzero : level = 0 := by
      by_contra hne
      exact hkey (hlevel.1 hne)
    exact ⟨L.next.newNode key, ⟨key, pre, height, false⟩, by simp [insertBegin, hfind, hzero], rfl,
      (if_neg hkey).symm, .start hL hkey hle fun l hl => hpre l (hl.trans_le hle)⟩

theorem InsertOk.finish {n : ℕ} (h : InsertOk L key height links w)
    (hn : 2 * w.left ≤ n + if w.half then 1 else 0) :
    ∃ w', w'.left = 0 ∧ InsertOk L key height (Inserter.finish n links w) w' := by
  induction n generalizing links w with
  | zero =>
    refine ⟨w, ?_, h⟩
    split at hn <;> omega
  | succ n ih =>
    rw [Inserter.finish]
    split
    · next hnone =>
      refine ⟨w, ?_, h⟩
      obtain ⟨k, pre, left, half⟩ := w
      cases left with
      | zero => rfl
      | succ l => cases half <;> cases hnone
    · next links' w' hsome =>
      refine ih (h.step hsome).1 ?_
      obtain ⟨l, hleft, ⟨hhalf, -, rfl⟩ | ⟨hhalf, -, rfl⟩⟩ := Inserter.step_cases hsome
      · simp only [hhalf, hleft, Bool.false_eq_true, if_false, if_true] at hn ⊢
        omega
      · simp only [hhalf, hleft, Bool.false_eq_true, if_false, if_true] at hn ⊢
        omega

theorem InsertOk.valid (hL : L.Valid) (h : InsertOk L key height links w) (hleft : w.left = height)
    (hpos : 0 < height) :
    SkipList.Valid
      { L with
        keys := Insert.insert key L.keys
        level := update L.level key height
        next := Inserter.finish (2 * height) links w } where
  level_pos k hk := by
    rcases mem_insert.1 hk with rfl | hk
    · simpa using hpos
    · have hne : k ≠ key := fun heq => h.fresh hpos (heq ▸ hk)
      simpa [update_of_ne hne] using hL.level_pos k hk
  joined l hl := by
    have hfuel : 2 * w.left ≤ 2 * height + if w.half then 1 else 0 := by
      rw [hleft]
      exact Nat.le_add_right _ _
    obtain ⟨w', hw', hend⟩ := h.finish hfuel
    refine (hend.joined l hl).congr (fun k => ?_) fun _ _ => rfl
    have hkey := h.fresh hpos
    simp only [Published, SkipList.AtLevel, hw', mem_insert, Nat.zero_le, true_and]
    by_cases heq : k = key
    · subst heq
      simp [hkey]
    · simp [heq]

theorem SkipList.Valid.insert (hL : L.Valid) (hpos : 0 < height) (hle : height ≤ L.maxHeight) (key : α) :
    ∃ L', L.insert key height = some L' ∧ L'.Valid ∧ L'.maxHeight = L.maxHeight ∧
      L'.keys = Insert.insert key L.keys := by
  obtain ⟨links, w, hbegin, hhalf, hleft, hok⟩ := hL.insertBegin_spec hpos hle key
  refine ⟨_, congrArg (Option.map _) hbegin, ?_, rfl, rfl⟩
  by_cases hkey : key ∈ L.keys
  · simp only [if_pos hkey, insert_eq_of_mem hkey] at hleft ⊢
    refine ⟨hL.level_pos, fun l hl => ?_⟩
    obtain ⟨w', -, hend⟩ := hok.finish (n := 2 * height) (by omega)
    refine (hend.joined l hl).congr (fun k => ?_) fun _ _ => rfl
    exact published_of_le (fun _ => hleft ▸ Nat.zero_le l) k
  · simp only [if_neg hkey] at hleft ⊢
    rw [hleft] at hok
    exact hok.valid hL hleft hpos

end ComponentsW
