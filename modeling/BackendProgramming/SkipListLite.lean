/-
**Removing from the skip list of `skiplist_lite.cpp`.**

This list takes equal keys; a node is named by its key and by when it was made.  `Remove` leads the links past the
first node with the key, and then deletes `pre[0]->next_[0]`: **that is the node behind the one it has taken out**.
-/

import BackendProgramming.SkipListSet

set_option autoImplicit false

namespace ComponentsW

open OrderedLinks List Option

/-! ### The nodes -/

@[ext] structure LiteNode where
  key : ℤ
  serial : ℕ
deriving Repr

instance : LinearOrder LiteNode :=
  LinearOrder.lift' (fun n => toLex (n.key, OrderDual.toDual n.serial)) fun m n h => by
    have hpair := Prod.mk.inj (toLex.injective h)
    exact LiteNode.ext hpair.1 (OrderDual.toDual.injective hpair.2)

theorem LiteNode.lt_iff {m n : LiteNode} : m < n ↔ m.key < n.key ∨ m.key = n.key ∧ n.serial < m.serial :=
  Prod.Lex.toLex_lt_toLex

theorem LiteNode.lt_new_iff {n : LiteNode} {key : ℤ} {made : ℕ} (h : n.serial < made) :
    n < ⟨key, made⟩ ↔ n.key < key := by
  rw [lt_iff]
  exact or_iff_left fun hand => absurd hand.2 h.asymm

/-! ### The functions -/

def liteCompare (a b : ℤ) : ℤ := if a < b then -1 else if a > b then 1 else 0

theorem liteCompare_neg_iff {a b : ℤ} : liteCompare a b < 0 ↔ a < b := by
  unfold liteCompare
  split
  · simp [*]
  · split <;> simp [*]

structure SkipListLite where
  maxLevel : ℕ
  made : ℕ
  next : Links LiteNode
  freed : List (Option LiteNode)

def Links.delete (links : Links LiteNode) (node : Option LiteNode) : Links LiteNode :=
  fun x l => if x ≠ none ∧ x = node then none else links x l

namespace SkipListLite

def new (maxLevel : ℕ) : SkipListLite where
  maxLevel := maxLevel
  made := 0
  next := fun x l => if x = none ∧ l < maxLevel then some none else none
  freed := []

def findLoop (s : SkipListLite) (less : ℤ → ℤ → Bool) (key : ℤ) (l : ℕ) :
    ℕ → Option LiteNode → Option (Option LiteNode × Option LiteNode)
  | 0, _ => none
  | fuel + 1, p =>
    (s.next p l).bind fun next =>
      match next with
      | none => some (p, none)
      | some n =>
        if some n ∈ s.freed then none
        else if less n.key key then s.findLoop less key l fuel (some n)
        else some (p, some n)

def findLevels (s : SkipListLite) (less : ℤ → ℤ → Bool) (key : ℤ) :
    ℕ → Option LiteNode → (ℕ → Option LiteNode) → Option ℕ → Option ((ℕ → Option LiteNode) × Option ℕ)
  | 0, _, pre, level => some (pre, level)
  | l + 1, p, pre, level =>
    (s.findLoop less key l (s.made + 1) p).bind fun found =>
      s.findLevels less key l found.1 (Function.update pre l found.1)
        (if found.2.any (·.key = key) ∧ level = none then some l else level)

def findPre (s : SkipListLite) (key : ℤ) : Option ((ℕ → Option LiteNode) × Option ℕ) :=
  s.findLevels (fun a b => a < b) key s.maxLevel none (fun _ => none) none

def contains (s : SkipListLite) (key : ℤ) : Option Bool := (s.findPre key).map fun found => found.2.isSome

def insert (s : SkipListLite) (key : ℤ) (level : ℕ) : Option SkipListLite :=
  (s.findLevels (fun a b => liteCompare a b < 0) key level none (fun _ => none) none).map fun found =>
    { s with
      made := s.made + 1
      next := Inserter.finish (2 * level) (s.next.newNode ⟨key, s.made⟩) ⟨⟨key, s.made⟩, found.1, level, false⟩ }

def remove (s : SkipListLite) (key : ℤ) : Option SkipListLite :=
  (s.findPre key).bind fun found =>
    match found.2 with
    | none => some s
    | some level =>
      (removeLoop found.1 (level + 1) s.next).bind fun links =>
        (links (found.1 0) 0).bind fun node =>
          if node ∈ s.freed then none
          else some { s with next := links.delete node, freed := node :: s.freed }

def chain (s : SkipListLite) (l : ℕ) : Option (List LiteNode) :=
  (s.next none l).bind (s.next.chain l (s.made + 1))

def Removes (s s' : SkipListLite) (key : ℤ) : Prop :=
  ∃ n, n.key = key ∧ (∃ ns, s.chain 0 = some ns ∧ n ∈ ns) ∧
    (∀ l < s.maxLevel, s'.chain l = (s.chain l).map (·.erase n)) ∧ s'.freed = some n :: s.freed

end SkipListLite

structure LiteSystem where
  list : SkipListLite
  counted : Multiset ℤ

namespace LiteSystem

def start (maxLevel : ℕ) : LiteSystem := ⟨.new maxLevel, 0⟩

def step (s : LiteSystem) : SkipListCall ℤ → Option LiteSystem
  | .insert key coins =>
    (s.list.insert key (randomLevel s.list.maxLevel 1 coins)).map fun list => ⟨list, key ::ₘ s.counted⟩
  | .remove key => (s.list.remove key).map fun list => ⟨list, s.counted.erase key⟩

def Right (s : LiteSystem) (call : SkipListCall ℤ) : Prop :=
  ∃ t, s.step call = some t ∧ (∀ k, t.list.contains k = some (decide (k ∈ t.counted))) ∧
    ∀ key, call = .remove key → key ∈ s.counted → s.list.Removes t.list key

def Keeps (s : LiteSystem) (call : SkipListCall ℤ) : Prop := ∀ key, call = .remove key → key ∉ s.counted

end LiteSystem

/-! ### The list up to the first remove -/

namespace SkipListLite

structure Models (s : SkipListLite) (L : SkipList LiteNode) (m : Multiset ℤ) : Prop where
  valid : L.Valid
  pos : 0 < L.maxHeight
  max_eq : L.maxHeight = s.maxLevel
  next_eq : L.next = s.next
  serial_lt : ∀ n ∈ L.keys, n.serial < s.made
  card_le : L.keys.card ≤ s.made
  keys_eq : L.keys.val.map LiteNode.key = m
  freed_eq : s.freed = []

variable {s : SkipListLite} {L : SkipList LiteNode} {m : Multiset ℤ} {less : ℤ → ℤ → Bool} {key : ℤ}

theorem models_new {maxLevel : ℕ} (hpos : 0 < maxLevel) : (new maxLevel).Models (SkipList.new maxLevel) 0 where
  valid := SkipList.valid_new maxLevel
  pos := hpos
  max_eq := rfl
  next_eq := rfl
  serial_lt n hn := absurd hn (Finset.notMem_empty n)
  card_le := le_rfl
  keys_eq := rfl
  freed_eq := rfl

theorem Models.mem_iff (h : s.Models L m) : key ∈ m ↔ ∃ n ∈ L.keys, n.key = key := by
  rw [← h.keys_eq, Multiset.mem_map]
  rfl

theorem Models.new_notMem (h : s.Models L m) (key : ℤ) : ⟨key, s.made⟩ ∉ L.keys := fun hmem =>
  absurd (h.serial_lt _ hmem) (lt_irrefl _)

theorem Models.findLoop_eq (h : s.Models L m) (hless : ∀ a b, less a b = true ↔ a < b) {l : ℕ}
    (hl : l < L.maxHeight) {fuel : ℕ} {p : Option LiteNode} (hp : ∀ n, p = some n → L.AtLevel l n) :
    s.findLoop less key l fuel p = L.findPreLoop ⟨key, s.made⟩ l fuel p := by
  induction fuel generalizing p with
  | zero => rfl
  | succ fuel ih =>
    obtain ⟨next, hnext, hisNext⟩ := h.valid.joined l hl p hp
    have hnext' : s.next p l = some next := h.next_eq ▸ hnext
    cases next with
    | none => simp [findLoop, SkipList.findPreLoop, hnext, hnext']
    | some n =>
      have hn := (hisNext.mem n rfl).1
      have hiff : less n.key key = true ↔ n < ⟨key, s.made⟩ :=
        (hless _ _).trans (LiteNode.lt_new_iff (h.serial_lt n hn.1)).symm
      have hrest := ih fun n' hn' => some.inj hn' ▸ hn
      simp [findLoop, SkipList.findPreLoop, hnext, hnext', h.freed_eq, hiff, hrest]

theorem Models.next_key_iff (h : s.Models L m) {l : ℕ} {q n : Option LiteNode}
    (hq : IsPre (L.AtLevel l) ⟨key, s.made⟩ q) (hn : IsNext (L.AtLevel l) q n) :
    n.any (·.key = key) = true ↔ ∃ n', L.AtLevel l n' ∧ n'.key = key := by
  constructor
  · intro hany
    obtain ⟨n', rfl, hkey⟩ := (any_eq_true _ _).1 hany
    exact ⟨n', (hn.mem n' rfl).1, by simpa using hkey⟩
  · rintro ⟨n', hat, hkey⟩
    -- a node with the key is behind the place, and what is between them has the key too
    have hnot : ∀ n'', L.AtLevel l n'' → n''.key = key → Behind q n'' := by
      rintro n'' hat'' hkey'' p rfl
      have hp := (LiteNode.lt_new_iff (h.serial_lt p (hq.mem p rfl).1)).1 (behind_some.1 hq.behind)
      exact LiteNode.lt_iff.2 (Or.inl (hkey''.symm ▸ hp))
    obtain ⟨k, rfl, hle⟩ := hn.le n' hat (hnot n' hat hkey)
    obtain ⟨hk, hqk⟩ := hn.mem k rfl
    have hge : ¬ k.key < key := by
      intro hlt
      obtain ⟨i, rfl, hki⟩ := hq.le k hk ((LiteNode.lt_new_iff (h.serial_lt k hk.1)).2 hlt)
      exact absurd (behind_some.1 hqk) (not_lt.2 hki)
    have hle' : k.key ≤ n'.key := by
      rcases hle.eq_or_lt with heq | hlt
      · rw [heq]
      · exact (LiteNode.lt_iff.1 hlt).elim le_of_lt fun hand => hand.1.le
    simpa using le_antisymm (hle'.trans hkey.le) (not_lt.1 hge)

theorem Models.findLevels_spec (h : s.Models L m) (hless : ∀ a b, less a b = true ↔ a < b) {l top : ℕ}
    (hl : l ≤ top) (htop : top ≤ L.maxHeight) {p : Option LiteNode} {pre : ℕ → Option LiteNode}
    {level : Option ℕ} (hp : ∀ n, p = some n → L.AtLevel l n) (hkey : Behind p ⟨key, s.made⟩)
    (hpre : ∀ l', l ≤ l' → l' < top → IsPre (L.AtLevel l') ⟨key, s.made⟩ (pre l'))
    (hlevel : level ≠ none ↔ ∃ l', l ≤ l' ∧ l' < top ∧ ∃ n, L.AtLevel l' n ∧ n.key = key) :
    ∃ pre' level', s.findLevels less key l p pre level = some (pre', level') ∧
      (∀ l' < top, IsPre (L.AtLevel l') ⟨key, s.made⟩ (pre' l')) ∧
      (level' ≠ none ↔ ∃ l' < top, ∃ n, L.AtLevel l' n ∧ n.key = key) := by
  induction l generalizing p pre level with
  | zero => exact ⟨pre, level, rfl, fun l' => hpre l' (Nat.zero_le _), by simpa using hlevel⟩
  | succ l ih =>
    have hfuel : (L.keys.filter (Behind p)).card < s.made + 1 :=
      Nat.lt_succ_of_le ((Finset.card_filter_le _ _).trans h.card_le)
    have hp' : ∀ n, p = some n → L.AtLevel l n := fun n hn => (hp n hn).down l.le_succ
    obtain ⟨q, n, hloop, hq, hnext⟩ := h.valid.findPreLoop_spec (lt_of_lt_of_le hl htop) hp' hkey hfuel
    rw [← h.findLoop_eq hless (lt_of_lt_of_le hl htop) hp'] at hloop
    simp only [findLevels, hloop, bind_some]
    refine ih (by omega) hq.mem hq.behind (fun l' hl' hlt => ?_) ?_
    · rcases eq_or_lt_of_le hl' with rfl | hl'
      · simpa using hq
      · rw [Function.update_of_ne (by omega)]
        exact hpre l' hl' hlt
    · -- the key is found at the levels above, or at this one
      have hsplit : (∃ l', l ≤ l' ∧ l' < top ∧ ∃ n, L.AtLevel l' n ∧ n.key = key) ↔
          n.any (·.key = key) = true ∨ level ≠ none := by
        rw [hlevel, h.next_key_iff hq hnext]
        constructor
        · rintro ⟨l', hl', hlt, hat⟩
          rcases eq_or_lt_of_le hl' with rfl | hl'
          · exact Or.inl hat
          · exact Or.inr ⟨l', hl', hlt, hat⟩
        · rintro (hat | ⟨l', hl', hlt, hat⟩)
          · exact ⟨l, le_rfl, hl, hat⟩
          · exact ⟨l', by omega, hlt, hat⟩
      rw [hsplit]
      by_cases hn : n.any (·.key = key) = true <;> by_cases hnone : level = none <;> simp [hn, hnone]

theorem Models.findLevels_head (h : s.Models L m) (hless : ∀ a b, less a b = true ↔ a < b) {top : ℕ}
    (htop : top ≤ L.maxHeight) (key : ℤ) :
    ∃ pre level, s.findLevels less key top none (fun _ => none) none = some (pre, level) ∧
      (∀ l < top, IsPre (L.AtLevel l) ⟨key, s.made⟩ (pre l)) ∧
      (level ≠ none ↔ ∃ l < top, ∃ n, L.AtLevel l n ∧ n.key = key) :=
  h.findLevels_spec hless le_rfl htop (fun n hn => by cases hn) (behind_none _) (fun l' hl hlt => by omega)
    (by simp; omega)

theorem Models.findPre_spec (h : s.Models L m) (key : ℤ) :
    ∃ pre level, s.findPre key = some (pre, level) ∧
      (∀ l < L.maxHeight, IsPre (L.AtLevel l) ⟨key, s.made⟩ (pre l)) ∧ (level ≠ none ↔ key ∈ m) := by
  obtain ⟨pre, level, hfind, hpre, hlevel⟩ := h.findLevels_head (fun a b => decide_eq_true_iff (p := a < b))
    le_rfl key
  refine ⟨pre, level, by rw [findPre, ← h.max_eq, hfind], hpre, hlevel.trans ?_⟩
  rw [h.mem_iff]
  constructor
  · rintro ⟨l, -, n, hat, hn⟩
    exact ⟨n, hat.1, hn⟩
  · rintro ⟨n, hmem, hn⟩
    exact ⟨0, h.pos, n, ⟨hmem, h.valid.level_pos n hmem⟩, hn⟩

theorem Models.contains_eq (h : s.Models L m) (key : ℤ) : s.contains key = some (decide (key ∈ m)) := by
  obtain ⟨pre, level, hfind, -, hlevel⟩ := h.findPre_spec key
  rw [contains, hfind, map_some, some.injEq, Bool.eq_iff_iff, decide_eq_true_eq, ← hlevel,
    isSome_iff_ne_none]

theorem Models.insert (h : s.Models L m) {level : ℕ} (hpos : 0 < level) (hle : level ≤ s.maxLevel) (key : ℤ) :
    ∃ s' L', s.insert key level = some s' ∧ s'.Models L' (key ::ₘ m) := by
  rw [← h.max_eq] at hle
  have hless : ∀ a b, decide (liteCompare a b < 0) = true ↔ a < b := fun a b =>
    decide_eq_true_iff.trans liteCompare_neg_iff
  obtain ⟨pre, found, hfind, hpre, -⟩ := h.findLevels_head hless hle key
  have hnew := h.new_notMem key
  have hok := InsertOk.start h.valid hnew hle hpre
  rw [h.next_eq] at hok
  refine ⟨_, _, congrArg (Option.map _) hfind, hok.valid h.valid rfl hpos, h.pos, h.max_eq, rfl, ?_, ?_, ?_,
    h.freed_eq⟩
  · intro n hn
    rcases Finset.mem_insert.1 hn with rfl | hn
    · exact Nat.lt_succ_self _
    · exact (h.serial_lt n hn).trans (Nat.lt_succ_self _)
  · exact (Finset.card_insert_of_notMem hnew).trans_le (Nat.succ_le_succ h.card_le)
  · dsimp only
    rw [Finset.insert_val_of_notMem hnew, Multiset.map_cons, h.keys_eq]

theorem Models.remove_absent (h : s.Models L m) (hkey : key ∉ m) : s.remove key = some s := by
  obtain ⟨pre, level, hfind, -, hlevel⟩ := h.findPre_spec key
  obtain rfl : level = none := by
    by_contra hne
    exact hkey (hlevel.1 hne)
  rw [remove, hfind, bind_some]

/-! ### What a remove deletes -/

theorem removeLoop_zero {pre : ℕ → Option LiteNode} {level : ℕ} {links links' : Links LiteNode}
    (h : removeLoop pre (level + 1) links = some links') :
    ∃ n y, links (pre 0) 0 = some (some n) ∧ links (some n) 0 = some y ∧
      ∀ x, links' x 0 = links.setNext (pre 0) 0 (some y) x 0 := by
  induction level generalizing links with
  | zero =>
    obtain ⟨node, hnode, h₁⟩ := bind_eq_some_iff.1 h
    obtain ⟨n, rfl, h₂⟩ := bind_eq_some_iff.1 h₁
    obtain ⟨y, hy, h₃⟩ := bind_eq_some_iff.1 h₂
    cases h₃
    exact ⟨n, y, hnode, hy, fun _ => rfl⟩
  | succ level ih =>
    obtain ⟨node, -, h₁⟩ := bind_eq_some_iff.1 h
    obtain ⟨n, -, h₂⟩ := bind_eq_some_iff.1 h₁
    obtain ⟨y, -, h₃⟩ := bind_eq_some_iff.1 h₂
    have hsame : ∀ x, links.setNext (pre (level + 1)) (level + 1) (some y) x 0 = links x 0 := fun x =>
      Links.setNext_of_ne _ fun hand => by omega
    obtain ⟨n', y', hn', hy', hrest⟩ := ih h₃
    rw [hsame] at hn' hy'
    refine ⟨n', y', hn', hy', fun x => ?_⟩
    rw [hrest]
    by_cases hx : x = pre 0
    · rw [hx, Links.setNext_self, Links.setNext_self]
    · have hne : ¬ (x = pre 0 ∧ 0 = 0) := fun hand => hx hand.1
      rw [Links.setNext_of_ne _ hne, Links.setNext_of_ne _ hne, hsame]

theorem chain_of_delete {links : Links LiteNode} {node : Option LiteNode} {l fuel : ℕ} {x : Option LiteNode}
    {ns : List LiteNode} (h : (links.delete node).chain l fuel x = some ns) : links.chain l fuel x = some ns := by
  induction fuel generalizing x ns with
  | zero => cases h
  | succ fuel ih =>
    cases x with
    | none => exact h
    | some n =>
      obtain ⟨next, hnext, h⟩ := bind_eq_some_iff.1 h
      obtain ⟨rest, hrest, rfl⟩ := map_eq_some_iff.1 h
      have hlink : links (some n) l = some next := by
        unfold Links.delete at hnext
        split at hnext
        · cases hnext
        · exact hnext
      rw [Links.chain, hlink, bind_some, ih hrest, map_some]

theorem Models.not_removes (h : s.Models L m) {s' : SkipListLite} (hkey : key ∈ m)
    (hremove : s.remove key = some s') : ¬ s.Removes s' key := by
  obtain ⟨pre, level, hfind, hpre, hlevel⟩ := h.findPre_spec key
  obtain ⟨level, rfl⟩ := ne_none_iff_exists'.1 (hlevel.2 hkey)
  rw [remove, hfind, bind_some] at hremove
  obtain ⟨links, hloop, hremove⟩ := bind_eq_some_iff.1 hremove
  obtain ⟨node, hnode, hremove⟩ := bind_eq_some_iff.1 hremove
  rw [h.freed_eq, if_neg not_mem_nil] at hremove
  cases hremove
  rintro ⟨a, -, ⟨ns, hns, -⟩, hchain, hfreed⟩
  obtain rfl : node = some a := (cons.inj hfreed).1
  -- the links of the lowest level lead past the first node with the key
  obtain ⟨n, y, hn, hy, hlinks⟩ := removeLoop_zero hloop
  have hjoined : s.next.Joined 0 (L.AtLevel 0) := h.next_eq ▸ h.valid.joined 0 h.pos
  obtain ⟨n', hn', hisNext⟩ := hjoined (pre 0) (hpre 0 h.pos).mem
  obtain rfl := some.inj (hn.symm.trans hn')
  obtain ⟨hat, hbehind⟩ := hisNext.mem n rfl
  have hpre' : IsPre (L.AtLevel 0) n (pre 0) :=
    .of_isNext hisNext (hpre 0 h.pos).mem hbehind fun j hj => (some.inj hj).le
  obtain ⟨y', hy', hynext⟩ := hjoined (some n) fun j hj => some.inj hj ▸ hat
  obtain rfl := some.inj (hy.symm.trans hy')
  have hpast := (joined_past hjoined hpre' hynext).congr (fun _ => Iff.rfl) fun x _ => hlinks x
  -- so the node that is deleted is one of those they lead to
  obtain rfl : some a = y := by
    rw [hlinks, Links.setNext_self] at hnode
    exact (some.inj hnode).symm
  have ha : L.AtLevel 0 a ∧ a ≠ n := ((hynext.past_old hpre').mem a rfl).1
  obtain ⟨first, hfirst, hfirstNext⟩ := hpast none fun k hk => by cases hk
  have hfuel : (L.keys.filter (Behind none)).card < s.made + 1 :=
    Nat.lt_succ_of_le ((Finset.card_filter_le _ _).trans h.card_le)
  obtain ⟨ks, hks, -, hmem⟩ := hpast.chain_spec (fun k hk => hk.1.1) hfirstNext hfuel
  -- while it should have been taken out of them
  have hzero := hchain 0 (h.max_eq ▸ h.pos)
  rw [hns, map_some, chain] at hzero
  obtain ⟨first', hfirst', hzero⟩ := bind_eq_some_iff.1 hzero
  have hfirst'' : links none 0 = some first' := by simpa [Links.delete] using hfirst'
  obtain rfl := some.inj (hfirst.symm.trans hfirst'')
  obtain rfl := some.inj (hks.symm.trans (chain_of_delete hzero))
  have hnodup : ns.Nodup := by
    obtain ⟨z, hz, hznext⟩ := hjoined none fun k hk => by cases hk
    obtain ⟨ns', hns', hsorted, -⟩ := hjoined.chain_spec (fun k hk => hk.1) hznext hfuel
    rw [chain, hz, bind_some, hns'] at hns
    exact some.inj hns ▸ hsorted.imp ne_of_lt
  exact absurd ((hmem a).2 ⟨ha, behind_none a⟩) hnodup.not_mem_erase

end SkipListLite

/-! ### Runs -/

def LiteSystem.Sound (s : LiteSystem) : Prop := ∃ L, s.list.Models L s.counted

theorem LiteSystem.sound_start {maxLevel : ℕ} (hpos : 0 < maxLevel) : (start maxLevel).Sound :=
  ⟨_, SkipListLite.models_new hpos⟩

theorem LiteSystem.Sound.step {s : LiteSystem} {call : SkipListCall ℤ} (h : s.Sound) (hkeeps : s.Keeps call) :
    ∃ t, s.step call = some t ∧ t.Sound := by
  obtain ⟨L, hL⟩ := h
  cases call with
  | insert key coins =>
    have hmax : 1 ≤ s.list.maxLevel := hL.max_eq ▸ hL.pos
    obtain ⟨list, L', hinsert, hL'⟩ := hL.insert (one_le_randomLevel coins le_rfl) (randomLevel_le coins hmax) key
    exact ⟨⟨list, key ::ₘ s.counted⟩, by rw [LiteSystem.step, hinsert, map_some], L', hL'⟩
  | remove key =>
    have habsent := hkeeps key rfl
    refine ⟨s, ?_, L, hL⟩
    rw [LiteSystem.step, hL.remove_absent habsent, map_some, Multiset.erase_of_notMem habsent]

theorem LiteSystem.Sound.right_iff {s : LiteSystem} (h : s.Sound) (call : SkipListCall ℤ) :
    s.Right call ↔ s.Keeps call := by
  constructor
  · rintro ⟨t, hstep, -, hremoves⟩ key rfl hkey
    obtain ⟨L, hL⟩ := h
    obtain ⟨list, hremove, rfl⟩ := map_eq_some_iff.1 hstep
    exact hL.not_removes hkey hremove (hremoves key rfl hkey)
  · intro hkeeps
    obtain ⟨t, hstep, L, hL⟩ := h.step hkeeps
    exact ⟨t, hstep, hL.contains_eq, fun key hcall hkey => absurd hkey (hkeeps key hcall)⟩

theorem lite_right_iff {maxLevel : ℕ} (hpos : 0 < maxLevel) (calls : List (SkipListCall ℤ)) :
    Lts.Along LiteSystem.step LiteSystem.Right (.start maxLevel) calls ↔
      Lts.Along LiteSystem.step LiteSystem.Keeps (.start maxLevel) calls := by
  refine Lts.Along.iff_of_invariant (I := LiteSystem.Sound) (G := fun _ _ => True) ?_
    (LiteSystem.sound_start hpos) (Lts.Along.of_true _ calls)
  intro s call hs _
  refine ⟨hs.right_iff call, fun hkeeps t ht => ?_⟩
  obtain ⟨t', ht', hsound⟩ := hs.step hkeeps
  exact some.inj (ht'.symm.trans ht) ▸ hsound

theorem lite_right_of_four_levels :
    Lts.Along LiteSystem.step LiteSystem.Right (.start 4) [.insert 8 [true], .insert 8 [], .remove 5] ↔
      Lts.Along LiteSystem.step LiteSystem.Keeps (.start 4) [.insert 8 [true], .insert 8 [], .remove 5] :=
  lite_right_iff (by decide) _

theorem tail_deleted :
    ¬ Lts.Along LiteSystem.step LiteSystem.Right (.start 4) [.insert 1 [], .remove 1] := by
  rintro ⟨-, hrest⟩
  obtain ⟨⟨t, hstep, -, hremoves⟩, -⟩ := hrest _ rfl
  obtain ⟨n, -, -, -, hfreed⟩ := hremoves 1 rfl (by decide)
  cases hstep
  cases (cons.inj hfreed).1

end ComponentsW
