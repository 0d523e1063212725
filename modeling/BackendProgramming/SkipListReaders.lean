/-
**A reader of the skip list while a key is put in.**

Every link that `Iterator::Seek` and `Next` follow is a step, and so is every `SetNext` of the writer, in any order.
A reader can find the new node at its top level and go down at it to a level where its link has not been set.
-/

import BackendProgramming.Lts
import BackendProgramming.SkipList

set_option autoImplicit false

namespace ComponentsW

open OrderedLinks List Option Lts

variable {α : Type*}

inductive Reader (α : Type*) where
  | seeking (x : Option α) (level : ℕ)
  | reached (node : Option α)
  | lost
deriving DecidableEq, Repr

def Reader.node : Reader α → Option α
  | .reached node => node
  | _ => none

variable [LinearOrder α]

def keyIsAfterNode (key : α) : Option α → Bool
  | none => false
  | some k => decide (k < key)

def Reader.step (target : α) (links : Links α) : Reader α → Option (Reader α)
  | .seeking x level =>
    match links x level with
    | none => some .lost
    | some next =>
      if keyIsAfterNode target next then some (.seeking next level)
      else if level = 0 then some (.reached next)
      else some (.seeking x (level - 1))
  | .reached (some k) =>
    match links (some k) 0 with
    | none => some .lost
    | some next => some (.reached next)
  | .reached none => none
  | .lost => none

structure SkipListSystem (α : Type*) where
  links : Links α
  writer : Inserter α
  reader : Reader α
  seen : List α

inductive SkipListEvent where
  | writer
  | reader
deriving DecidableEq, Repr

namespace SkipListSystem

def step (target : α) (s : SkipListSystem α) : SkipListEvent → Option (SkipListSystem α)
  | .writer => (s.writer.step s.links).map fun w => { s with links := w.1, writer := w.2 }
  | .reader => (s.reader.step target s.links).map fun r =>
    { s with reader := r, seen := s.seen ++ r.node.toList }

structure Right (L : SkipList α) (target : α) (s : SkipListSystem α) : Prop where
  not_lost : s.reader ≠ .lost
  increasing : s.seen.Pairwise (· < ·)
  from_target : ∀ k ∈ s.seen, target ≤ k
  passed : ∀ y, s.reader = .reached (some y) → ∀ k ∈ L.keys, target ≤ k → k ≤ y → k ∈ s.seen
  all : s.step target .reader = none → ∀ k ∈ L.keys, target ≤ k → k ∈ s.seen

end SkipListSystem

def SkipList.startReading (L : SkipList α) (key : α) (level : ℕ) : Option (SkipListSystem α) :=
  L.insertBegin key level |>.map fun begun => ⟨begun.1, begun.2, .seeking none (L.maxHeight - 1), []⟩

def Sheltered (L : SkipList α) (key : α) (level : ℕ) (target : α) : Prop :=
  level ≤ 1 ∨ target ≤ key ∨ ∃ k ∈ L.keys, key < k ∧ k < target ∧ level ≤ L.level k

variable {L : SkipList α} {key target : α} {height : ℕ} {s s' : SkipListSystem α}

/-! ### One link -/

theorem keyIsAfterNode_iff {next : Option α} :
    keyIsAfterNode target next = true ↔ ∃ k, next = some k ∧ k < target := by
  cases next with
  | none => simp [keyIsAfterNode]
  | some k => simp [keyIsAfterNode]

theorem Reader.seeking_cases {links : Links α} {x next : Option α} {l : ℕ} {r : Reader α}
    (hnext : links x l = some next) (h : Reader.step target links (.seeking x l) = some r) :
    (∃ k, next = some k ∧ k < target ∧ r = .seeking (some k) l) ∨
    ((∀ k, next = some k → target ≤ k) ∧ l = 0 ∧ r = .reached next) ∨
    ((∀ k, next = some k → target ≤ k) ∧ ∃ l', l = l' + 1 ∧ r = .seeking x l') := by
  simp only [Reader.step, hnext] at h
  by_cases hafter : keyIsAfterNode target next = true
  · rw [if_pos hafter] at h
    obtain ⟨k, rfl, hk⟩ := keyIsAfterNode_iff.1 hafter
    exact Or.inl ⟨k, rfl, hk, (some.inj h).symm⟩
  · have hle : ∀ k, next = some k → target ≤ k := fun k hk =>
      not_lt.1 fun hlt => hafter (keyIsAfterNode_iff.2 ⟨k, hk, hlt⟩)
    rw [if_neg hafter] at h
    cases l with
    | zero => exact Or.inr (Or.inl ⟨hle, rfl, (some.inj h).symm⟩)
    | succ l' => exact Or.inr (Or.inr ⟨hle, l', rfl, (some.inj h).symm⟩)

theorem Reader.exists_step (target : α) (links : Links α) (x : Option α) (l : ℕ) :
    ∃ r, Reader.step target links (.seeking x l) = some r := by
  simp only [Reader.step]
  split
  · exact ⟨_, rfl⟩
  · split
    · exact ⟨_, rfl⟩
    · split
      · exact ⟨_, rfl⟩
      · exact ⟨_, rfl⟩

def Reader.rest (U : Finset α) : Reader α → ℕ
  | .seeking x level => level + 2 + (U.filter (Behind x)).card
  | .reached (some k) => 1 + (U.filter (Behind (some k))).card
  | .reached none => 0
  | .lost => 0

theorem Reader.rest_seeking_lt {links : Links α} {U : Finset α} {x next : Option α} {l : ℕ} {r : Reader α}
    (hnext : links x l = some next) (hbehind : ∀ k, next = some k → k ∈ U ∧ Behind x k)
    (h : Reader.step target links (.seeking x l) = some r) : r.rest U < (Reader.seeking x l).rest U := by
  rcases Reader.seeking_cases hnext h with ⟨k, rfl, -, rfl⟩ | ⟨-, rfl, rfl⟩ | ⟨-, l', rfl, rfl⟩
  · have hlt := card_behind_lt (hbehind k rfl).1 (hbehind k rfl).2
    simp only [Reader.rest]
    omega
  · cases next with
    | none => simp [Reader.rest]
    | some k =>
      have hlt := card_behind_lt (hbehind k rfl).1 (hbehind k rfl).2
      simp only [Reader.rest]
      omega
  · simp only [Reader.rest]
    omega

theorem Reader.rest_reached_lt {U : Finset α} {y : α} {next : Option α}
    (hbehind : ∀ k, next = some k → k ∈ U ∧ Behind (some y) k) :
    (Reader.reached next).rest U < (Reader.reached (some y)).rest U := by
  cases next with
  | none => simp [Reader.rest]
  | some k =>
    have hlt := card_behind_lt (hbehind k rfl).1 (hbehind k rfl).2
    simp only [Reader.rest]
    omega

/-! ### The reader while a key is put in -/

structure SeenOk (L : SkipList α) (target : α) (node : Option α) (seen : List α) : Prop where
  increasing : seen.Pairwise (· < ·)
  from_target : ∀ k ∈ seen, target ≤ k
  node_from_target : ∀ y, node = some y → target ≤ y
  up_to : ∀ k ∈ seen, ∀ y, node = some y → k ≤ y
  all : ∀ k ∈ L.keys, target ≤ k → (∀ y, node = some y → k ≤ y) → k ∈ seen

def Reader.Ok (L : SkipList α) (key : α) (height : ℕ) (target : α) (left : ℕ) (seen : List α) :
    Reader α → Prop
  | .seeking x l => l < L.maxHeight ∧ seen = [] ∧
      ∀ k, x = some k → k < target ∧ Published L key height left l k
  | .reached node => SeenOk L target node seen ∧ ∀ y, node = some y → Published L key height left 0 y
  | .lost => False

structure ReadOk (L : SkipList α) (key : α) (height : ℕ) (target : α) (s : SkipListSystem α) : Prop where
  insert : InsertOk L key height s.links s.writer
  reader : s.reader.Ok L key height target s.writer.left s.seen

theorem Reader.Ok.later {left left' : ℕ} {seen : List α} {r : Reader α}
    (h : r.Ok L key height target left seen) (hle : left' ≤ left) : r.Ok L key height target left' seen := by
  cases r with
  | seeking x l => exact ⟨h.1, h.2.1, fun k hk => ⟨(h.2.2 k hk).1, (h.2.2 k hk).2.later hle⟩⟩
  | reached node => exact ⟨h.1, fun y hy => (h.2 y hy).later hle⟩
  | lost => exact h.elim

theorem seenOk_first {left : ℕ} (hL : L.Valid) {x next : Option α} (hx : ∀ k, x = some k → k < target)
    (hnext : IsNext (Published L key height left 0) x next) (htarget : ∀ k, next = some k → target ≤ k) :
    SeenOk L target next next.toList := by
  have hle : ∀ k ∈ L.keys, target ≤ k → ∃ y, next = some y ∧ y ≤ k := fun k hk htk =>
    hnext.le k (Or.inl ⟨hk, hL.level_pos k hk⟩) fun j hj => (hx j hj).trans_le htk
  cases next with
  | none =>
    refine ⟨List.Pairwise.nil, by simp, htarget, by simp, fun k hk htk _ => ?_⟩
    obtain ⟨y, hy, -⟩ := hle k hk htk
    cases hy
  | some y =>
    refine ⟨pairwise_singleton _ _, ?_, htarget, ?_, fun k hk htk hky => ?_⟩
    · simpa using htarget
    · simp
    · obtain ⟨y', hy', hyk⟩ := hle k hk htk
      cases hy'
      simp [le_antisymm (hky y rfl) hyk]

theorem SeenOk.next {left : ℕ} (hL : L.Valid) {y : α} {next : Option α} {seen : List α}
    (h : SeenOk L target (some y) seen)
    (hnext : IsNext (Published L key height left 0) (some y) next) :
    SeenOk L target next (seen ++ next.toList) := by
  have hle : ∀ k ∈ L.keys, y < k → ∃ z, next = some z ∧ z ≤ k := fun k hk hyk =>
    hnext.le k (Or.inl ⟨hk, hL.level_pos k hk⟩) (behind_some.2 hyk)
  have hold : ∀ k ∈ L.keys, target ≤ k → k ≤ y → k ∈ seen := fun k hk htk hky =>
    h.all k hk htk fun y' hy' => some.inj hy' ▸ hky
  cases next with
  | none =>
    rw [toList_none, append_nil]
    refine ⟨h.increasing, h.from_target, by simp, by simp, fun k hk htk _ => ?_⟩
    refine hold k hk htk (not_lt.1 fun hyk => ?_)
    obtain ⟨z, hz, -⟩ := hle k hk hyk
    cases hz
  | some z =>
    have hyz : y < z := behind_some.1 (hnext.mem z rfl).2
    have hbelow : ∀ k ∈ seen, k < z := fun k hk => (h.up_to k hk y rfl).trans_lt hyz
    have hz : target ≤ z := (h.node_from_target y rfl).trans hyz.le
    refine ⟨?_, ?_, fun z' hz' => some.inj hz' ▸ hz, ?_, fun k hk htk hkz => ?_⟩
    · simpa [pairwise_append] using ⟨h.increasing, hbelow⟩
    · simp only [toList_some, mem_append, mem_singleton]
      rintro k (hk | rfl)
      · exact h.from_target k hk
      · exact hz
    · simp only [toList_some, mem_append, mem_singleton, some.injEq]
      rintro k (hk | rfl) z' rfl
      · exact (hbelow k hk).le
      · exact le_rfl
    · -- a key of the list between the two nodes would have been the next one
      simp only [toList_some, mem_append, mem_singleton]
      rcases le_or_gt k y with hky | hyk
      · exact Or.inl (hold k hk htk hky)
      · obtain ⟨z', hz', hzk⟩ := hle k hk hyk
        cases hz'
        exact Or.inr (le_antisymm (hkz z rfl) hzk)

theorem Reader.Ok.step {left : ℕ} {links : Links α} {seen : List α} {r r' : Reader α} (hL : L.Valid)
    (hlinks : ∀ l < L.maxHeight, links.Joined l (Published L key height left l))
    (hsafe : Sheltered L key height target) (hpos : 0 < L.maxHeight)
    (h : r.Ok L key height target left seen) (hstep : r.step target links = some r') :
    r'.Ok L key height target left (seen ++ r'.node.toList) ∧
      r'.rest (Insert.insert key L.keys) < r.rest (Insert.insert key L.keys) := by
  cases r with
  | seeking x l =>
    obtain ⟨hl, rfl, hx⟩ := h
    obtain ⟨next, hnext, hisNext⟩ := hlinks l hl x fun k hk => (hx k hk).2
    refine ⟨?_, Reader.rest_seeking_lt hnext (fun k hk => ⟨(hisNext.mem k hk).1.mem, (hisNext.mem k hk).2⟩)
      hstep⟩
    rcases Reader.seeking_cases hnext hstep with
      ⟨k, rfl, hk, rfl⟩ | ⟨htarget, rfl, rfl⟩ | ⟨htarget, l', rfl, rfl⟩
    · refine ⟨hl, rfl, fun k' hk' => ?_⟩
      cases hk'
      exact ⟨hk, (hisNext.mem k rfl).1⟩
    · exact ⟨seenOk_first hL (fun k hk => (hx k hk).1) hisNext htarget, fun y hy => (hisNext.mem y hy).1⟩
    · refine ⟨by omega, rfl, fun k hk => ⟨(hx k hk).1, ?_⟩⟩
      rcases (hx k hk).2 with hat | ⟨rfl, hleft, hlt⟩
      · exact Or.inl (hat.down l'.le_succ)
      · -- at the new node at a level above the lowest: each case of the shelter keeps the reader from it
        exfalso
        rcases hsafe with hone | hbefore | ⟨j, hj, hkj, hjt, hlevel⟩
        · omega
        · exact absurd ((hx k hk).1) (not_lt.2 hbefore)
        · obtain ⟨i, hi, hij⟩ := hisNext.le j (Or.inl ⟨hj, by omega⟩) (by rw [hk]; exact behind_some.2 hkj)
          exact absurd (htarget i hi) (not_le.2 (hij.trans_lt hjt))
  | reached node =>
    cases node with
    | none => cases hstep
    | some y =>
      obtain ⟨hseen, hy⟩ := h
      obtain ⟨next, hnext, hisNext⟩ := hlinks 0 hpos (some y) fun k hk => hy k hk
      simp only [Reader.step, hnext, some.injEq] at hstep
      subst hstep
      exact ⟨⟨hseen.next hL hisNext, fun z hz => (hisNext.mem z hz).1⟩,
        Reader.rest_reached_lt fun k hk => ⟨(hisNext.mem k hk).1.mem, (hisNext.mem k hk).2⟩⟩
  | lost => exact h.elim

theorem ReadOk.step {e : SkipListEvent} (hL : L.Valid) (hsafe : Sheltered L key height target)
    (hpos : 0 < L.maxHeight) (h : ReadOk L key height target s) (hstep : s.step target e = some s') :
    ReadOk L key height target s' ∧
      s'.reader.rest (Insert.insert key L.keys) + [e].count .reader ≤
        s.reader.rest (Insert.insert key L.keys) := by
  cases e with
  | writer =>
    obtain ⟨w, hw, rfl⟩ := map_eq_some_iff.1 hstep
    obtain ⟨hinsert, hleft⟩ := h.insert.step hw
    exact ⟨⟨hinsert, h.reader.later hleft⟩, by simp⟩
  | reader =>
    obtain ⟨r, hr, rfl⟩ := map_eq_some_iff.1 hstep
    obtain ⟨hok, hrest⟩ := h.reader.step hL h.insert.joined hsafe hpos hr
    exact ⟨⟨h.insert, hok⟩, by simpa using hrest⟩

theorem ReadOk.run {es : List SkipListEvent} (hL : L.Valid) (hsafe : Sheltered L key height target)
    (hpos : 0 < L.maxHeight) (h : ReadOk L key height target s)
    (hrun : run (SkipListSystem.step target) s es = some s') :
    ReadOk L key height target s' ∧
      es.count .reader ≤ s.reader.rest (Insert.insert key L.keys) := by
  induction es generalizing s with
  | nil =>
    cases hrun
    exact ⟨h, Nat.zero_le _⟩
  | cons e es ih =>
    obtain ⟨t, ht, hrest⟩ := run_cons hrun
    obtain ⟨hok, hle⟩ := h.step hL hsafe hpos ht
    obtain ⟨hend, hcount⟩ := ih hok hrest
    refine ⟨hend, ?_⟩
    rw [← singleton_append, count_append]
    omega

theorem ReadOk.right (h : ReadOk L key height target s) : s.Right L target := by
  obtain ⟨links, w, r, seen⟩ := s
  have hr := h.reader
  cases r with
  | seeking x l =>
    obtain ⟨-, rfl, -⟩ := hr
    refine ⟨by simp, List.Pairwise.nil, by simp, by simp, fun hnone => ?_⟩
    obtain ⟨r, hr⟩ := Reader.exists_step target links x l
    simp [SkipListSystem.step, hr] at hnone
  | reached node =>
    obtain ⟨hseen, -⟩ := hr
    refine ⟨by simp, hseen.increasing, hseen.from_target, ?_, fun hnone k hk htk => ?_⟩
    · rintro y heq k hk htk hky
      obtain rfl := Reader.reached.inj heq
      exact hseen.all k hk htk fun y' hy' => some.inj hy' ▸ hky
    · cases node with
      | none => exact hseen.all k hk htk (by simp)
      | some y =>
        simp only [SkipListSystem.step, map_eq_none_iff, Reader.step] at hnone
        split at hnone <;> cases hnone
  | lost => exact hr.elim

/-! ### The way to a link that has not been set -/

structure Luring (L : SkipList α) (key : α) (height : ℕ) (links : Links α) (x : Option α) (l : ℕ) : Prop where
  joined : ∀ l < L.maxHeight, links.Joined l (Published L key (height + 2) (height + 1) l)
  unset : links (some key) height = none
  level_le : height + 1 ≤ l
  level_lt : l < L.maxHeight
  place : ∀ k, x = some k → k ≤ key ∧ Published L key (height + 2) (height + 1) l k

theorem Luring.exists_lost {links : Links α} {w : Inserter α} {x : Option α} {l : ℕ}
    (hkey : key < target) (hlow : ∀ k ∈ L.keys, key < k → k < target → L.level k < height + 2)
    (h : Luring L key height links x l) (seen : List α) :
    ∃ es s, run (SkipListSystem.step target) ⟨links, w, .seeking x l, seen⟩ es = some s ∧
      s.reader = .lost := by
  -- by induction on the links that the reader has still to follow
  induction hn : (Reader.seeking x l).rest (Insert.insert key L.keys) using Nat.strong_induction_on
    generalizing x l seen with
  | _ n ih =>
    obtain ⟨next, hnext, hisNext⟩ := h.joined l h.level_lt x fun k hk => (h.place k hk).2
    obtain ⟨r, hr⟩ := Reader.exists_step target links x l
    have hrest := Reader.rest_seeking_lt (U := Insert.insert key L.keys) hnext
      (fun k hk => ⟨(hisNext.mem k hk).1.mem, (hisNext.mem k hk).2⟩) hr
    have hstep : SkipListSystem.step target ⟨links, w, .seeking x l, seen⟩ .reader =
        some ⟨links, w, r, seen ++ r.node.toList⟩ := by
      simp [SkipListSystem.step, hr]
    -- one step, and then what the rest of the way leads to
    suffices hgo : ∃ es s, run (SkipListSystem.step target) ⟨links, w, r, seen ++ r.node.toList⟩ es =
        some s ∧ s.reader = .lost by
      obtain ⟨es, s, hrun, hlost⟩ := hgo
      exact ⟨.reader :: es, s, by rw [run, hstep]; exact hrun, hlost⟩
    rcases Reader.seeking_cases hnext hr with ⟨k, rfl, hk, rfl⟩ | ⟨-, rfl, -⟩ | ⟨htarget, l', rfl, rfl⟩
    · refine ih _ (hn ▸ hrest) ⟨h.joined, h.unset, h.level_le, h.level_lt, fun k' hk' => ?_⟩ _ rfl
      cases hk'
      obtain ⟨hpub, -⟩ := hisNext.mem k rfl
      refine ⟨?_, hpub⟩
      rcases hpub with hat | ⟨rfl, -, -⟩
      · -- a key behind the new one would be at a level that only it has
        by_contra hgt
        have hlevel := hlow k hat.1 (not_le.1 hgt) hk
        have := h.level_le
        have := hat.2
        omega
      · exact le_rfl
    · exact absurd h.level_le (by omega)
    · rcases Nat.lt_or_ge l' (height + 1) with hlt | hge
      · -- at the top level of the new node no other place is left
        obtain rfl : l' = height := by
          have := h.level_le
          omega
        have hx : x = some key := by
          by_contra hne
          have hbehind : Behind x key := fun i hi =>
            lt_of_le_of_ne (h.place i hi).1 fun heq => hne (heq ▸ hi)
          obtain ⟨i, hi, hle⟩ := hisNext.le key (Or.inr ⟨rfl, le_rfl, by omega⟩) hbehind
          exact absurd (htarget i hi) (not_le.2 (hle.trans_lt hkey))
        subst hx
        refine ⟨[.reader], ⟨links, w, .lost, seen ++ [] ++ []⟩, ?_, rfl⟩
        simp [run, SkipListSystem.step, Reader.step, h.unset, Reader.node]
      · refine ih _ (hn ▸ hrest)
          ⟨h.joined, h.unset, hge, l'.lt_succ_self.trans h.level_lt, fun k hk => ?_⟩ _ rfl
        refine ⟨(h.place k hk).1, ?_⟩
        rcases (h.place k hk).2 with hat | ⟨-, -, hlt⟩
        · exact Or.inl (hat.down l'.le_succ)
        · omega

theorem Inserter.exists_step (links : Links α) {w : Inserter α} {l : ℕ} (hleft : w.left = l + 1) :
    ∃ links' w', w.step links = some (links', w') := by
  obtain ⟨k, pre, left, half⟩ := w
  subst hleft
  cases half with
  | false => exact ⟨_, _, rfl⟩
  | true => exact ⟨_, _, rfl⟩

theorem InsertOk.top_level {links : Links α} {w : Inserter α} {l : ℕ} (h : InsertOk L key height links w)
    (hleft : w.left = l + 1) (hhalf : w.half = false) (target : α) (r : Reader α) (seen : List α) :
    ∃ links' w', run (SkipListSystem.step target) ⟨links, w, r, seen⟩ [.writer, .writer] =
        some ⟨links', w', r, seen⟩ ∧ InsertOk L key height links' w' ∧ w'.left = l ∧ w'.half = false := by
  obtain ⟨links₁, w₁, hone⟩ := Inserter.exists_step links hleft
  have hok₁ := (h.step hone).1
  obtain ⟨l₁, hl₁, ⟨-, -, rfl⟩ | ⟨htrue, -, -⟩⟩ := Inserter.step_cases hone
  · obtain ⟨links₂, w₂, htwo⟩ := Inserter.exists_step links₁ (w := { w with half := true }) hleft
    have hok₂ := (hok₁.step htwo).1
    obtain ⟨l₂, hl₂, ⟨hfalse, -, -⟩ | ⟨-, -, rfl⟩⟩ := Inserter.step_cases htwo
    · cases hfalse
    · refine ⟨links₂, _, by simp [run, SkipListSystem.step, hone, htwo], hok₂, ?_, rfl⟩
      simp only at hl₂ ⊢
      omega
  · rw [hhalf] at htrue
    cases htrue

theorem InsertOk.exists_lost {links : Links α} {w : Inserter α} (h : InsertOk L key height links w)
    (hleft : w.left = height) (hhalf : w.half = false) (hexposed : ¬ Sheltered L key height target) :
    ∃ es s, run (SkipListSystem.step target) ⟨links, w, .seeking none (L.maxHeight - 1), []⟩ es = some s ∧
      s.reader = .lost := by
  simp only [Sheltered, not_or, not_exists, not_and, not_le] at hexposed
  obtain ⟨htall, hkey, hlow⟩ := hexposed
  obtain ⟨l, rfl⟩ := Nat.exists_eq_add_of_le' htall
  obtain ⟨links', w', hwriter, hok, hl, hhalf'⟩ := h.top_level (l := l + 1) hleft hhalf target
    (.seeking none (L.maxHeight - 1)) []
  have hluring : Luring L key l links' none (L.maxHeight - 1) := by
    have hmax := hok.height_le
    refine ⟨fun l' hl' => hl ▸ hok.joined l' hl', hok.unset l ?_, by omega, by omega, by simp⟩
    rw [hhalf', hl]
    simp
  obtain ⟨es, s, hrun, hlost⟩ := hluring.exists_lost (w := w') hkey hlow []
  exact ⟨[.writer, .writer] ++ es, s, by rw [run_append, hwriter]; exact hrun, hlost⟩

/-! ### Every interleaving -/

theorem reader_right_iff (hL : L.Valid) (hpos : 0 < height) (hle : height ≤ L.maxHeight) (key target : α) :
    ∃ start, L.startReading key height = some start ∧
      ((∀ es s, run (SkipListSystem.step target) start es = some s →
          s.Right L target ∧ es.count .reader ≤ L.maxHeight + L.keys.card + 2) ↔
        key ∈ L.keys ∨ Sheltered L key height target) := by
  obtain ⟨links, w, hbegin, hhalf, hleft, hok⟩ := hL.insertBegin_spec hpos hle key
  refine ⟨_, congrArg (Option.map _) hbegin, fun hright => ?_, fun hsafe es s hrun => ?_⟩
  · by_contra hexposed
    rw [not_or] at hexposed
    rw [if_neg hexposed.1] at hleft
    rw [hleft] at hok
    obtain ⟨es, s, hrun, hlost⟩ := hok.exists_lost hleft hhalf hexposed.2
    exact (hright es s hrun).1.not_lost hlost
  · have hsafe' : Sheltered L key w.left target := by
      rcases hsafe with hkey | hsafe
      · rw [hleft, if_pos hkey]
        exact Or.inl (Nat.zero_le 1)
      · by_cases hkey : key ∈ L.keys
        · rw [hleft, if_pos hkey]
          exact Or.inl (Nat.zero_le 1)
        · rwa [hleft, if_neg hkey]
    have hmax := hpos.trans_le hle
    have hstart : ReadOk L key w.left target ⟨links, w, .seeking none (L.maxHeight - 1), []⟩ :=
      ⟨hok, Nat.sub_lt hmax Nat.one_pos, rfl, by simp⟩
    obtain ⟨hend, hcount⟩ := hstart.run hL hsafe' hmax hrun
    refine ⟨hend.right, hcount.trans ?_⟩
    have hfilter : ((Insert.insert key L.keys).filter (Behind none)).card ≤ L.keys.card + 1 :=
      (Finset.card_filter_le _ _).trans (Finset.card_insert_le _ _)
    simp only [Reader.rest]
    omega

theorem reader_right_beforeKey : ∃ L start, (SkipList.new 2 : SkipList ℕ).insert 10 1 = some L ∧
    L.startReading 5 2 = some start ∧ ∀ es s, run (SkipListSystem.step 4) start es = some s →
      s.Right L 4 ∧ es.count .reader ≤ L.maxHeight + L.keys.card + 2 := by
  obtain ⟨L, hinsert, hL, hmax, -⟩ := (SkipList.valid_new 2).insert Nat.one_pos (by decide) 10
  obtain ⟨start, hstart, hiff⟩ := reader_right_iff hL Nat.two_pos (hmax ▸ le_rfl) 5 4
  exact ⟨L, start, hinsert, hstart, hiff.2 (Or.inr (Or.inr (Or.inl (by decide))))⟩

theorem unset_link_followed :
    ((SkipList.new 2 : SkipList ℕ).insert 10 1).bind (fun L => (L.startReading 5 2).bind fun start =>
      (run (SkipListSystem.step 7) start [.writer, .writer, .reader, .reader, .reader]).map
        fun s => (s.reader, s.seen)) = some (.lost, []) := by
  decide +kernel

end ComponentsW
