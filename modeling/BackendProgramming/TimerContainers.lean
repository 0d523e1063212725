/-
**Two timer containers (`timerlist.cpp`, `timertree.cpp`).**

`TimerList` keeps timers in a list, ordered by the time at which they are due; `TimerTree` keeps them in a set of
pairs of that time and the address.  The callbacks do not touch the container.
-/

import BackendProgramming.Lts

set_option autoImplicit false

namespace TinyServer

open Function List

variable {T : Type*} [LinearOrder T]

/-! ### The containers -/

def handleExpired {α : Type*} (due : α → ℤ) (now : ℤ) : List α → List α × List α
  | [] => ([], [])
  | t :: timers =>
    if due t ≤ now then ((t :: (handleExpired due now timers).1), (handleExpired due now timers).2)
    else ([], t :: timers)

def getMinExpired {α : Type*} (due : α → ℤ) : List α → ℤ
  | [] => -1
  | t :: _ => due t

namespace TimerList

variable (due : T → ℤ)

def addTimer (timers : List T) (t : T) : List T :=
  timers.takeWhile (due · ≤ due t) ++ t :: timers.dropWhile (due · ≤ due t)

def delTimer (timers : List T) (t : T) : List T := timers.filter (· != t)

end TimerList

namespace TimerTree

variable (due : T → ℤ)

def entry (t : T) : ℤ ×ₗ T := toLex (due t, t)

def addTimer (timers : List (ℤ ×ₗ T)) (t : T) : List (ℤ ×ₗ T) :=
  if entry due t ∈ timers then timers else timers.orderedInsert (· ≤ ·) (entry due t)

def delTimer (timers : List (ℤ ×ₗ T)) (t : T) : List (ℤ ×ₗ T) := timers.erase (entry due t)

end TimerTree

/-! ### The two side by side -/

inductive Call (T : Type*) where
  | addTimer (t : T)
  | delTimer (t : T)
  | handleExpired (now : ℤ)

structure Pair (T : Type*) where
  list : List T := []
  tree : List (ℤ ×ₗ T) := []
  live : Finset T := ∅
  clock : ℕ := 0
  added : T → ℕ := fun _ => 0

namespace Pair

variable (due : T → ℤ)

def step (s : Pair T) : Call T → Option (Pair T)
  | .addTimer t => some ⟨TimerList.addTimer due s.list t, TimerTree.addTimer due s.tree t, insert t s.live,
      s.clock + 1, update s.added t s.clock⟩
  | .delTimer t => some { s with
      list := TimerList.delTimer s.list t
      tree := TimerTree.delTimer due s.tree t
      live := s.live.erase t }
  | .handleExpired now => some { s with
      list := (handleExpired due now s.list).2
      tree := (handleExpired (fun e => (ofLex e).1) now s.tree).2
      live := s.live.filter fun t => now < due t }

def Once (s : Pair T) : Call T → Prop
  | .addTimer t => t ∉ s.live
  | _ => True

instance (s : Pair T) (c : Call T) : Decidable (s.Once c) := by
  cases c <;> unfold Once <;> infer_instance

def ran (s : Pair T) (now : ℤ) : List T := (handleExpired due now s.list).1

def ranTree (s : Pair T) (now : ℤ) : List T :=
  (handleExpired (fun e => (ofLex e).1) now s.tree).1.map fun e => (ofLex e).2

structure Agrees (s : Pair T) : Prop where
  next : getMinExpired due s.list = getMinExpired (fun e => (ofLex e).1) s.tree
  same : ∀ now, (s.ranTree now).Perm (s.ran due now)
  expired : ∀ now t, t ∈ s.ran due now ↔ t ∈ s.live ∧ due t ≤ now
  order : ∀ now, (s.ran due now).Pairwise fun t u => due t < due u ∨ due t = due u ∧ s.added t < s.added u
  orderTree : ∀ now, (s.ranTree now).Nodup ∧ (s.ranTree now).Pairwise (due · ≤ due ·)

end Pair

/-! ### The invariant -/

section Sorted

variable {α : Type*} {f : α → ℤ} {l : List α}

theorem split_of_sorted (h : l.Pairwise (f · ≤ f ·)) (d : ℤ) :
    l.takeWhile (f · ≤ d) = l.filter (f · ≤ d) ∧ l.dropWhile (f · ≤ d) = l.filter (d < f ·) := by
  induction l with
  | nil => exact ⟨rfl, rfl⟩
  | cons a l ih =>
    obtain ⟨ha, hl⟩ := pairwise_cons.1 h
    obtain ⟨htake, hdrop⟩ := ih hl
    by_cases hd : f a ≤ d
    · simp [hd, htake, hdrop, not_lt.2 hd]
    · have hlater : ∀ b ∈ l, d < f b := fun b hb => (not_le.1 hd).trans_le (ha b hb)
      have hnone : l.filter (f · ≤ d) = [] := filter_eq_nil_iff.2 fun b hb => by simpa using hlater b hb
      have hall : l.filter (d < f ·) = l := filter_eq_self.2 fun b hb => by simpa using hlater b hb
      simp [hd, not_le.1 hd, hnone, hall]

theorem handleExpired_eq (h : l.Pairwise (f · ≤ f ·)) (now : ℤ) :
    handleExpired f now l = (l.filter (f · ≤ now), l.filter (now < f ·)) := by
  have hspan : handleExpired f now l = (l.takeWhile (f · ≤ now), l.dropWhile (f · ≤ now)) := by
    induction l with
    | nil => rfl
    | cons a l ih =>
      rw [handleExpired, ih (pairwise_cons.1 h).2]
      by_cases ha : f a ≤ now <;> simp [ha]
  rw [hspan, (split_of_sorted h now).1, (split_of_sorted h now).2]

end Sorted

namespace Pair

variable {due : T → ℤ} {s : Pair T}

variable (due) in
structure Agree (s : Pair T) : Prop where
  list : s.list.Pairwise fun t u => due t < due u ∨ due t = due u ∧ s.added t < s.added u
  tree : s.tree.Pairwise (· ≤ ·)
  perm : s.tree.Perm (s.list.map (TimerTree.entry due))
  live : ∀ t, t ∈ s.list ↔ t ∈ s.live
  past : ∀ t ∈ s.list, s.added t < s.clock

theorem Agree.sorted (h : s.Agree due) : s.list.Pairwise (due · ≤ due ·) :=
  h.list.imp fun h => h.elim le_of_lt fun h => h.1.le

theorem Agree.nodup (h : s.Agree due) : s.list.Nodup :=
  h.list.imp fun h heq => by subst heq; omega

theorem Agree.sorted_tree (h : s.Agree due) :
    s.tree.Pairwise fun e e' => (ofLex e).1 ≤ (ofLex e').1 :=
  h.tree.imp fun h => (Prod.Lex.le_iff.1 h).elim le_of_lt fun h => h.1.le

theorem Agree.agrees (h : s.Agree due) : s.Agrees due := by
  have hran : ∀ now, s.ran due now = s.list.filter (due · ≤ now) := fun now => by
    rw [ran, handleExpired_eq h.sorted]
  have hsame : ∀ now, (s.ranTree now).Perm (s.ran due now) := fun now => by
    rw [hran, ranTree, handleExpired_eq h.sorted_tree]
    refine ((h.perm.filter _).map _).trans ?_
    rw [filter_map, map_map]
    exact .of_eq (map_id _)
  have hentry : ∀ e ∈ s.tree, due (ofLex e).2 = (ofLex e).1 := fun e he => by
    obtain ⟨t, -, rfl⟩ := mem_map.1 (h.perm.mem_iff.1 he)
    rfl
  have horder : ∀ now, (s.ran due now).Pairwise fun t u =>
      due t < due u ∨ due t = due u ∧ s.added t < s.added u := fun now => by
    rw [hran]
    exact h.list.sublist filter_sublist
  refine ⟨?_, hsame, fun now t => ?_, horder, fun now => ⟨?_, ?_⟩⟩
  · have hperm := h.perm
    have htree := h.sorted_tree
    cases hl : s.list with
    | nil =>
      rw [hl, map_nil, perm_nil] at hperm
      rw [hperm]
      rfl
    | cons t l =>
      have hsorted := h.sorted
      rw [hl] at hperm hsorted
      cases hs : s.tree with
      | nil => simp [hs] at hperm
      | cons e tree =>
        rw [hs] at hperm htree
        -- the first element of the tree is that of some timer, and the first timer has an element
        obtain ⟨u, hu, rfl⟩ := mem_map.1 (hperm.mem_iff.1 mem_cons_self)
        have hin : TimerTree.entry due t ∈ TimerTree.entry due u :: tree := hperm.mem_iff.2 (by simp)
        refine le_antisymm (?_ : due t ≤ due u) ?_
        · rcases mem_cons.1 hu with rfl | hu
          · exact le_rfl
          · exact (pairwise_cons.1 hsorted).1 u hu
        · rcases mem_cons.1 hin with heq | hin
          · exact (congrArg (fun e => (ofLex e).1) heq).ge
          · exact (pairwise_cons.1 htree).1 _ hin
  · rw [hran, mem_filter, h.live, decide_eq_true_eq]
  · refine (hsame now).nodup_iff.2 ?_
    rw [hran]
    exact h.nodup.filter _
  · rw [ranTree, handleExpired_eq h.sorted_tree]
    refine pairwise_map.2 ((h.sorted_tree.sublist filter_sublist).imp_of_mem fun he he' hle => ?_)
    rw [hentry _ (mem_of_mem_filter he), hentry _ (mem_of_mem_filter he')]
    exact hle

theorem Agree.step (h : s.Agree due) {c : Call T} (hc : s.Once c) :
    ∃ s', s.step due c = some s' ∧ s'.Agree due := by
  cases c with
  | addTimer t =>
    refine ⟨_, rfl, ?_⟩
    have hnot : t ∉ s.list := mt (h.live t).1 hc
    have hother : ∀ u ∈ s.list, update s.added t s.clock u = s.added u := fun u hu =>
      update_of_ne (ne_of_mem_of_not_mem hu hnot) ..
    have hlist : s.list.Pairwise fun u v => due u < due v ∨ due u = due v ∧
        update s.added t s.clock u < update s.added t s.clock v :=
      h.list.imp_of_mem fun hu hv huv => by rwa [hother _ hu, hother _ hv]
    have hadd : TimerList.addTimer due s.list t =
        s.list.filter (due · ≤ due t) ++ t :: s.list.filter (due t < due ·) := by
      rw [TimerList.addTimer, (split_of_sorted h.sorted (due t)).1, (split_of_sorted h.sorted (due t)).2]
    have hperm : (TimerList.addTimer due s.list t).Perm (t :: s.list) := by
      refine perm_middle.trans (.cons t (.of_eq ?_))
      exact takeWhile_append_dropWhile
    have hnew : TimerTree.entry due t ∉ s.tree := fun hin => by
      obtain ⟨u, hu, heq⟩ := mem_map.1 (h.perm.mem_iff.1 hin)
      exact hnot ((Prod.mk.inj (toLex.injective heq)).2 ▸ hu)
    refine ⟨?_, ?_, ?_, fun u => ?_, fun u hu => ?_⟩
    · rw [hadd]
      refine pairwise_append.2 ⟨hlist.sublist filter_sublist,
        pairwise_cons.2 ⟨fun v hv => .inl ?_, hlist.sublist filter_sublist⟩, fun u hu v hv => ?_⟩
      · simpa using (mem_filter.1 hv).2
      · obtain ⟨hin, hle⟩ := mem_filter.1 hu
        rw [decide_eq_true_eq] at hle
        rcases mem_cons.1 hv with rfl | hv
        · dsimp only
          rw [hother u hin, update_self]
          exact hle.lt_or_eq.imp_right fun heq => ⟨heq, h.past u hin⟩
        · exact .inl (hle.trans_lt (by simpa using (mem_filter.1 hv).2))
    · rw [TimerTree.addTimer, if_neg hnew]
      exact h.tree.orderedInsert _ _
    · rw [TimerTree.addTimer, if_neg hnew]
      exact (perm_orderedInsert _ _ _).trans ((h.perm.cons _).trans (hperm.map _).symm)
    · rw [hperm.mem_iff, mem_cons, Finset.mem_insert, h.live]
    · rcases mem_cons.1 (hperm.mem_iff.1 hu) with rfl | hu
      · dsimp only
        rw [update_self]
        exact Nat.lt_succ_self _
      · dsimp only
        rw [hother u hu]
        exact Nat.lt_succ_of_lt (h.past u hu)
  | delTimer t =>
    refine ⟨_, rfl, ?_⟩
    have hinj : Function.Injective (TimerTree.entry due) := fun t u h => (Prod.mk.inj (toLex.injective h)).2
    have herase : s.list.filter (· != t) = s.list.erase t := (h.nodup.erase_eq_filter t).symm
    refine ⟨h.list.sublist filter_sublist, h.tree.sublist erase_sublist, ?_, fun u => ?_, fun u hu => ?_⟩
    · rw [TimerList.delTimer, herase, map_erase hinj]
      exact h.perm.erase _
    · rw [TimerList.delTimer, mem_filter, bne_iff_ne, Finset.mem_erase, h.live, and_comm]
    · exact h.past u (mem_of_mem_filter hu)
  | handleExpired now =>
    refine ⟨_, rfl, ?_⟩
    rw [handleExpired_eq h.sorted, handleExpired_eq h.sorted_tree]
    refine ⟨h.list.sublist filter_sublist, h.tree.sublist filter_sublist, ?_, fun u => ?_, fun u hu => ?_⟩
    · have hperm := h.perm.filter fun e => decide (now < (ofLex e).1)
      rw [filter_map] at hperm
      exact hperm
    · rw [mem_filter, Finset.mem_filter, h.live, decide_eq_true_eq]
    · exact h.past u (mem_of_mem_filter hu)

end Pair

theorem containers_agree (due : T → ℤ) (calls : List (Call T))
    (honce : Lts.Along (Pair.step due) Pair.Once {} calls) :
    ∃ s, Lts.run (Pair.step due) {} calls = some s ∧ s.Agrees due := by
  have hempty : Pair.Agree due {} := ⟨List.Pairwise.nil, List.Pairwise.nil, .nil, by simp, by simp⟩
  obtain ⟨s, hrun, hs⟩ := Lts.exists_run (fun s c h hc => Pair.Agree.step h hc) hempty honce
  exact ⟨s, hrun, hs.agrees⟩

theorem containers_agree_tie :
    ∃ s, Lts.run (Pair.step fun t : ℕ => (t : ℤ) / 2) {}
        [.addTimer 3, .addTimer 2, .addTimer 5, .delTimer 5, .handleExpired 0] = some s ∧
      s.Agrees fun t : ℕ => (t : ℤ) / 2 := by
  refine containers_agree (fun t : ℕ => (t : ℤ) / 2) _ ?_
  decide

end TinyServer
