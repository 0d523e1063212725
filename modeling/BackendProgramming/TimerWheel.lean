/-
**The timer wheel of `tiny_server` (`timerwheel.cpp`).**

`addTimer` puts a timer in front of the list of a slot, with the full turns that have to pass as its `rotation`.  The
last statement of `tick` should turn the wheel around.  It is a comparison, `cur_slot==++cur_slot % N`, whose only
effect is the increment.  The constructor of `tw_timer`, which the source does not have, sets `rotation` and
`time_slot` and leaves no links.
-/

import BackendProgramming.DoublyLinked
import BackendProgramming.Lts

set_option autoImplicit false

namespace TinyServer

open DoublyLinked Function List Option

/-! ### The wheel -/

def N : ℕ := 6

def slotInterval : ℕ := 2

structure TwTimer where
  rotation : ℕ
  timeSlot : ℕ
  prev : Option ℕ := none
  next : Option ℕ := none
  deriving DecidableEq

structure TimerWheel where
  curSlot : ℕ := 0
  wheel : Fin N → Option ℕ := fun _ => none
  timers : ℕ → Option TwTimer := fun _ => none
  made : ℕ := 0

namespace TimerWheel

def set (s : TimerWheel) (a : ℕ) (t : TwTimer) : TimerWheel :=
  { s with timers := update s.timers a (some t) }

def free (s : TimerWheel) (a : ℕ) : TimerWheel := { s with timers := update s.timers a none }

def assign (s : TimerWheel) (a : ℕ) (f : TwTimer → TwTimer) : Option TimerWheel :=
  (s.timers a).map fun t => s.set a (f t)

def setPrev (s : TimerWheel) (v : Option ℕ) : Option ℕ → Option TimerWheel
  | none => some s
  | some a => s.assign a fun t => { t with prev := v }

def ticksFor (timeout : ℤ) : ℕ := if timeout < slotInterval then 1 else (timeout / slotInterval).toNat

def slotAhead (s : TimerWheel) (ticks : ℕ) : Fin N :=
  ⟨(s.curSlot + ticks % N) % N, Nat.mod_lt _ (by decide)⟩

def addTimer (s : TimerWheel) (timeout : ℤ) : Option (Option ℕ × TimerWheel) :=
  if timeout < 0 then some (none, s)
  else
    let ticks := ticksFor timeout
    let ts := s.slotAhead ticks
    let timer := s.made
    let s := { s.set timer ⟨ticks / N, ts, none, none⟩ with made := s.made + 1 }
    match s.wheel ts with
    | none => some (some timer, { s with wheel := update s.wheel ts (some timer) })
    | some first => do
      let s ← s.assign timer fun t => { t with next := some first }
      let s ← s.assign first fun t => { t with prev := some timer }
      some (some timer, { s with wheel := update s.wheel ts (some timer) })

def expire (s : TimerWheel) (slot : Fin N) (tmp : ℕ) (t : TwTimer) : Option (TimerWheel × Option ℕ) :=
  if s.wheel slot = some tmp then do
    let s := { s with wheel := update s.wheel slot t.next }.free tmp
    let s ← s.setPrev none t.next
    some (s, t.next)
  else do
    let before ← t.prev
    let s ← s.assign before fun p => { p with next := t.next }
    let s ← s.setPrev t.prev t.next
    some (s.free tmp, t.next)

def tickLoop (slot : Fin N) : ℕ → TimerWheel → Option ℕ → Option (TimerWheel × List ℕ)
  | 0, _, _ => none
  | _ + 1, s, none => some (s, [])
  | fuel + 1, s, some tmp => do
    let t ← s.timers tmp
    if 0 < t.rotation then tickLoop slot fuel (s.set tmp { t with rotation := t.rotation - 1 }) t.next
    else
      let x ← s.expire slot tmp t
      (tickLoop slot fuel x.1 x.2).map fun y => (y.1, tmp :: y.2)

def tick (s : TimerWheel) : Option (TimerWheel × List ℕ) :=
  if h : s.curSlot < N then
    -- the last statement compares the new value with itself and stores nothing
    (tickLoop ⟨s.curSlot, h⟩ (s.made + 1) s (s.wheel ⟨s.curSlot, h⟩)).map fun x =>
      ({ x.1 with curSlot := x.1.curSlot + 1 }, x.2)
  else none

end TimerWheel

/-! ### The system -/

inductive WheelEvent where
  | addTimer (timeout : ℤ)
  | tick
  deriving DecidableEq

structure WheelSystem where
  wheel : TimerWheel := {}
  ticks : ℕ := 0
  ran : List (ℕ × ℕ) := []

def WheelSystem.step (s : WheelSystem) : WheelEvent → Option WheelSystem
  | .addTimer timeout => (s.wheel.addTimer timeout).map fun x => { s with wheel := x.2 }
  | .tick => s.wheel.tick.map fun x =>
    ⟨x.1, s.ticks + 1, s.ran ++ x.2.map fun timer => (s.ticks + 1, timer)⟩

def dues : ℕ → List WheelEvent → List ℕ
  | _, [] => []
  | t, .addTimer timeout :: es =>
    if timeout < 0 then dues t es
    else (t + max 1 (timeout / slotInterval).toNat + 1) :: dues t es
  | t, .tick :: es => dues (t + 1) es

/-! ### The lists of the slots -/

namespace TimerWheel

def next (s : TimerWheel) (a : ℕ) : Option ℕ := (s.timers a).bind TwTimer.next

def prev (s : TimerWheel) (a : ℕ) : Option ℕ := (s.timers a).bind TwTimer.prev

def rotation (s : TimerWheel) (a : ℕ) : ℕ := ((s.timers a).map TwTimer.rotation).getD 0

structure Holds (s : TimerWheel) (slots : Fin N → List ℕ) : Prop where
  head : ∀ k, s.wheel k = (slots k).head?
  linked : ∀ k, Segment s.next s.prev none (slots k) none
  nodup : ∀ k, (slots k).Nodup
  apart : ∀ k j a, a ∈ slots k → a ∈ slots j → k = j
  live : ∀ k, ∀ a ∈ slots k, ∃ t, s.timers a = some t
  fresh : ∀ a, s.made ≤ a → s.timers a = none

section Holds

variable {s s' : TimerWheel} {slots : Fin N → List ℕ} {slot : Fin N} {a : ℕ} {t : TwTimer}

theorem Holds.lt_made (h : s.Holds slots) {k : Fin N} (ha : a ∈ slots k) : a < s.made := by
  obtain ⟨t, ht⟩ := h.live k a ha
  by_contra hge
  rw [h.fresh a (not_lt.1 hge)] at ht
  cases ht

theorem Holds.update (h : s.Holds slots) {l : List ℕ} (hwheel : s'.wheel = update s.wheel slot l.head?)
    (hlinked : Segment s'.next s'.prev none l none) (hnodup : l.Nodup)
    (hapart : ∀ k, k ≠ slot → ∀ b ∈ slots k, b ∉ l ∧ s'.timers b = s.timers b)
    (hlive : ∀ b ∈ l, ∃ t, s'.timers b = some t) (hfresh : ∀ b, s'.made ≤ b → s'.timers b = none) :
    s'.Holds (update slots slot l) where
  head := by
    rw [hwheel]
    refine (forall_update_iff slots fun k l => Function.update s.wheel slot _ k = l.head?).2
      ⟨update_self .., fun k hk => ?_⟩
    rw [update_of_ne hk, h.head k]
  linked := by
    refine (forall_update_iff slots fun _ l => Segment s'.next s'.prev none l none).2
      ⟨hlinked, fun k hk => (h.linked k).congr (fun b hb => ?_) fun b hb => ?_⟩
    · rw [TimerWheel.next, TimerWheel.next, (hapart k hk b hb).2]
    · rw [TimerWheel.prev, TimerWheel.prev, (hapart k hk b hb).2]
  nodup := (forall_update_iff slots fun _ l => l.Nodup).2 ⟨hnodup, fun k _ => h.nodup k⟩
  apart k j b hbk hbj := by
    by_cases hk : k = slot
    · by_cases hj : j = slot
      · rw [hk, hj]
      · rw [hk, update_self] at hbk
        rw [update_of_ne hj] at hbj
        exact absurd hbk (hapart j hj b hbj).1
    · rw [update_of_ne hk] at hbk
      by_cases hj : j = slot
      · rw [hj, update_self] at hbj
        exact absurd hbj (hapart k hk b hbk).1
      · rw [update_of_ne hj] at hbj
        exact h.apart k j b hbk hbj
  live := by
    refine (forall_update_iff slots fun _ l => ∀ b ∈ l, ∃ t, s'.timers b = some t).2
      ⟨hlive, fun k hk b hb => ?_⟩
    rw [(hapart k hk b hb).2]
    exact h.live k b hb
  fresh := hfresh

theorem fields_of_get (ht : s.timers a = some t) :
    s.next a = t.next ∧ s.prev a = t.prev ∧ s.rotation a = t.rotation := by
  simp [TimerWheel.next, TimerWheel.prev, TimerWheel.rotation, ht]

/-! ### Adding a timer -/

@[simp] theorem timers_set_self : (s.set a t).timers a = some t := update_self ..

theorem timers_set_of_ne {b : ℕ} (hb : b ≠ a) : (s.set a t).timers b = s.timers b :=
  update_of_ne hb _ _

theorem assign_eq (ht : s.timers a = some t) (f : TwTimer → TwTimer) :
    s.assign a f = some (s.set a (f t)) := by
  rw [TimerWheel.assign, ht, map_some]

theorem Holds.pushed (h : s.Holds slots) (hmade : s'.made = s.made + 1)
    (hwheel : s'.wheel = Function.update s.wheel slot (some s.made))
    (hnew : ∃ t, s'.timers s.made = some t ∧ t.prev = none ∧ t.next = (slots slot).head?)
    (hother : ∀ b, b ≠ s.made → s'.timers b =
      (s.timers b).map fun t => if (slots slot).head? = some b then { t with prev := some s.made } else t) :
    s'.Holds (Function.update slots slot (s.made :: slots slot)) := by
  have hlt : ∀ k, ∀ b ∈ slots k, b ≠ s.made := fun k b hb => (h.lt_made hb).ne
  have hnodup : (s.made :: slots slot).Nodup :=
    nodup_cons.2 ⟨fun hmem => hlt slot _ hmem rfl, h.nodup slot⟩
  obtain ⟨new, hget, hprev, hnext⟩ := hnew
  obtain ⟨hnextA, hprevA, -⟩ := fields_of_get hget
  refine h.update hwheel ((h.linked slot).push hnodup (fun b hb => ?_) (hnextA.trans hnext)
    (hprevA.trans hprev) (fun b hb => ?_) fun b hb hfirst => ?_) hnodup (fun k hk b hb => ⟨?_, ?_⟩) (fun b hb => ?_)
    fun b hb => ?_
  · rw [TimerWheel.next, hother b hb, TimerWheel.next]
    cases s.timers b with
    | none => rfl
    | some t =>
      rw [map_some, bind_some, bind_some]
      split <;> rfl
  · have hmem : b ∈ slots slot := mem_of_mem_head? hb
    obtain ⟨t, ht⟩ := h.live slot b hmem
    rw [TimerWheel.prev, hother b (hlt slot b hmem), ht, map_some, if_pos hb]
    rfl
  · rw [TimerWheel.prev, hother b hb, TimerWheel.prev]
    simp [hfirst]
  · rintro (_ | ⟨_, hmem⟩)
    · exact hlt k _ hb rfl
    · exact hk (h.apart k slot b hb hmem)
  · have hfirst : (slots slot).head? ≠ some b := fun heq =>
      hk (h.apart k slot b hb (mem_of_mem_head? heq))
    rw [hother b (hlt k b hb)]
    simp [hfirst]
  · rcases mem_cons.1 hb with rfl | hb
    · exact ⟨new, hget⟩
    · obtain ⟨t, ht⟩ := h.live slot b hb
      rw [hother b (hlt slot b hb), ht]
      exact ⟨_, rfl⟩
  · rw [hother b (by omega), h.fresh b (by omega)]
    rfl

theorem Holds.addTimer (h : s.Holds slots) {timeout : ℤ} (htimeout : 0 ≤ timeout) :
    ∃ s', s.addTimer timeout = some (some s.made, s') ∧
      s'.Holds (Function.update slots (s.slotAhead (ticksFor timeout))
        (s.made :: slots (s.slotAhead (ticksFor timeout)))) ∧
      s'.rotation s.made = ticksFor timeout / N ∧ (∀ b, b ≠ s.made → s'.rotation b = s.rotation b) ∧
      s'.curSlot = s.curSlot ∧ s'.made = s.made + 1 := by
  set slot := s.slotAhead (ticksFor timeout) with hslot
  set new : TwTimer := ⟨ticksFor timeout / N, slot, none, none⟩ with hnew
  set s₁ : TimerWheel := { s.set s.made new with made := s.made + 1 } with hs₁
  have hget : s₁.timers s.made = some new := update_self ..
  have hsame : ∀ b, b ≠ s.made → s₁.timers b = s.timers b := fun b hb => update_of_ne hb _ _
  rw [TimerWheel.addTimer, if_neg (by omega)]
  dsimp only
  rw [← hslot, ← hnew, ← hs₁]
  have hhead : s₁.wheel slot = (slots slot).head? := h.head slot
  rw [hhead]
  cases hfirst : (slots slot).head? with
  | none =>
    refine ⟨_, rfl, h.pushed rfl rfl ⟨new, hget, rfl, hfirst.symm⟩ fun b hb => ?_,
      (fields_of_get (s := s₁) hget).2.2, fun b hb => ?_, rfl, rfl⟩
    · change s₁.timers b = _
      rw [hsame b hb, hfirst]
      simp
    · change s₁.rotation b = _
      rw [TimerWheel.rotation, hsame b hb, TimerWheel.rotation]
  | some first =>
    have hmem : first ∈ slots slot := mem_of_mem_head? hfirst
    have hne : first ≠ s.made := (h.lt_made hmem).ne
    obtain ⟨t, ht⟩ := h.live slot first hmem
    have hgetFirst : (s₁.set s.made { new with next := some first }).timers first = some t := by
      rw [timers_set_of_ne hne, hsame first hne, ht]
    have hgetNew : ((s₁.set s.made { new with next := some first }).set first
        { t with prev := some s.made }).timers s.made = some { new with next := some first } := by
      rw [timers_set_of_ne hne.symm, timers_set_self]
    dsimp only
    rw [assign_eq hget, bind_eq_bind, bind_some, assign_eq hgetFirst, bind_some]
    have hother : ∀ b, b ≠ s.made → ((s₁.set s.made { new with next := some first }).set first
        { t with prev := some s.made }).timers b =
          (s.timers b).map fun t => if first = b then { t with prev := some s.made } else t := by
      intro b hb
      by_cases hbf : b = first
      · subst hbf
        rw [ht, map_some, if_pos rfl, timers_set_self]
      · rw [timers_set_of_ne hbf, timers_set_of_ne hb, hsame b hb]
        simp [Ne.symm hbf]
    refine ⟨_, rfl, h.pushed rfl rfl ⟨_, hgetNew, rfl, hfirst.symm⟩ fun b hb => ?_,
      (fields_of_get hgetNew).2.2, fun b hb => ?_, rfl, rfl⟩
    · rw [hfirst]
      simpa using hother b hb
    · rw [TimerWheel.rotation]
      dsimp only
      rw [hother b hb, TimerWheel.rotation, Option.map_map]
      congr 2
      funext t
      simp only [comp_apply]
      split <;> rfl

/-! ### A tick -/

theorem timers_free_self : (s.free a).timers a = none := update_self ..

theorem timers_free_of_ne {b : ℕ} (hb : b ≠ a) : (s.free a).timers b = s.timers b :=
  update_of_ne hb _ _

theorem setPrev_eq {x : Option ℕ} (hlive : ∀ b, x = some b → ∃ t, s.timers b = some t) (v : Option ℕ) :
    ∃ s', s.setPrev v x = some s' ∧ s'.wheel = s.wheel ∧ s'.curSlot = s.curSlot ∧ s'.made = s.made ∧
      ∀ b, s'.timers b = (s.timers b).map fun t => { t with prev := if x = some b then v else t.prev } := by
  cases x with
  | none => exact ⟨s, rfl, rfl, rfl, rfl, fun b => by simp⟩
  | some first =>
    obtain ⟨t, ht⟩ := hlive first rfl
    refine ⟨_, assign_eq ht _, rfl, rfl, rfl, fun b => ?_⟩
    by_cases hb : b = first
    · subst hb
      rw [timers_set_self, ht]
      simp
    · rw [timers_set_of_ne hb]
      simp [Ne.symm hb]

def relink (last first : Option ℕ) (b : ℕ) (t : TwTimer) : TwTimer :=
  { t with next := if last = some b then first else t.next, prev := if first = some b then last else t.prev }

theorem expire_eq {done rest : List ℕ} (ht : s.timers a = some t) (hprev : t.prev = done.getLast?)
    (hnext : t.next = rest.head?) (hhead : s.wheel slot = (done ++ a :: rest).head?)
    (hnodup : (done ++ a :: rest).Nodup) (hlive : ∀ b ∈ done ++ rest, ∃ t, s.timers b = some t) :
    ∃ s', s.expire slot a t = some (s', rest.head?) ∧ s'.timers a = none ∧
      s'.wheel = update s.wheel slot (done ++ rest).head? ∧ s'.curSlot = s.curSlot ∧
      s'.made = s.made ∧ ∀ b, b ≠ a → s'.timers b = (s.timers b).map (relink done.getLast? rest.head? b) := by
  have hrest : ∀ b, rest.head? = some b → b ∈ rest ∧ b ≠ a := by
    intro b hb
    have hmem : b ∈ rest := mem_of_mem_head? hb
    exact ⟨hmem, ne_of_mem_of_not_mem hmem (nodup_cons.1 (nodup_append'.1 hnodup).2.1).1⟩
  rw [TimerWheel.expire, hnext]
  obtain rfl | ⟨front, before, rfl⟩ := eq_nil_or_concat' done
  · -- the first timer of the slot
    have hfirst : s.wheel slot = some a := hhead
    rw [if_pos hfirst]
    obtain ⟨s', hset, hwheel, hcur, hmade, htimers⟩ := setPrev_eq
      (s := { s with wheel := update s.wheel slot rest.head? }.free a) (x := rest.head?)
      (fun b hb => by
        rw [timers_free_of_ne (hrest b hb).2]
        exact hlive b (hrest b hb).1) none
    refine ⟨s', ?_, ?_, hwheel, hcur, hmade, fun b hb => ?_⟩
    · dsimp only
      rw [hset]
      rfl
    · rw [htimers, timers_free_self]
      rfl
    · rw [htimers, timers_free_of_ne hb]
      unfold relink
      simp
  · have hmem : before ∈ front ++ [before] := mem_append_right _ (mem_singleton_self before)
    have hbefore : before ≠ a := by
      rintro rfl
      exact (nodup_append'.1 hnodup).2.2 hmem mem_cons_self
    have hfirst : s.wheel slot ≠ some a := by
      rw [hhead]
      intro heq
      cases front with
      | nil => exact hbefore (some.inj heq)
      | cons d front =>
        obtain rfl : d = a := some.inj heq
        exact (nodup_append'.1 hnodup).2.2 mem_cons_self mem_cons_self
    obtain ⟨p, hp⟩ := hlive before (mem_append_left _ hmem)
    have hprev' : t.prev = some before := by rw [hprev, getLast?_concat]
    set s₁ := s.set before { p with next := rest.head? } with hs₁
    obtain ⟨s', hset, hwheel, hcur, hmade, htimers⟩ := setPrev_eq (s := s₁) (x := rest.head?)
      (fun b hb => by
        by_cases hbb : b = before
        · subst hbb
          exact ⟨_, timers_set_self⟩
        · rw [hs₁, timers_set_of_ne hbb]
          exact hlive b (mem_append_right _ (hrest b hb).1)) (some before)
    rw [if_neg hfirst, hprev', bind_eq_bind, bind_some, assign_eq hp, bind_eq_bind,
      bind_some, hset, bind_some]
    refine ⟨_, rfl, timers_free_self, ?_, hcur, hmade, fun b hb => ?_⟩
    · have hsame : (front ++ [before] ++ rest).head? = s.wheel slot := by
        rw [hhead]
        cases front <;> rfl
      rw [hsame, update_eq_self]
      exact hwheel
    · rw [timers_free_of_ne hb, htimers, hs₁, getLast?_concat]
      by_cases hbb : b = before
      · subst hbb
        rw [timers_set_self, hp]
        simp [relink]
      · rw [timers_set_of_ne hbb]
        unfold relink
        simp [Ne.symm hbb]

theorem Holds.expire {done rest : List ℕ} (h : s.Holds (Function.update slots slot (done ++ a :: rest)))
    (ht : s.timers a = some t) :
    ∃ s', s.expire slot a t = some (s', rest.head?) ∧ s'.Holds (Function.update slots slot (done ++ rest)) ∧
      (∀ b, b ≠ a → s'.rotation b = s.rotation b) ∧ s'.curSlot = s.curSlot ∧ s'.made = s.made := by
  have hself : Function.update slots slot (done ++ a :: rest) slot = done ++ a :: rest := update_self ..
  have hlinked := h.linked slot
  have hnodup := h.nodup slot
  have hhead := h.head slot
  have hlive := h.live slot
  rw [hself] at hlinked hnodup hhead hlive
  obtain ⟨hprev, hnext⟩ := hlinked.links
  obtain ⟨hnextA, hprevA, -⟩ := fields_of_get ht
  rw [hprevA, or_none] at hprev
  rw [hnextA, or_none] at hnext
  have hmem : ∀ b ∈ done ++ rest, b ∈ done ++ a :: rest := by
    intro b hb
    rw [mem_append] at hb ⊢
    exact hb.imp_right (mem_cons_of_mem a)
  have hnodup' : (done ++ rest).Nodup := hnodup.sublist (by simp)
  have hnot : a ∉ done ++ rest := (nodup_middle.1 hnodup |> nodup_cons.1).1
  obtain ⟨s', hexpire, hfree, hwheel, hcur, hmade, htimers⟩ :=
    expire_eq ht hprev hnext hhead hnodup fun b hb => hlive b (hmem b hb)
  have hget : ∀ b ∈ done ++ rest, ∃ t, s.timers b = some t ∧
      s'.timers b = some (relink done.getLast? rest.head? b t) := by
    intro b hb
    obtain ⟨t, ht⟩ := hlive b (hmem b hb)
    exact ⟨t, ht, by rw [htimers b (ne_of_mem_of_not_mem hb hnot), ht]; rfl⟩
  -- the links of the others, in terms of those before
  have hnextB : ∀ b, b ≠ a → done.getLast? ≠ some b → s'.next b = s.next b := by
    intro b hb hlast
    rw [TimerWheel.next, htimers b hb, TimerWheel.next, bind_map]
    simp [relink, hlast]
  have hprevB : ∀ b, b ≠ a → rest.head? ≠ some b → s'.prev b = s.prev b := by
    intro b hb hfirst
    rw [TimerWheel.prev, htimers b hb, TimerWheel.prev, bind_map]
    simp [relink, hfirst]
  refine ⟨s', hexpire, ?_, fun b hb => ?_, hcur, hmade⟩
  · have hupdate : s'.Holds (Function.update (Function.update slots slot (done ++ a :: rest)) slot (done ++ rest)) :=
      h.update hwheel (hlinked.unlink hnodup hnextB (fun b hb => ?_) hprevB fun b hb => ?_) hnodup'
      (fun k hk b hb => ?_) (fun b hb => ?_) fun b hb => ?_
    · rwa [update_idem] at hupdate
    · obtain ⟨u, -, hu⟩ := hget b (mem_append_left _ (mem_of_mem_getLast? hb))
      rw [(fields_of_get hu).1, hnextA, hnext]
      exact if_pos hb
    · obtain ⟨u, -, hu⟩ := hget b (mem_append_right _ (mem_of_mem_head? hb))
      rw [(fields_of_get hu).2.1, hprevA, hprev]
      exact if_pos hb
    · have hout : b ∉ done ++ a :: rest := fun hin =>
        hk (h.apart k slot b hb (by rw [hself]; exact hin))
      refine ⟨fun hin => hout (hmem b hin), ?_⟩
      have hne : b ≠ a := fun heq => hout (by rw [heq]; simp)
      have hlast : done.getLast? ≠ some b := fun heq =>
        hout (mem_append_left _ (mem_of_mem_getLast? heq))
      have hfirst : rest.head? ≠ some b := fun heq =>
        hout (mem_append_right _ (mem_cons_of_mem a (mem_of_mem_head? heq)))
      rw [htimers b hne]
      cases s.timers b with
      | none => rfl
      | some u => simp [relink, hlast, hfirst]
    · obtain ⟨u, -, hu⟩ := hget b hb
      exact ⟨_, hu⟩
    · by_cases hb' : b = a
      · rw [hb', hfree]
      · rw [htimers b hb', h.fresh b (hmade ▸ hb)]
        rfl
  · rw [TimerWheel.rotation, htimers b hb, TimerWheel.rotation, Option.map_map]
    rfl

theorem Holds.turn (h : s.Holds slots) (ht : s.timers a = some t) (n : ℕ) :
    (s.set a { t with rotation := n }).Holds slots ∧ (s.set a { t with rotation := n }).rotation a = n ∧
      ∀ b, b ≠ a → (s.set a { t with rotation := n }).rotation b = s.rotation b := by
  have hother : ∀ b, b ≠ a → (s.set a { t with rotation := n }).timers b = s.timers b :=
    fun b hb => timers_set_of_ne hb
  have hlinks : ∀ b, (s.set a { t with rotation := n }).next b = s.next b ∧
      (s.set a { t with rotation := n }).prev b = s.prev b := by
    intro b
    by_cases hb : b = a
    · subst hb
      obtain ⟨hnext, hprev, -⟩ := fields_of_get ht
      obtain ⟨hnext', hprev', -⟩ := fields_of_get (@timers_set_self s b { t with rotation := n })
      exact ⟨hnext'.trans hnext.symm, hprev'.trans hprev.symm⟩
    · simp only [TimerWheel.next, TimerWheel.prev, hother b hb, and_self]
  refine ⟨⟨h.head, fun k => (h.linked k).congr (fun b _ => (hlinks b).1) fun b _ => (hlinks b).2, h.nodup, h.apart,
    fun k b hb => ?_, fun b hb => ?_⟩, (fields_of_get timers_set_self).2.2, fun b hb => ?_⟩
  · by_cases hba : b = a
    · subst hba
      exact ⟨_, timers_set_self⟩
    · rw [hother b hba]
      exact h.live k b hb
  · have hba : b ≠ a := by
      rintro rfl
      rw [h.fresh b hb] at ht
      cases ht
    rw [hother b hba]
    exact h.fresh b hb
  · rw [TimerWheel.rotation, hother b hb, TimerWheel.rotation]

theorem Holds.tickLoop {done rest : List ℕ} {fuel : ℕ} (hfuel : rest.length < fuel)
    (h : s.Holds (Function.update slots slot (done ++ rest))) :
    ∃ s', tickLoop slot fuel s rest.head? = some (s', rest.filter fun b => s.rotation b = 0) ∧
      s'.Holds (Function.update slots slot (done ++ rest.filter fun b => s.rotation b ≠ 0)) ∧
      (∀ b ∈ rest, s.rotation b ≠ 0 → s'.rotation b = s.rotation b - 1) ∧
      (∀ b, b ∉ rest → s'.rotation b = s.rotation b) ∧ s'.curSlot = s.curSlot ∧ s'.made = s.made := by
  induction rest generalizing s done fuel with
  | nil =>
    obtain ⟨fuel, rfl⟩ : ∃ n, fuel = n + 1 := ⟨fuel - 1, by omega⟩
    exact ⟨s, rfl, h, by simp, fun _ _ => rfl, rfl, rfl⟩
  | cons a rest ih =>
    obtain ⟨fuel, rfl⟩ : ∃ n, fuel = n + 1 := ⟨fuel - 1, by omega⟩
    have hless₁ : rest.length < fuel := Nat.lt_of_succ_lt_succ hfuel
    have hself : Function.update slots slot (done ++ a :: rest) slot = done ++ a :: rest :=
      update_self ..
    have hmem : a ∈ done ++ a :: rest := mem_append_right _ mem_cons_self
    obtain ⟨t, ht⟩ := h.live slot a (hself.symm ▸ hmem)
    have hnodup := h.nodup slot
    have hlinked := h.linked slot
    rw [hself] at hnodup hlinked
    have hnot : a ∉ rest := (nodup_cons.1 (nodup_append'.1 hnodup).2.1).1
    obtain ⟨hnextA, -, hrot⟩ := fields_of_get ht
    have hnext : t.next = rest.head? := by rw [← hnextA, hlinked.links.2, or_none]
    have hrest : ∀ {s₁ : TimerWheel}, (∀ b, b ≠ a → s₁.rotation b = s.rotation b) →
        ∀ b ∈ rest, s₁.rotation b = s.rotation b := fun hsame b hb => hsame b (ne_of_mem_of_not_mem hb hnot)
    rw [head?_cons, TimerWheel.tickLoop, ht, bind_eq_bind, bind_some]
    by_cases hturns : 0 < t.rotation
    · obtain ⟨hturn, hone, hsame⟩ := h.turn ht (t.rotation - 1)
      have happend : done ++ a :: rest = done ++ [a] ++ rest := by simp
      rw [happend] at hturn
      obtain ⟨s', hloop, hholds, hless, hkept, hcur, hmade⟩ := ih hless₁ hturn
      have hfilter : ∀ p : ℕ → Bool, rest.filter (fun b =>
          p ((s.set a { t with rotation := t.rotation - 1 }).rotation b)) = rest.filter fun b => p (s.rotation b) :=
        fun p => filter_congr fun b hb => by rw [hrest hsame b hb]
      have hne : s.rotation a ≠ 0 := by omega
      rw [← hnext] at hloop
      rw [if_pos hturns, hloop, hfilter (fun n => decide (n = 0))]
      rw [hfilter (fun n => decide (n ≠ 0))] at hholds
      refine ⟨s', by simp [hne], by simpa [hne] using hholds, fun b hb hb0 => ?_, fun b hb => ?_, hcur, hmade⟩
      · rcases mem_cons.1 hb with rfl | hb
        · rw [hkept b hnot, hone, hrot]
        · rw [hless b hb (by rwa [hrest hsame b hb]), hrest hsame b hb]
      · rw [mem_cons, not_or] at hb
        rw [hkept b hb.2, hsame b hb.1]
    · obtain ⟨s₁, hexpire, hholds₁, hsame, hcur₁, hmade₁⟩ := h.expire ht
      obtain ⟨s', hloop, hholds, hless, hkept, hcur, hmade⟩ := ih hless₁ hholds₁
      have hfilter : ∀ p : ℕ → Bool, rest.filter (fun b => p (s₁.rotation b)) =
          rest.filter fun b => p (s.rotation b) :=
        fun p => filter_congr fun b hb => by rw [hrest hsame b hb]
      have hzero : s.rotation a = 0 := by omega
      rw [if_neg hturns, hexpire, bind_eq_bind, bind_some]
      dsimp only
      rw [hloop, hfilter (fun n => decide (n = 0))]
      rw [hfilter (fun n => decide (n ≠ 0))] at hholds
      refine ⟨s', by simp [hzero], by simpa [hzero] using hholds, fun b hb hb0 => ?_, fun b hb => ?_,
        hcur.trans hcur₁, hmade.trans hmade₁⟩
      · rcases mem_cons.1 hb with rfl | hb
        · exact absurd hzero hb0
        · rw [hless b hb (by rwa [hrest hsame b hb]), hrest hsame b hb]
      · rw [mem_cons, not_or] at hb
        rw [hkept b hb.2, hsame b hb.1]

theorem Holds.tick (h : s.Holds slots) (hcur : s.curSlot < N) :
    ∃ s', s.tick = some (s', (slots ⟨s.curSlot, hcur⟩).filter fun b => s.rotation b = 0) ∧
      s'.Holds (Function.update slots ⟨s.curSlot, hcur⟩
        ((slots ⟨s.curSlot, hcur⟩).filter fun b => s.rotation b ≠ 0)) ∧
      (∀ b ∈ slots ⟨s.curSlot, hcur⟩, s.rotation b ≠ 0 → s'.rotation b = s.rotation b - 1) ∧
      (∀ b, b ∉ slots ⟨s.curSlot, hcur⟩ → s'.rotation b = s.rotation b) ∧ s'.curSlot = s.curSlot + 1 ∧
      s'.made = s.made := by
  set slot : Fin N := ⟨s.curSlot, hcur⟩ with hslot
  have hlen : (slots slot).length < s.made + 1 := by
    have hsub : (slots slot).toFinset ⊆ Finset.range s.made := by
      intro b hb
      exact Finset.mem_range.2 (h.lt_made (mem_toFinset.1 hb))
    have hcard := Finset.card_le_card hsub
    rw [toFinset_card_of_nodup (h.nodup slot), Finset.card_range] at hcard
    omega
  have hsame : s.Holds (Function.update slots slot ([] ++ slots slot)) := by
    rwa [nil_append, update_eq_self]
  obtain ⟨s', hloop, hholds, hless, hkept, hcur', hmade⟩ := hsame.tickLoop hlen
  refine ⟨{ s' with curSlot := s'.curSlot + 1 }, ?_, ?_, hless, hkept, congrArg (· + 1) hcur', hmade⟩
  · rw [TimerWheel.tick, dif_pos hcur, ← hslot, h.head slot, hloop]
    rfl
  · exact ⟨hholds.head, hholds.linked, hholds.nodup, hholds.apart, hholds.live, hholds.fresh⟩

end Holds

end TimerWheel

/-! ### When timers are due -/

structure WheelSystem.Sound (ds : List ℕ) (s : WheelSystem) : Prop where
  curSlot_eq : s.wheel.curSlot = s.ticks
  made_eq : s.wheel.made = ds.length
  ran_nodup : s.ran.Nodup
  mem_ran : ∀ n i, (n, i) ∈ s.ran ↔ ds[i]? = some n ∧ n ≤ s.ticks
  slots : ∃ slots, s.wheel.Holds slots ∧
    (∀ k i, i ∈ slots k ↔ ∃ due, ds[i]? = some due ∧ s.ticks < due ∧ k.val = (due - 1) % N) ∧
    ∀ i due, ds[i]? = some due → s.ticks < due → s.wheel.rotation i = (due - 1 - s.ticks) / N

theorem sound_start : WheelSystem.Sound [] {} where
  curSlot_eq := rfl
  made_eq := rfl
  ran_nodup := nodup_nil
  mem_ran := by simp
  slots := ⟨fun _ => [], ⟨fun _ => rfl, fun _ => trivial, fun _ => nodup_nil, by simp, by simp, fun _ _ => rfl⟩,
    by simp, by simp⟩

section Sound

variable {ds : List ℕ} {s s' : WheelSystem}

theorem ticksFor_eq (timeout : ℤ) : TimerWheel.ticksFor timeout = max 1 (timeout / slotInterval).toNat := by
  have hinterval : slotInterval = 2 := rfl
  rw [TimerWheel.ticksFor, hinterval]
  split <;> omega

theorem WheelSystem.Sound.addTimer (h : s.Sound ds) (timeout : ℤ) :
    ∃ s', s.step (.addTimer timeout) = some s' ∧ s'.Sound (ds ++ dues s.ticks [.addTimer timeout]) ∧
      s'.ticks = s.ticks := by
  rw [WheelSystem.step, dues]
  split
  · next hneg =>
    refine ⟨s, ?_, by simpa [dues] using h, rfl⟩
    rw [TimerWheel.addTimer, if_pos hneg]
    rfl
  · next htimeout =>
    obtain ⟨slots, hholds, hmem, hrot⟩ := h.slots
    obtain ⟨w, hadd, hholds', hnew, hkept, hcur, hmade⟩ := hholds.addTimer (not_lt.1 htimeout)
    rw [hadd, ← ticksFor_eq, dues]
    set n := TimerWheel.ticksFor timeout with hn
    have hpos : 1 ≤ n := by rw [hn, ticksFor_eq]; exact le_max_left _ _
    have hslot : (s.wheel.slotAhead n).val = (s.ticks + n + 1 - 1) % N := by
      change (s.wheel.curSlot + n % N) % N = _
      rw [h.curSlot_eq, Nat.add_sub_cancel, Nat.add_mod_mod]
    -- the old timers keep their numbers, and the new one gets the next
    have hget : ∀ i due, (ds ++ [s.ticks + n + 1])[i]? = some due ↔
        ds[i]? = some due ∨ i = ds.length ∧ due = s.ticks + n + 1 := by
      intro i due
      rcases lt_trichotomy i ds.length with hi | rfl | hi
      · rw [getElem?_append_left hi]
        simp [hi.ne]
      · simp [eq_comm]
      · rw [getElem?_eq_none (by simp; omega), getElem?_eq_none (by omega)]
        simp [hi.ne']
    have hnone : ds[ds.length]? = none := getElem?_eq_none le_rfl
    refine ⟨{ s with wheel := w }, rfl, ⟨hcur.trans h.curSlot_eq, ?_, h.ran_nodup, fun m i => ?_, ?_⟩, rfl⟩
    · rw [length_append, ← h.made_eq]
      exact hmade
    · rw [h.mem_ran, hget]
      constructor
      · rintro ⟨hi, hm⟩
        exact ⟨.inl hi, hm⟩
      · rintro ⟨hi | ⟨rfl, rfl⟩, hm⟩
        · exact ⟨hi, hm⟩
        · dsimp only at hm
          omega
    · refine ⟨_, hholds', fun k i => ?_, fun i due hi hdue => ?_⟩
      · simp only [hget]
        by_cases hk : k = s.wheel.slotAhead n
        · subst hk
          rw [update_self, mem_cons, hmem, h.made_eq]
          constructor
          · rintro (rfl | ⟨due, hi, hdue, hk⟩)
            · exact ⟨_, .inr ⟨rfl, rfl⟩, by omega, hslot⟩
            · exact ⟨due, .inl hi, hdue, hk⟩
          · rintro ⟨due, hi | ⟨rfl, rfl⟩, hdue, hk⟩
            · exact .inr ⟨due, hi, hdue, hk⟩
            · exact .inl rfl
        · rw [update_of_ne hk, hmem]
          constructor
          · rintro ⟨due, hi, hdue, hk'⟩
            exact ⟨due, .inl hi, hdue, hk'⟩
          · rintro ⟨due, hi | ⟨rfl, rfl⟩, hdue, hk'⟩
            · exact ⟨due, hi, hdue, hk'⟩
            · exact absurd (Fin.ext (hk'.trans hslot.symm)) hk
      · rcases (hget i due).1 hi with hi | ⟨rfl, rfl⟩
        · have hne : i ≠ s.wheel.made := by
            rintro rfl
            rw [h.made_eq, hnone] at hi
            cases hi
          exact (hkept i hne).trans (hrot i due hi hdue)
        · dsimp only
          rw [← h.made_eq, hnew]
          congr 1
          omega

theorem turns_left {due T : ℕ} (hdue : T < due) :
    ((due - 1) % N = T % N → ((due - 1 - T) / N = 0 ↔ due = T + 1) ∧
      (due ≠ T + 1 → (due - 1 - T) / N - 1 = (due - 1 - (T + 1)) / N)) ∧
    ((due - 1) % N ≠ T % N → due ≠ T + 1 ∧ (due - 1 - T) / N = (due - 1 - (T + 1)) / N) := by
  have hN : N = 6 := rfl
  rw [hN]
  omega

theorem WheelSystem.Sound.tick (h : s.Sound ds) (hticks : s.ticks < N) :
    ∃ s', s.step .tick = some s' ∧ s'.Sound ds ∧ s'.ticks = s.ticks + 1 := by
  obtain ⟨slots, hholds, hmem, hrot⟩ := h.slots
  have hcur : s.wheel.curSlot < N := h.curSlot_eq ▸ hticks
  obtain ⟨w, htick, hholds', hless, hkept, hcur', hmade⟩ := hholds.tick hcur
  set slot : Fin N := ⟨s.wheel.curSlot, hcur⟩ with hslot
  have hslotval : slot.val = s.ticks % N := h.curSlot_eq.trans (Nat.mod_eq_of_lt hticks).symm
  -- the timers of the slot that have no turns left are those that are due at this tick
  have hruns : ∀ i, (i ∈ slots slot ∧ s.wheel.rotation i = 0) ↔ ds[i]? = some (s.ticks + 1) := by
    intro i
    rw [hmem]
    constructor
    · rintro ⟨⟨due, hi, hdue, hk⟩, hzero⟩
      rw [hrot i due hi hdue] at hzero
      rw [hi, ((turns_left hdue).1 (hk.symm.trans hslotval)).1.1 hzero]
    · intro hi
      have hdue : s.ticks < s.ticks + 1 := Nat.lt_succ_self _
      refine ⟨⟨_, hi, hdue, by rw [hslotval, Nat.add_sub_cancel]⟩, ?_⟩
      rw [hrot i _ hi hdue, Nat.add_sub_cancel, Nat.sub_self, Nat.zero_div]
  refine ⟨⟨w, s.ticks + 1, _⟩, by rw [WheelSystem.step, htick]; rfl, ⟨?_, hmade.trans h.made_eq, ?_, fun n i => ?_,
    ?_⟩, rfl⟩
  · rw [hcur', h.curSlot_eq]
  · refine nodup_append'.2 ⟨h.ran_nodup, ?_, fun x hx hx' => ?_⟩
    · exact ((hholds.nodup slot).filter _).map fun a b hab => (Prod.mk.inj hab).2
    · obtain ⟨i, -, rfl⟩ := mem_map.1 hx'
      have hle := ((h.mem_ran _ _).1 hx).2
      omega
  · rw [mem_append, h.mem_ran, List.mem_map]
    simp only [mem_filter, decide_eq_true_eq, hruns, Prod.mk.injEq]
    constructor
    · rintro (⟨hi, hn⟩ | ⟨j, hj, rfl, rfl⟩)
      · exact ⟨hi, by omega⟩
      · exact ⟨hj, le_rfl⟩
    · rintro ⟨hi, hn⟩
      rcases Nat.le_succ_iff.1 hn with hn | rfl
      · exact .inl ⟨hi, hn⟩
      · exact .inr ⟨i, hi, rfl, rfl⟩
  · refine ⟨_, hholds', fun k i => ?_, fun i due hi hdue => ?_⟩
    · dsimp only
      by_cases hk : k = slot
      · rw [hk, update_self, mem_filter, decide_eq_true_eq, hmem]
        constructor
        · rintro ⟨⟨due, hi, hdue, hk'⟩, hne⟩
          have hlater : due ≠ s.ticks + 1 := by
            rintro rfl
            exact hne ((hruns i).2 hi).2
          exact ⟨due, hi, by omega, hk'⟩
        · rintro ⟨due, hi, hdue, hk'⟩
          refine ⟨⟨due, hi, by omega, hk'⟩, fun hzero => ?_⟩
          have hnow := (hruns i).1 ⟨(hmem slot i).2 ⟨due, hi, by omega, hk'⟩, hzero⟩
          rw [hi] at hnow
          have := some.inj hnow
          omega
      · rw [update_of_ne hk, hmem]
        constructor
        · rintro ⟨due, hi, hdue, hk'⟩
          have hother : (due - 1) % N ≠ s.ticks % N := fun heq => hk (Fin.ext (by rw [hk', heq, hslotval]))
          have hlater := ((turns_left hdue).2 hother).1
          exact ⟨due, hi, by omega, hk'⟩
        · rintro ⟨due, hi, hdue, hk'⟩
          exact ⟨due, hi, by omega, hk'⟩
    · have hdue' : s.ticks < due := by
        dsimp only at hdue
        omega
      have hnow : due ≠ s.ticks + 1 := by
        dsimp only at hdue
        omega
      have hleft := hrot i due hi hdue'
      dsimp only
      by_cases hk : (due - 1) % N = s.ticks % N
      · have hin : i ∈ slots slot := (hmem slot i).2 ⟨due, hi, hdue', by rw [hslotval, hk]⟩
        obtain ⟨hzero, hturn⟩ := (turns_left hdue').1 hk
        rw [hless i hin (by rw [hleft]; exact fun h0 => hnow (hzero.1 h0)), hleft, hturn hnow]
      · have hout : i ∉ slots slot := by
          intro hin
          obtain ⟨due', hi', -, hk'⟩ := (hmem slot i).1 hin
          rw [hi] at hi'
          cases hi'
          exact hk (hk'.symm.trans hslotval)
        rw [hkept i hout, hleft, ((turns_left hdue').2 hk).2]

theorem WheelSystem.Sound.run (h : s.Sound ds) {es : List WheelEvent}
    (hticks : s.ticks + es.count .tick ≤ N) :
    ∃ s', Lts.run WheelSystem.step s es = some s' ∧ s'.Sound (ds ++ dues s.ticks es) ∧
      s'.ticks = s.ticks + es.count .tick := by
  induction es generalizing s ds with
  | nil => exact ⟨s, rfl, by simpa [dues] using h, rfl⟩
  | cons e es ih =>
    cases e with
    | addTimer timeout =>
      obtain ⟨s₁, hstep, hsound, hsame⟩ := h.addTimer timeout
      rw [count_cons_of_ne (by simp)] at hticks ⊢
      obtain ⟨s', hrun, hs', hcount⟩ := ih hsound (by rwa [hsame])
      rw [hsame] at hs' hcount
      refine ⟨s', by rw [Lts.run, hstep]; exact hrun, ?_, hcount⟩
      have hdues : dues s.ticks (.addTimer timeout :: es) =
          dues s.ticks [.addTimer timeout] ++ dues s.ticks es := by
        rw [dues, dues]
        split <;> simp [dues]
      rwa [hdues, ← append_assoc]
    | tick =>
      rw [count_cons_self] at hticks ⊢
      obtain ⟨s₁, hstep, hsound, hsucc⟩ := h.tick (by omega)
      obtain ⟨s', hrun, hs', hcount⟩ := ih hsound (by omega)
      rw [hsucc] at hs' hcount
      exact ⟨s', by rw [Lts.run, hstep]; exact hrun, hs', by omega⟩

theorem count_tick_le {es : List WheelEvent} (hrun : Lts.run WheelSystem.step {} es = some s) :
    es.count .tick ≤ N := by
  induction es using reverseRecOn generalizing s with
  | nil => exact Nat.zero_le _
  | append_singleton es e ih =>
    rw [Lts.run_concat] at hrun
    obtain ⟨t, ht, hstep⟩ := bind_eq_some_iff.1 hrun
    have hle := ih ht
    cases e with
    | addTimer timeout => simpa using hle
    | tick =>
      obtain ⟨t', ht', hsound, hticks⟩ := sound_start.run (le_of_eq_of_le (Nat.zero_add _) hle)
      obtain rfl := some.inj (ht.symm.trans ht')
      have hcur : t.wheel.curSlot < N := by
        by_contra hge
        rw [WheelSystem.step, TimerWheel.tick, dif_neg hge] at hstep
        cases hstep
      rw [hsound.curSlot_eq, hticks, Nat.zero_add] at hcur
      simpa using hcur

end Sound

def Right (es : List WheelEvent) (s : WheelSystem) : Prop :=
  s.wheel.curSlot < N ∧ s.ran.Nodup ∧
    (∀ n i, (n, i) ∈ s.ran ↔ (dues 0 es)[i]? = some n ∧ n ≤ es.count .tick) ∧
    ∃ slots, s.wheel.Holds slots ∧
      ∀ k i, i ∈ slots k ↔ ∃ due, (dues 0 es)[i]? = some due ∧ es.count .tick < due ∧ k.val = (due - 1) % N

theorem wheel_right_iff (es : List WheelEvent) :
    (∃ s, Lts.run WheelSystem.step {} es = some s ∧ Right es s) ↔ es.count .tick < N := by
  constructor
  · rintro ⟨s, hrun, hcur, -⟩
    obtain ⟨s', hrun', hsound, hcount⟩ := sound_start.run (le_of_eq_of_le (Nat.zero_add _) (count_tick_le hrun))
    obtain rfl := some.inj (hrun.symm.trans hrun')
    rwa [hsound.curSlot_eq, hcount, Nat.zero_add] at hcur
  · intro hticks
    obtain ⟨s, hrun, hsound, hcount⟩ := sound_start.run (le_of_eq_of_le (Nat.zero_add _) hticks.le)
    rw [nil_append] at hsound
    rw [Nat.zero_add] at hcount
    obtain ⟨slots, hholds, hmem, -⟩ := hsound.slots
    refine ⟨s, hrun, ?_, hsound.ran_nodup, ?_, slots, hholds, ?_⟩
    · rwa [hsound.curSlot_eq, hcount]
    · rw [← hcount]
      exact hsound.mem_ran
    · rw [← hcount]
      exact hmem

theorem tick_outside_wheel :
    dues 0 (.addTimer 12 :: replicate 7 .tick) = [7] ∧
      (Lts.run WheelSystem.step {} (.addTimer 12 :: replicate 6 .tick)).map
        (fun s => (s.wheel.curSlot, s.ran)) = some (N, []) ∧
      Lts.run WheelSystem.step {} (.addTimer 12 :: replicate 7 .tick) = none := by
  have hdues : dues 0 (.addTimer 12 :: replicate 7 .tick) = [7] := by decide
  have hsix : (Lts.run WheelSystem.step {} (.addTimer 12 :: replicate 6 .tick)).map
      (fun s => (s.wheel.curSlot, s.ran)) = some (N, []) := by decide
  refine ⟨hdues, hsix, ?_⟩
  obtain ⟨s, hs, hcur⟩ := map_eq_some_iff.1 hsix
  have hseven : WheelEvent.addTimer 12 :: replicate 7 .tick =
      (.addTimer 12 :: replicate 6 .tick) ++ [.tick] := by decide
  rw [hseven, Lts.run_concat, hs, bind_some, WheelSystem.step, TimerWheel.tick,
    dif_neg (by rw [(Prod.mk.inj hcur).1]; exact lt_irrefl N)]
  rfl

end TinyServer
