/-
**Receiving arrays of arrays in pieces.**

Error lines, bulk strings and non-empty arrays of bulk strings are received whatever the cuts are.  The sign of an
integer or a status is not passed, and the header of an empty or nil array waits for a byte that does not come.
For an array of arrays it depends on the steps between the inner arrays.
-/

import BackendProgramming.RedisEnhanceIter

set_option autoImplicit false

namespace GBDownLinker

open CText Resp List

/-! ### One call -/

theorem Spot.At.forget {r : NestedReply} {s : Enhancer} {w : Spot} (h : w.At r s) :
    w.At r { s with haveArray := false } := by
  cases w with
  | start =>
    obtain rfl := h
    rfl
  | line text =>
    cases h with
    | int t => exact .int t
    | status t => exact .status t
    | error => exact .error text
  | header =>
    obtain ⟨rfl, henc⟩ := h
    exact ⟨rfl, henc⟩
  | count before a after =>
    have h : s.Counting r before a after := h
    exact ⟨h.forget rfl rfl rfl, h.parseState, h.value, h.arr⟩
  | elem before pre e es after =>
    have h : s.Reading r .length before pre (e :: es) after := h
    exact ⟨h.forget rfl rfl rfl, h.parseState, h.value, h.todoOk, h.arrayNum, h.doneNum⟩
  | lenLine before pre e es after =>
    obtain ⟨h, -⟩ := h
    exact ⟨⟨h.forget rfl rfl rfl, h.parseState, h.value, h.todoOk, h.arrayNum, h.doneNum⟩, rfl⟩
  | body before pre len b es after =>
    obtain ⟨h, hlen⟩ := h
    exact ⟨⟨h.forget rfl rfl rfl, h.parseState, h.value, h.todoOk, h.arrayNum, h.doneNum⟩, hlen⟩
  | lost before a after =>
    have h : s.Counting r before a after := h
    exact ⟨h.forget rfl rfl rfl, h.parseState, h.value, h.arr⟩

theorem Spot.At.members {r : NestedReply} {s : Enhancer} {w : Spot} (h : w.At r s) :
    s.conn.unparseBuf = [] ∧ s.conn.valid = false ∧ s.conn.parseState ≠ .unknownState := by
  cases w with
  | start =>
    obtain rfl := h
    exact ⟨rfl, rfl, by simp⟩
  | line text => cases h <;> exact ⟨rfl, rfl, by simp⟩
  | header =>
    obtain ⟨rfl, -⟩ := h
    exact ⟨rfl, rfl, by simp⟩
  | count before a after =>
    have h : s.Counting r before a after := h
    exact ⟨h.unparse, h.valid, by simp [h.parseState]⟩
  | elem before pre e es after =>
    have h : s.Reading r .length before pre (e :: es) after := h
    exact ⟨h.unparse, h.valid, by simp [h.parseState]⟩
  | lenLine before pre e es after => exact ⟨h.1.unparse, h.1.valid, by simp [h.1.parseState]⟩
  | body before pre len b es after => exact ⟨h.1.unparse, h.1.valid, by simp [h.1.parseState]⟩
  | lost before a after =>
    have h : s.Counting r before a after := h
    exact ⟨h.unparse, h.valid, by simp [h.parseState]⟩

structure RestsAt (r : NestedReply) (c : Connection) (info : CommonReplyInfo) (w : Spot) : Prop where
  place : w.At r (enhanceStart { c with unparseBuf := [] } info)
  valid : c.valid = false
  need : c.unparseBuf.length < w.need r

theorem Spot.At.restsAt {r : NestedReply} {s : Enhancer} {w : Spot}
    (h : w.At r { s with haveArray := false }) (tail : Bytes) (hneed : tail.length < w.need r) :
    RestsAt r (s.saveTail tail).conn (s.saveTail tail).info w ∧ (s.saveTail tail).conn.unparseBuf = tail := by
  obtain ⟨hunparse, hvalid, hawake⟩ := h.members
  have hsave : s.saveTail tail = { s with conn := { s.conn with unparseBuf := tail } } := by
    unfold Enhancer.saveTail
    split
    · rfl
    · next hcond =>
      have hnil : tail = [] := by
        by_contra hne
        exact hcond ⟨hvalid, hne⟩
      have hconn : s.conn.unparseBuf = [] := hunparse
      rw [hnil, ← hconn]
  rw [hsave]
  refine ⟨⟨?_, hvalid, hneed⟩, rfl⟩
  have hconn : ({ s.conn with unparseBuf := [] } : Connection) = s.conn := by
    rw [← (show s.conn.unparseBuf = [] from hunparse)]
  rw [enhanceStart, if_neg hawake]
  change w.At r ⟨{ s.conn with unparseBuf := [] }, s.info, false⟩
  rw [hconn]
  exact h

theorem Spot.need_pos (r : NestedReply) (w : Spot) : 0 < w.need r := by
  cases w <;> simp [Spot.need]

inductive Called (r : NestedReply) (cuts : List ℕ) (w : Spot) (n : ℕ) (future : Bytes) :
    Option Enhancer → Prop
  | rests (s' : Enhancer) (w' : Spot) (h : RestsAt r s'.conn s'.info w')
      (hle : s'.conn.unparseBuf.length ≤ n) (hbytes : s'.conn.unparseBuf ++ future = w'.bytes r)
      (hfine : w'.Fine r cuts ↔ w.Fine r cuts) (harrays : w'.arrays r ⊆ w.arrays r) :
      Called r cuts w n future (some s')
  | ends (s' : Enhancer) (hvalid : s'.conn.valid = true)
      (hfine : w.Fine r cuts ↔ future = [] ∧ Holds r s'.info) : Called r cuts w n future (some s')
  | faults (hfine : ¬ w.Fine r cuts) : Called r cuts w n future none

theorem Called.of_moved {r : NestedReply} {cuts : List ℕ} {w w' : Spot} {n n' : ℕ} {future : Bytes}
    {o : Option Enhancer} (h : Called r cuts w' n' future o) (hle : n' ≤ n)
    (hfine : w'.Fine r cuts ↔ w.Fine r cuts) (harrays : w'.arrays r ⊆ w.arrays r) :
    Called r cuts w n future o := by
  cases h with
  | rests s₁ w₁ h₁ hle₁ hb hf ha =>
    exact .rests s₁ w₁ h₁ (hle₁.trans hle) hb (hf.trans hfine) fun x hx => harrays (ha hx)
  | ends s₁ hvalid hf => exact .ends s₁ hvalid (hfine.symm.trans hf)
  | faults hf => exact .faults fun hw => hf (hfine.2 hw)

theorem called_zero {r : NestedReply} {s : Enhancer} {w : Spot} (cuts : List ℕ) (fuel : ℕ) (mem : Bytes)
    (hs : w.At r s) : Called r cuts w 0 (w.bytes r) (enhanceLoop fuel s mem 0) := by
  obtain ⟨hrests, hnil⟩ := hs.forget.restsAt [] (w.need_pos r)
  rw [show s.saveTail [] = s by simp [Enhancer.saveTail]] at hrests hnil
  rw [enhanceLoop_zero]
  exact .rests s w hrests (by simp [hnil]) (by rw [hnil]; rfl) Iff.rfl (List.Subset.refl _)

theorem enhanceLoop_at {r : NestedReply} {cuts : List ℕ} {future : Bytes} (hwf : r.WellFormed)
    (hrange : InRange r) (hcuts : CutsOf cuts future) (pad : Bytes) (fuel : ℕ) {s : Enhancer} {w : Spot}
    {rest : Bytes} (hplain : (∀ x ∈ w.arrays r, ∀ e ∈ x.elements, e.DigitFree) ∨ w.Fine r cuts)
    (hs : w.At r s) (h : rest ++ future = w.bytes r) (hfuel : rest.length + w.extra ≤ fuel) :
    Called r cuts w rest.length future (enhanceLoop fuel s (rest ++ 0 :: pad) rest.length) := by
  induction fuel generalizing s w rest with
  | zero =>
    obtain rfl : rest = [] := length_eq_zero_iff.1 (by omega)
    obtain rfl : future = w.bytes r := h
    exact called_zero cuts 0 _ hs
  | succ fuel ih =>
    rcases eq_or_ne rest [] with rfl | hne
    · obtain rfl : future = w.bytes r := h
      exact called_zero cuts _ _ hs
    · have hout := enhanceIter_at hwf hrange hcuts hplain hs h hne pad
      rw [enhanceLoop_turn (by simpa using hne)]
      have hdrop : ∀ k, k ≤ rest.length → (rest ++ 0 :: pad).drop k = rest.drop k ++ 0 :: pad :=
        fun k hk => drop_append_of_le_length hk
      have hcut : ∀ k, k ≤ rest.length → rest.drop k ++ future = (w.bytes r).drop k :=
        fun k hk => by rw [← h, drop_append_of_le_length hk]
      generalize enhanceIter s (rest ++ 0 :: pad) rest.length = it at hout
      cases hout with
      | moves s' w' k hpos hextra hle hat hbytes hfine harrays =>
        have hplain' : (∀ x ∈ w'.arrays r, ∀ e ∈ x.elements, e.DigitFree) ∨ w'.Fine r cuts :=
          hplain.imp (fun hd x hx => hd x (harrays hx)) hfine.2
        have hfuel' : (rest.drop k).length + w'.extra ≤ fuel := by
          rw [length_drop, hextra]
          rcases hpos with hpos | rfl
          · have hpos' := length_pos_iff.2 hne
            omega
          · have hstart : Spot.start.extra = 1 := rfl
            omega
        simp only [hdrop k hle]
        rw [show rest.length - k = (rest.drop k).length by simp]
        exact (ih hplain' hat ((hcut k hle).trans hbytes.symm) hfuel').of_moved (by simp) hfine harrays
      | oversteps s' w' hat hbytes hfine harrays =>
        simp only [show rest.length - (rest.length + 1) = 0 by omega]
        rw [← hbytes]
        exact (called_zero cuts _ _ hat).of_moved (Nat.zero_le _) hfine harrays
      | waits s' w' k hle hat hbytes hneed hfine harrays =>
        have htail : ((rest ++ 0 :: pad).drop k).take (rest.length - k) = rest.drop k := by
          rw [hdrop k hle, take_left' (by simp)]
        obtain ⟨hrests, hunparse⟩ := hat.restsAt (rest.drop k) (by simpa using hneed)
        simp only [htail]
        refine .rests _ w' hrests ?_ ?_ hfine harrays
        · rw [hunparse]
          simp
        · rw [hunparse, hcut k hle, hbytes]
      | stops s' hvalid hfine =>
        simp only [Nat.sub_self, enhanceLoop_zero]
        exact .ends s' hvalid hfine
      | returns s' hvalid hfine => exact .ends s' hvalid hfine
      | ends s' k arrays target hpos hle hover hvalue hquiet hfine hspare =>
        simp only [hdrop k hle]
        rw [show rest.length - k = (rest.drop k).length by simp]
        cases hres : enhanceLoop fuel s' (rest.drop k ++ 0 :: pad) (rest.drop k).length with
        | none =>
          refine .faults fun hw => ?_
          obtain ⟨l, hl, hnil, hbytes⟩ := hspare hw
          obtain ⟨rfl, -⟩ := hfine.1 hw
          have hrest : rest.drop k = encodeArrs l := by
            rw [← hbytes, ← hcut k hle, append_nil]
          have hsome := enhanceLoop_spare pad hl hnil fuel hover
            (by rw [← hrest, length_drop]; omega)
          rw [← hrest, hres] at hsome
          cases hsome
        | some s₁ =>
          have hend := enhanceLoop_quiet pad fuel hover (hcut k hle ▸ hquiet) hres
          refine .ends s₁ hend.valid ?_
          rw [hfine, Holds, hvalue, hend.arrays]
          simp [hend.replyType]

/-! ### The cuts -/

def Spot.edge (r : NestedReply) : Spot → ℕ
  | .start => (encodeArrs (nestedArrays r).tail).length
  | .line _ => (encodeArrs (nestedArrays r).tail).length
  | .header => (encodeArrs (nestedArrays r).tail).length
  | .count _ _ after => (encodeArrs after).length
  | .elem _ _ _ _ after => (encodeArrs after).length
  | .lenLine _ _ _ _ after => (encodeArrs after).length
  | .body _ _ _ _ _ after => (encodeArrs after).length
  | .lost _ _ after => (encodeArrs after).length

section Cuts

variable {m : ℕ} {cuts : List ℕ}

theorem length_tail_lt {l : List Arr} (h : (encodeArrs l).length < m) : (encodeArrs l.tail).length < m := by
  cases l with
  | nil => exact h
  | cons b l =>
    rw [encodeArrs_cons, length_append] at h
    rw [tail_cons]
    omega

theorem spare_cons {l : List Arr} (h : (encodeArrs l).length < m) : Spare (m :: cuts) l ↔ Spare cuts l := by
  simp [Spare, h]

theorem steps_cons {es : List Element} {next next' : Prop} (hnext : next ↔ next') {l : List Arr}
    (h : (encodeArrs l).length < m) : Steps (m :: cuts) es next l ↔ Steps cuts es next' l := by
  cases l with
  | nil => rfl
  | cons a l =>
    have htail : (encodeArrs l).length < m := length_tail_lt h
    have hmem : (encodeArrs (a :: l)).length ∈ m :: cuts ↔ (encodeArrs (a :: l)).length ∈ cuts := by
      rw [mem_cons]
      exact or_iff_right h.ne
    simp only [Steps, hmem, spare_cons htail, hnext]

theorem smooth_cons {l : List Arr} (h : (encodeArrs l.tail).length < m) :
    Smooth (m :: cuts) l ↔ Smooth cuts l := by
  induction l with
  | nil => rfl
  | cons a l ih =>
    rw [tail_cons] at h
    simp only [Smooth, spare_cons h, steps_cons (ih (length_tail_lt h)) h]

theorem Spot.fine_cons {r : NestedReply} {w : Spot} (h : w.edge r < m) :
    w.Fine r (m :: cuts) ↔ w.Fine r cuts := by
  have hshape : (encodeArrs (nestedArrays r).tail).length < m → (Shape (m :: cuts) r ↔ Shape cuts r) := by
    intro h
    cases r with
    | nested num arrs => exact smooth_cons h
    | _ => rfl
  cases w with
  | start => exact hshape h
  | line text => exact hshape h
  | header => exact hshape h
  | count before a after => exact smooth_cons h
  | elem before pre e es after => exact steps_cons (smooth_cons (length_tail_lt h)) h
  | lenLine before pre e es after => exact steps_cons (smooth_cons (length_tail_lt h)) h
  | body before pre len b es after => exact steps_cons (smooth_cons (length_tail_lt h)) h
  | lost before a after => exact and_congr Iff.rfl (spare_cons h)

end Cuts

section Arrived

variable {r : NestedReply} {s : Enhancer} {w : Spot} {tail future : Bytes}

theorem Spot.At.edge_lt (hs : w.At r s) (htail : tail.length < w.need r) (h : tail ++ future = w.bytes r)
    (hne : future ≠ []) : w.edge r < future.length := by
  have hpos := length_pos_iff.2 hne
  have hlen := congrArg length h
  have hshape : ∀ n, r.encode.length ≤ n + future.length → n ≤ (headerText r).length + 3 →
      (encodeArrs (nestedArrays r).tail).length < future.length := by
    intro n hn hle
    cases r with
    | nested num arrs =>
      cases arrs with
      | nil => exact hpos
      | cons a after =>
        simp only [NestedReply.encode, Arr.encode, headerText, nestedArrays, encodeArrs_cons, tail_cons,
          length_cons, length_append, length_crlf] at hn hle ⊢
        omega
    | _ => exact hpos
  cases w with
  | start =>
    simp only [Spot.need, Spot.bytes, length_append] at htail hlen
    exact hshape 0 (by omega) (by omega)
  | line text =>
    have hnil : nestedArrays r = [] := by cases hs <;> rfl
    rw [Spot.edge, hnil]
    exact hpos
  | header =>
    simp only [Spot.need, Spot.bytes, length_append, length_tail] at htail hlen
    exact hshape (tail.length + 1) (by omega) (by omega)
  | count before a after =>
    simp only [Spot.need, Spot.bytes, Spot.edge, length_append, length_crlf] at htail hlen ⊢
    omega
  | elem before pre e es after =>
    have := e.three_le_length_encode
    simp only [Spot.need, Spot.bytes, Spot.edge, length_append] at htail hlen ⊢
    omega
  | lenLine before pre e es after =>
    simp only [Spot.need, Spot.bytes, Spot.edge, length_append, length_crlf] at htail hlen ⊢
    omega
  | body before pre len b es after =>
    simp only [Spot.need, Spot.bytes, Spot.edge, length_append, length_crlf] at htail hlen ⊢
    omega
  | lost before a after =>
    simp only [Spot.need, Spot.bytes, Spot.edge, length_append, length_cons, length_crlf]
      at htail hlen ⊢
    omega

theorem Spot.At.not_fine (hwf : r.WellFormed) (hs : w.At r s) (cuts : List ℕ)
    (h : (w.bytes r).length < w.need r) : ¬ w.Fine r cuts := by
  cases w with
  | header =>
    have hlen : (headerText r ++ (crlf ++ behindHeader r)).length < (headerText r).length + 3 := by
      have htail : r.encode.tail = headerText r ++ (crlf ++ behindHeader r) := by rw [hs.2]; rfl
      rw [← htail]
      exact h
    have hnil : behindHeader r = [] := by
      rw [length_append, length_append, length_crlf] at hlen
      exact length_eq_zero_iff.1 (by omega)
    have hsimple : r.encode = 42 :: (headerText r ++ (crlf ++ behindHeader r)) := hs.2
    cases r with
    | array a =>
      cases hes : a.elements with
      | nil => simp [Spot.Fine, Shape, hes]
      | cons e es =>
        have := e.three_le_length_encode
        rw [behindHeader, hes, encodes_cons, append_eq_nil_iff] at hnil
        simp [hnil.1] at this
    | nested num arrs =>
      obtain ⟨a, after, rfl⟩ := exists_cons_of_ne_nil hwf.2.1
      simp [behindHeader, Arr.encode] at hnil
    | bulk e =>
      rw [NestedReply.encode, Element.encode_of_isBulk hwf.2] at hsimple
      exact absurd (cons.inj hsimple).1 (by decide)
    | _ => exact absurd (cons.inj hsimple).1 (by decide)
  | start =>
    have hne : 0 < r.encode.length := by
      cases r with
      | bulk e =>
        have := e.three_le_length_encode
        simp only [NestedReply.encode]
        omega
      | array a => simp [NestedReply.encode, Arr.encode]
      | _ => simp [NestedReply.encode]
    simp only [Spot.need, Spot.bytes] at h
    omega
  | elem before pre e es after =>
    have := e.three_le_length_encode
    simp only [Spot.need, Spot.bytes, length_append] at h
    omega
  | _ =>
    simp only [Spot.need, Spot.bytes, length_append, length_cons, length_crlf] at h
    omega

theorem Spot.At.need_le (hwf : r.WellFormed) (hrange : InRange r) (hs : w.At r s) :
    w.need r ≤ 2 ^ 29 + 4 := by
  cases w with
  | start => simp [Spot.need]
  | line text =>
    cases hs with
    | int t =>
      have : t.length < 4095 := hrange
      simp only [Spot.need, length_cons]
      omega
    | status t =>
      have := hrange.1
      simp only [Spot.need, length_cons]
      omega
    | error =>
      have := hrange.1
      simp only [Spot.need]
      omega
  | header =>
    have := (HasHeader.text_open ⟨hs.2, hwf, hrange⟩).2
    simp only [Spot.need]
    omega
  | count before a after =>
    have := (show s.Counting r before a after from hs).arr.range.1
    simp only [Spot.need]
    omega
  | elem before pre e es after => simp [Spot.need]
  | lenLine before pre e es after =>
    obtain ⟨⟨hwf, hbulk⟩, -⟩ := hs.1.todoOk e mem_cons_self
    have : e.lenText.length < 4096 := by
      cases e with
      | line σ text => simp [Element.isBulk] at hbulk
      | bulk len b => exact hwf.short
      | nil => decide
    simp only [Spot.need]
    omega
  | body before pre len b es after =>
    have hsmall := (hs.1.todoOk _ mem_cons_self).range
    simp only [elementInRange, Element.payload, length_append, length_crlf] at hsmall
    simp only [Spot.need]
    omega
  | lost before a after =>
    have := (show s.Counting r before a after from hs).arr.range.1
    simp only [Spot.need]
    omega

end Arrived

theorem cutsOf_cutsLeft {d : Bytes} {ds : List Bytes} (h : ∀ x ∈ ds, x ≠ []) :
    CutsOf (cutsLeft (d :: ds)) ds.flatten := by
  induction ds generalizing d with
  | nil => exact ⟨by simp [cutsLeft], by simp [cutsLeft], by simp⟩
  | cons d' ds ih =>
    obtain ⟨hd', hds⟩ := forall_mem_cons.1 h
    obtain ⟨hpos, hle, -⟩ := ih (d := d') hds
    have hlen : 0 < (d' :: ds).flatten.length := by
      have := length_pos_iff.2 hd'
      rw [flatten_cons, length_append]
      omega
    refine ⟨fun m hm => ?_, fun m hm => ?_, fun _ => mem_cons_self⟩
    · rcases mem_cons.1 hm with rfl | hm
      · exact hlen
      · exact hpos m hm
    · rcases mem_cons.1 hm with rfl | hm
      · exact le_rfl
      · have := hle m hm
        rw [flatten_cons, length_append]
        omega

/-! ### The receive loop -/

def Delivers (r : NestedReply) : Option (Bool × CommonReplyInfo × List Bytes) → Prop
  | some (true, info, []) => Holds r info
  | _ => False

instance (r : NestedReply) (x : Option (Bool × CommonReplyInfo × List Bytes)) : Decidable (Delivers r x) := by
  unfold Delivers
  split <;> infer_instance

theorem recvLoopOf_at {r : NestedReply} (hwf : r.WellFormed) (hrange : InRange r) (reads : List Bytes)
    (hreads : ∀ d ∈ reads, IsRead d) {rc : ReceiverOf CommonReplyInfo} {w : Spot}
    (hrests : RestsAt r rc.conn rc.info w) (hfits : Fits rc.mallocLen rc.conn.unparseBuf)
    (h : rc.conn.unparseBuf ++ reads.flatten = w.bytes r)
    (hplain : (∀ x ∈ w.arrays r, ∀ e ∈ x.elements, e.DigitFree) ∨ w.Fine r (cutsLeft reads)) :
    Delivers r (recvLoopOf parseEnhance rc reads) ↔ w.Fine r (cutsLeft reads) := by
  induction reads generalizing rc w with
  | nil =>
    refine iff_of_false ?_ ?_
    · rw [recvLoopOf, hrests.valid]
      exact id
    · refine hrests.place.not_fine hwf _ ?_
      rw [← h, flatten_nil, append_nil]
      exact hrests.need
  | cons d ds ih =>
    obtain ⟨hd, hds⟩ := forall_mem_cons.1 hreads
    have hne : ∀ x ∈ ds, x ≠ [] := fun x hx => (hds x hx).1
    have hcuts : CutsOf (cutsLeft (d :: ds)) ds.flatten := cutsOf_cutsLeft hne
    have hfuture : ds.flatten = [] ↔ ds = [] := by
      rw [flatten_eq_nil_iff]
      refine ⟨fun hall => eq_nil_iff_forall_not_mem.2 fun x hx => hne x hx (hall x hx), ?_⟩
      rintro rfl
      simp
    have hneed := hrests.place.need_le hwf hrange
    have hsmall := hrests.need
    have hbuf : readBuffSize = 4096 := rfl
    obtain ⟨m, pad, hm, hstep⟩ := recvStepOf_eq parseEnhance hfits hd.2 (fun _ => by have := hd.2; omega)
    rw [flatten_cons, ← append_assoc] at h
    have hcall := enhanceLoop_at hwf hrange hcuts pad ((rc.conn.unparseBuf ++ d).length + 1) hplain
      hrests.place h (by cases w <;> simp [Spot.extra])
    rw [recvLoopOf, hrests.valid, hstep, parseEnhance]
    simp only [Bool.false_eq_true, if_false, Option.map_map]
    generalize enhanceLoop ((rc.conn.unparseBuf ++ d).length + 1) _ _ _ = o at hcall
    cases hcall with
    | rests s' w' hrests' hle hbytes hfine harrays =>
      have hcons : w'.Fine r (cutsLeft (d :: ds)) ↔ w'.Fine r (cutsLeft ds) := by
        cases ds with
        | nil => rfl
        | cons d' ds =>
          refine Spot.fine_cons (hrests'.place.edge_lt hrests'.need hbytes ?_)
          rw [ne_eq, hfuture]
          simp
      refine (ih hds hrests' (hm _ hle) hbytes ?_).trans (hcons.symm.trans hfine)
      exact hplain.imp (fun hd x hx => hd x (harrays hx)) fun hw => hcons.1 (hfine.2 hw)
    | ends s' hvalid hfine =>
      rw [hfine, hfuture]
      have hloop : recvLoopOf parseEnhance ⟨s'.conn, s'.info, m⟩ ds = some (true, s'.info, ds) :=
        recvLoopOf_valid parseEnhance hvalid ds
      change Delivers r (recvLoopOf parseEnhance ⟨s'.conn, s'.info, m⟩ ds) ↔ _
      rw [hloop]
      cases ds with
      | nil => simp [Delivers]
      | cons d' ds => simp [Delivers]
    | faults hfine => exact iff_of_false id hfine

end GBDownLinker
