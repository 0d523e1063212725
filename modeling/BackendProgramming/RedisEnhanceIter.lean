/-
**One iteration of the parser for arrays of arrays.**

An iteration moves to a later place of the reply, waits for more bytes, or ends the reply.  `Iterated` has these
outcomes and says what becomes of the condition `Spot.Fine`.
-/

import BackendProgramming.RedisEnhancePlaces

set_option autoImplicit false

namespace GBDownLinker

open CText Resp List

/-! ### One iteration -/

structure CutsOf (cuts : List ℕ) (future : Bytes) : Prop where
  pos : ∀ m ∈ cuts, 0 < m
  le : ∀ m ∈ cuts, m ≤ future.length
  mem : future ≠ [] → future.length ∈ cuts

inductive Iterated (r : NestedReply) (cuts : List ℕ) (w : Spot) (rest future : Bytes) :
    EnhanceIter → Prop
  | moves (s' : Enhancer) (w' : Spot) (k : ℕ) (hpos : 0 < k ∨ w = .start) (hextra : w'.extra = 0)
      (hle : k ≤ rest.length) (hat : w'.At r s') (hbytes : w'.bytes r = (w.bytes r).drop k)
      (hfine : w'.Fine r cuts ↔ w.Fine r cuts) (harrays : w'.arrays r ⊆ w.arrays r) :
      Iterated r cuts w rest future (.next s' k)
  | oversteps (s' : Enhancer) (w' : Spot) (hat : w'.At r s') (hbytes : w'.bytes r = future)
      (hfine : w'.Fine r cuts ↔ w.Fine r cuts) (harrays : w'.arrays r ⊆ w.arrays r) :
      Iterated r cuts w rest future (.next s' (rest.length + 1))
  | waits (s' : Enhancer) (w' : Spot) (k : ℕ) (hle : k ≤ rest.length)
      (hat : w'.At r { s' with haveArray := false }) (hbytes : w'.bytes r = (w.bytes r).drop k)
      (hneed : rest.length - k < w'.need r)
      (hfine : w'.Fine r cuts ↔ w.Fine r cuts) (harrays : w'.arrays r ⊆ w.arrays r) :
      Iterated r cuts w rest future (.checkBuf s' k)
  | stops (s' : Enhancer) (hvalid : s'.conn.valid = true)
      (hfine : w.Fine r cuts ↔ future = [] ∧ Holds r s'.info) :
      Iterated r cuts w rest future (.next s' rest.length)
  | returns (s' : Enhancer) (hvalid : s'.conn.valid = true)
      (hfine : w.Fine r cuts ↔ future = [] ∧ Holds r s'.info) : Iterated r cuts w rest future (.ret s')
  | ends (s' : Enhancer) (k : ℕ) (arrays target : List (List ReplyArrayInfo)) (hpos : 0 < k)
      (hle : k ≤ rest.length) (hover : s'.Over (nestedType r) arrays)
      (hvalue : ∀ info, NestedValue info r ↔ info.arrays = target)
      (hquiet : Quiet ((w.bytes r).drop k)) (hfine : w.Fine r cuts ↔ future = [] ∧ arrays = target)
      (hspare : w.Fine r cuts → ∃ l, (∀ a ∈ l, ArrOk a) ∧ (∀ a ∈ l, a.elements = []) ∧
        (w.bytes r).drop k = encodeArrs l) : Iterated r cuts w rest future (.next s' k)

theorem enhanceLine_arrived {text later rest future : Bytes} (htext : IsOpen text)
    (hshort : text.length < 4096) (h : rest ++ future = text ++ (crlf ++ later)) (pad : Bytes)
    (s : Enhancer) (k : ℕ) (f : Bytes → ℕ → EnhanceIter) :
    (enhanceLine s (rest ++ 0 :: pad) k f = f text (k + text.length + 2) ∧
      text.length + 2 ≤ rest.length) ∨
    (enhanceLine s (rest ++ 0 :: pad) k f = .checkBuf s k ∧ rest.length < text.length + 2) := by
  rcases strstrCrlf_arrived htext h pad with ⟨rest', rfl, -, hfound⟩ | ⟨hlt, habsent⟩
  · left
    refine ⟨?_, by simp⟩
    rw [enhanceLine, hfound]
    simp [readBuffSize, hshort]
  · right
    refine ⟨?_, hlt⟩
    rw [enhanceLine, habsent]

theorem CutsOf.spare_iff {cuts : List ℕ} {future : Bytes} (h : CutsOf cuts future) {l : List Arr}
    (hle : future.length ≤ (encodeArrs l).length) :
    Spare cuts l ↔ future = [] ∧ ∀ a ∈ l, a.elements = [] := by
  constructor
  · rintro ⟨hempty, hcuts⟩
    refine ⟨?_, hempty⟩
    by_contra hne
    exact absurd (hcuts _ (h.mem hne)) (by omega)
  · rintro ⟨rfl, hempty⟩
    refine ⟨hempty, fun m hm => ?_⟩
    have hpos := h.pos m hm
    have hle := h.le m hm
    rw [length_nil] at hle
    omega

section Places

variable {r : NestedReply} {cuts : List ℕ} {s : Enhancer} {rest future : Bytes}
variable {before : List (List Element)} {pre es todo : List Element} {a : Arr} {after : List Arr}

theorem ArrOk.atoi_countText (h : ArrOk a) :
    a.elements = [] ∧ (atoi a.countText = 0 ∨ atoi a.countText = -1) ∨
      a.elements ≠ [] ∧ atoi a.countText = a.elements.length := by
  cases a with
  | nil => exact Or.inl ⟨rfl, Or.inr (by decide)⟩
  | elems num es =>
    have hnum := h.wellFormed.1
    have hatoi : atoi num = es.length := by
      have := atoi_digits (t := []) hnum.ne_nil hnum.digits (by simp) (by rw [hnum.val]; exact h.range.2.1)
      rwa [append_nil, hnum.val] at this
    cases es with
    | nil => exact Or.inl ⟨rfl, Or.inl hatoi⟩
    | cons e es => exact Or.inr ⟨by simp [Arr.elements], hatoi⟩

theorem Filling.forget (h : Filling r s before todo after) {s' : Enhancer} (hinfo : s'.info = s.info)
    (hvalid : s'.conn.valid = s.conn.valid) (hunparse : s'.conn.unparseBuf = s.conn.unparseBuf) :
    Filling r s' before todo after :=
  ⟨hvalid.trans h.valid, hunparse.trans h.unparse, by rw [hinfo, h.replyType],
    by rw [hinfo, h.arraysSize], by rw [hinfo, h.curArrayPos], by rw [hinfo, h.arrays], h.afterOk⟩

theorem Enhancer.Counting.arrays_eq (h : s.Counting r before a after) :
    s.info.arrays = before.map infos ++ infos a.elements :: (after.map fun a => infos a.elements) ↔
      a.elements = [] ∧ ∀ x ∈ after, x.elements = [] := by
  rw [h.arrays]
  constructor
  · intro heq
    obtain ⟨hhead, htail⟩ := cons.inj (append_cancel_left heq)
    refine ⟨infos_eq_nil.1 hhead.symm, fun x hx => infos_eq_nil.1 ?_⟩
    exact (map_eq_map_iff.1 htail x hx).symm
  · rintro ⟨hnil, hempty⟩
    rw [hnil]
    refine congrArg (fun t => before.map infos ++ infos [] :: t) (map_eq_map_iff.2 fun x hx => ?_)
    rw [hempty x hx, infos_nil]

theorem Enhancer.Counting.ends {w : Spot} {s' : Enhancer} {k : ℕ} (h : s.Counting r before a after)
    (hcuts : CutsOf cuts future) (hw : w.arrays r = a :: after)
    (hdrop : (w.bytes r).drop k = encodes a.elements ++ encodeArrs after)
    (hfine : w.Fine r cuts ↔ a.elements = [] ∧ Spare cuts after)
    (hplain : (∀ x ∈ w.arrays r, ∀ e ∈ x.elements, e.DigitFree) ∨ w.Fine r cuts)
    (hrest : rest ++ future = w.bytes r) (hpos : 0 < k) (hle : k ≤ rest.length)
    (hstate : s'.conn.parseState = .arrayLength) (hvalid : s'.conn.valid = true)
    (htype : s'.info.replyType = s.info.replyType) (harrays : s'.info.arrays = s.info.arrays) :
    Iterated r cuts w rest future (.next s' k) := by
  have hbulks : ∀ e ∈ a.elements, e.IsBulkString := fun e he => (h.arr.element he).bulk
  have hspare : a.elements = [] ∧ Spare cuts after ↔
      future = [] ∧ a.elements = [] ∧ ∀ x ∈ after, x.elements = [] := by
    by_cases hnil : a.elements = []
    · have hlen : future.length ≤ (encodeArrs after).length := by
        have hdrop' := congrArg length hdrop
        rw [← hrest, drop_append_of_le_length hle, hnil] at hdrop'
        simp only [length_append, encodes_nil, length_nil] at hdrop'
        omega
      rw [hcuts.spare_iff hlen]
      tauto
    · simp [hnil]
  refine .ends s' k s.info.arrays _ hpos hle ⟨hstate, hvalid, htype.trans h.replyType, harrays⟩ h.value ?_ ?_ ?_
  · rw [hdrop]
    rcases hplain with hplain | hfine'
    · rw [hw] at hplain
      obtain ⟨ha, hafter⟩ := forall_mem_cons.1 hplain
      exact quiet_encodes hbulks ha (quiet_encodeArrs (fun x hx => (h.afterOk x hx).wellFormed) hafter)
    · obtain ⟨hnil, hempty, -⟩ := hfine.1 hfine'
      rw [hnil]
      exact quiet_encodeArrs (fun x hx => (h.afterOk x hx).wellFormed) fun x hx e he => by
        simp [hempty x hx] at he
  · rw [hfine, hspare, h.arrays_eq]
  · intro hfine'
    obtain ⟨hnil, hempty, -⟩ := hfine.1 hfine'
    exact ⟨after, h.afterOk, hempty, by rw [hdrop, hnil]; rfl⟩

theorem enhanceIter_count (hs : s.Counting r before a after) (hcuts : CutsOf cuts future)
    (hplain : (∀ x ∈ a :: after, ∀ e ∈ x.elements, e.DigitFree) ∨ Smooth cuts (a :: after))
    (h : rest ++ future = (Spot.count before a after).bytes r) (pad : Bytes) (n : ℕ) :
    Iterated r cuts (.count before a after) rest future (enhanceIter s (rest ++ 0 :: pad) n) := by
  have hshort := hs.arr.range.1
  rw [enhanceIter_arrayLength hs.parseState]
  rcases enhanceLine_arrived hs.arr.wellFormed.countText_open (by omega) h pad
    { s with conn := { s.conn with doneNum := 0 } } 0
    (Enhancer.readCount { s with conn := { s.conn with doneNum := 0 } }) with ⟨heq, hle⟩ | ⟨heq, hlt⟩
  · rw [heq, Nat.zero_add]
    have hdrop : ((Spot.count before a after).bytes r).drop (a.countText.length + 2) =
        encodes a.elements ++ encodeArrs after := drop_line _ _
    rcases hs.arr.atoi_countText with ⟨hnil, hnum⟩ | ⟨hne, hnum⟩
    · -- an empty or nil array ends the reply
      have hfine : (Spot.count before a after).Fine r cuts ↔ a.elements = [] ∧ Spare cuts after := by
        simp [Spot.Fine, Smooth, hnil]
      obtain ⟨s', heq, hstate, hvalid, htype, harrays⟩ := Enhancer.readCount_ends
        { s with conn := { s.conn with doneNum := 0 } } hnum (a.countText.length + 2)
      rw [heq]
      exact hs.ends hcuts rfl hdrop hfine hplain h (by omega) hle (hstate.trans hs.parseState) hvalid htype
        harrays
    · obtain ⟨e, es, hes⟩ := exists_cons_of_ne_nil hne
      have hpos : 0 < a.elements.length := length_pos_iff.2 hne
      rw [Enhancer.readCount, if_neg (by omega), if_neg (by omega)]
      refine .moves _ (.elem before [] e es after) _ (Or.inl (by omega)) rfl hle ?_ ?_ ?_ ?_
      · refine ⟨⟨hs.valid, hs.unparse, hs.replyType, hs.arraysSize, hs.curArrayPos, hs.arrays, hs.afterOk⟩,
          rfl, fun info => ?_, fun x hx => ?_, ?_, rfl⟩
        · rw [hs.value, hes]
          rfl
        · exact hs.arr.element (hes ▸ hx)
        · rw [nil_append, ← hes]
          exact hnum
      · rw [hdrop, hes]
        simp [Spot.bytes]
      · simp [Spot.Fine, Smooth, hes]
      · exact subset_cons_self _ _
  · rw [heq]
    refine .waits _ (.count before a after) 0 (by omega) ?_ (by simp) hlt Iff.rfl (List.Subset.refl _)
    exact ⟨hs.forget rfl rfl rfl, hs.parseState, hs.value, hs.arr⟩

theorem enhanceIter_lost (hs : s.Counting r before a after) (hcuts : CutsOf cuts future)
    (hplain : (∀ x ∈ a :: after, ∀ e ∈ x.elements, e.DigitFree) ∨ a.elements = [] ∧ Spare cuts after)
    (h : rest ++ future = (Spot.lost before a after).bytes r) (pad : Bytes) (n : ℕ) :
    Iterated r cuts (.lost before a after) rest future (enhanceIter s (rest ++ 0 :: pad) n) := by
  have hshort := hs.arr.range.1
  have hopen : IsOpen (42 :: a.countText) := by
    intro b hb
    rcases mem_cons.1 hb with rfl | hb
    · decide
    · exact hs.arr.wellFormed.countText_open b hb
  have hzero : atoi (42 :: a.countText) = 0 :=
    atoi_of_head (by decide) (by decide) (by decide) (by decide)
  rw [enhanceIter_arrayLength hs.parseState]
  rcases enhanceLine_arrived hopen (by rw [length_cons]; omega) h pad
    { s with conn := { s.conn with doneNum := 0 } } 0
    (Enhancer.readCount { s with conn := { s.conn with doneNum := 0 } }) with ⟨heq, hle⟩ | ⟨heq, hlt⟩
  · have hdrop : ((Spot.lost before a after).bytes r).drop ((42 :: a.countText).length + 2) =
        encodes a.elements ++ encodeArrs after := drop_line _ _
    obtain ⟨s', heq', hstate, hvalid, htype, harrays⟩ := Enhancer.readCount_ends
      { s with conn := { s.conn with doneNum := 0 } } (Or.inl hzero) ((42 :: a.countText).length + 2)
    rw [heq, Nat.zero_add, heq']
    exact hs.ends hcuts rfl hdrop Iff.rfl hplain h (Nat.succ_pos _) hle (hstate.trans hs.parseState) hvalid
      htype harrays
  · rw [heq]
    refine .waits _ (.lost before a after) 0 (by omega) ?_ (by simp) ?_ Iff.rfl (List.Subset.refl _)
    · exact ⟨hs.forget rfl rfl rfl, hs.parseState, hs.value, hs.arr⟩
    · simpa [Spot.need] using hlt

/-! #### The elements -/

theorem Filling.push (h : Filling r s before pre after) (e : Element) :
    (∀ f, s.element (elementInfo e) f = f (s.push (elementInfo e))) ∧
      Filling r (s.push (elementInfo e)) before (pre ++ [e]) after := by
  have hlt : s.info.curArrayPos < s.info.arrays.length := by
    rw [h.curArrayPos, h.arrays]
    simp
  refine ⟨fun f => if_pos hlt, ⟨h.valid, h.unparse, h.replyType, h.arraysSize, h.curArrayPos, ?_, h.afterOk⟩⟩
  rw [Enhancer.push, h.curArrayPos, h.arrays, modify_eq_take_drop, take_left' (by simp),
    drop_left' (by simp)]
  simp [infos]

section Push

variable {st : RedisParseState} {e : Element}

theorem Enhancer.Reading.push_more {e' : Element} (h : s.Reading r st before pre (e :: e' :: es) after) :
    (s.push (elementInfo e)).handsOver = false ∧
      (Spot.elem before (pre ++ [e]) e' es after).At r (s.push (elementInfo e)).advance := by
  obtain ⟨-, hfill⟩ := h.push e
  have hmore : (s.push (elementInfo e)).conn.doneNum < (s.push (elementInfo e)).conn.arrayNum := by
    have hnum : (s.push (elementInfo e)).conn.arrayNum = s.conn.arrayNum := rfl
    have hdone : (s.push (elementInfo e)).conn.doneNum = s.conn.doneNum + 1 := rfl
    rw [hnum, hdone, h.arrayNum, h.doneNum]
    push_cast [length_append, length_cons]
    omega
  refine ⟨by simp [Enhancer.handsOver, hmore], ?_⟩
  rw [Enhancer.advance, if_pos hmore]
  refine ⟨hfill.forget rfl rfl rfl, rfl, fun info => ?_, ?_, ?_, ?_⟩
  · rw [h.value]
    simp
  · exact (forall_mem_cons.1 h.todoOk).2
  · have hnum : s.conn.arrayNum = (pre ++ e :: e' :: es).length := h.arrayNum
    simpa [Enhancer.push, Enhancer.enter] using hnum
  · simp [Enhancer.push, Enhancer.enter, h.doneNum]

theorem Enhancer.Reading.push_last (h : s.Reading r st before pre [e] after) :
    ¬ (s.push (elementInfo e)).conn.doneNum < (s.push (elementInfo e)).conn.arrayNum := by
  have hnum : (s.push (elementInfo e)).conn.arrayNum = s.conn.arrayNum := rfl
  have hdone : (s.push (elementInfo e)).conn.doneNum = s.conn.doneNum + 1 := rfl
  rw [hnum, hdone, h.arrayNum, h.doneNum]
  push_cast [length_append, length_singleton]
  omega

theorem Enhancer.Reading.push_done (h : s.Reading r st before pre [e] []) :
    (s.push (elementInfo e)).handsOver = false ∧
      (s.push (elementInfo e)).advance.conn.valid = true ∧
      Holds r (s.push (elementInfo e)).advance.info := by
  obtain ⟨-, hfill⟩ := h.push e
  have hlast := h.push_last
  have hnone : ¬ (s.push (elementInfo e)).info.curArrayPos + 1 < (s.push (elementInfo e)).info.arraysSize := by
    rw [hfill.curArrayPos, hfill.arraysSize]
    simp
  refine ⟨by simp [Enhancer.handsOver, hnone], ?_⟩
  rw [Enhancer.advance, if_neg hlast, if_neg hnone]
  exact ⟨rfl, hfill.replyType, (h.value _).2 hfill.arrays⟩

theorem Enhancer.Reading.push_next (h : s.Reading r st before pre [e] (a :: after)) :
    (s.push (elementInfo e)).handsOver = true ∧
      (s.push (elementInfo e)).advance.Counting r (before ++ [pre ++ [e]]) a after := by
  obtain ⟨-, hfill⟩ := h.push e
  have hlast := h.push_last
  have hnext : (s.push (elementInfo e)).info.curArrayPos + 1 < (s.push (elementInfo e)).info.arraysSize := by
    rw [hfill.curArrayPos, hfill.arraysSize, length_cons]
    omega
  obtain ⟨ha, hafter⟩ := forall_mem_cons.1 hfill.afterOk
  refine ⟨by simp [Enhancer.handsOver, hlast, hnext], ?_⟩
  rw [Enhancer.advance, if_neg hlast, if_pos hnext]
  refine ⟨⟨hfill.valid, hfill.unparse, hfill.replyType, ?_, ?_, ?_, hafter⟩, rfl, fun info => ?_, ha⟩
  · rw [hfill.arraysSize]
    simp
    omega
  · rw [hfill.curArrayPos]
    simp
  · rw [hfill.arrays]
    simp
  · rw [h.value]
    simp

end Push

theorem length_of_drop_eq_nil {bytes : Bytes} {k : ℕ} (h : rest ++ future = bytes) (hle : k ≤ rest.length)
    (hdrop : bytes.drop k = []) : k = rest.length ∧ future = [] := by
  rw [← h, drop_append_of_le_length hle, append_eq_nil_iff, drop_eq_nil_iff] at hdrop
  exact ⟨Nat.le_antisymm hle hdrop.1, hdrop.2⟩

theorem iterated_nil {w : Spot} {k : ℕ} (hrest : rest ++ future = w.bytes r)
    (h : s.Reading r .length before pre (.nil :: es) after)
    (hw : w.Fine r cuts ↔ Steps cuts (.nil :: es) (Smooth cuts after) after)
    (harrays : w.arrays r = after) (hdrop : (w.bytes r).drop k = encodes es ++ encodeArrs after)
    (hpos : 0 < k) (hle : k ≤ rest.length) :
    Iterated r cuts w rest future (.next (s.push (elementInfo .nil)).advance k) := by
  cases es with
  | cons e' es =>
    refine .moves _ (.elem before (pre ++ [Element.nil]) e' es after) k (Or.inl hpos) rfl hle
      h.push_more.2 ?_ ?_ ?_
    · rw [hdrop]
      simp [Spot.bytes]
    · rw [hw]
      cases after <;> simp [Spot.Fine, Steps]
    · rw [harrays]
      exact List.Subset.refl _
  | nil =>
    cases after with
    | nil =>
      obtain ⟨rfl, hfuture⟩ := length_of_drop_eq_nil hrest hle hdrop
      refine .stops _ h.push_done.2.1 ?_
      rw [hw]
      exact iff_of_true trivial ⟨hfuture, h.push_done.2.2⟩
    | cons a after =>
      -- the star of the next array is not passed
      refine .moves _ (.lost (before ++ [pre ++ [Element.nil]]) a after) k (Or.inl hpos) rfl hle
        h.push_next.2 ?_ ?_ ?_
      · rw [hdrop]
        simp [Spot.bytes, Arr.encode]
      · rw [hw]
        simp [Spot.Fine, Steps]
      · rw [harrays]
        exact List.Subset.refl _

theorem enhanceIter_body {len b : Bytes} (hcuts : CutsOf cuts future)
    (hs : (Spot.body before pre len b es after).At r s)
    (h : rest ++ future = (Spot.body before pre len b es after).bytes r) (pad : Bytes) :
    Iterated r cuts (.body before pre len b es after) rest future
      (enhanceIter s (rest ++ 0 :: pad) rest.length) := by
  obtain ⟨hs, hlen⟩ := hs
  have hsmall : b.length ≤ 2 ^ 29 := by
    have hrange := (hs.todoOk _ mem_cons_self).range
    simpa [elementInRange, Element.payload] using hrange
  have hdrop : ((Spot.body before pre len b es after).bytes r).drop (b.length + 2) =
      encodes es ++ encodeArrs after := drop_line _ _
  rw [enhanceIter, hs.parseState]
  simp only
  rw [enhanceString, hlen, if_neg (by omega)]
  by_cases hall : b.length + 2 ≤ rest.length
  · rw [if_pos (by omega), if_neg (by omega)]
    -- the body has arrived, so the bytes taken are the body
    have htake : (rest ++ 0 :: pad).take b.length = b := by
      have h' : (rest ++ future).take b.length = b := by
        rw [h, Spot.bytes, take_left' rfl]
      rw [take_append_of_le_length (by omega)] at h' ⊢
      exact h'
    have helem : (⟨.string, some b, (b.length : ℤ)⟩ : ReplyArrayInfo) = elementInfo (.bulk len b) := rfl
    simp only [Int.toNat_natCast, htake, helem]
    rw [(hs.push _).1]
    cases es with
    | cons e' es =>
      rw [hs.push_more.1, if_neg (by decide)]
      refine .moves _ (.elem before (pre ++ [Element.bulk len b]) e' es after) _ (Or.inl (by omega)) rfl
        hall hs.push_more.2 ?_ ?_ (List.Subset.refl _)
      · rw [hdrop]
        simp [Spot.bytes]
      · cases after <;> simp [Spot.Fine, Steps]
    | nil =>
      cases after with
      | nil =>
        rw [hs.push_done.1, if_neg (by decide)]
        obtain ⟨hlast, hfuture⟩ := length_of_drop_eq_nil h hall hdrop
        rw [hlast]
        exact .stops _ hs.push_done.2.1 (iff_of_true trivial ⟨hfuture, hs.push_done.2.2⟩)
      | cons a after =>
        rw [hs.push_next.1, if_pos rfl]
        have hcut : rest.length + future.length = b.length + 2 + (encodeArrs (a :: after)).length := by
          have hlens := congrArg length h
          simp only [Spot.bytes, length_append, length_crlf, encodes_nil, length_nil] at hlens
          omega
        have hsteps : (Spot.body before pre len b [] (a :: after)).Fine r cuts ↔
            if (encodeArrs (a :: after)).length ∈ cuts then a.elements = [] ∧ Spare cuts after
            else Smooth cuts (a :: after) := by
          simp [Spot.Fine, Steps]
        by_cases hstar : b.length + 3 ≤ rest.length
        · refine .moves _ (.count (before ++ [pre ++ [Element.bulk len b]]) a after) _ (Or.inl (by omega))
            rfl hstar hs.push_next.2 ?_ ?_ (List.Subset.refl _)
          · rw [show b.length + 3 = b.length + 2 + 1 from rfl, ← drop_drop, hdrop]
            simp [Spot.bytes, Arr.encode]
          · have hno : (encodeArrs (a :: after)).length ∉ cuts := fun hmem => by
              have := hcuts.le _ hmem
              omega
            rw [hsteps, if_neg hno]
            rfl
        · -- the star has not come, and the place behind it is lost
          have hfuture : future = encodeArrs (a :: after) := by
            have hback : (rest ++ future).drop rest.length = encodes [] ++ encodeArrs (a :: after) := by
              rw [h, show rest.length = b.length + 2 by omega, hdrop]
            simpa using hback
          have hyes : (encodeArrs (a :: after)).length ∈ cuts := by
            rw [← hfuture]
            refine hcuts.mem ?_
            rw [hfuture]
            simp [Arr.encode]
          rw [show b.length + 3 = rest.length + 1 by omega]
          refine .oversteps _ (.lost (before ++ [pre ++ [Element.bulk len b]]) a after)
            hs.push_next.2 ?_ ?_ (List.Subset.refl _)
          · rw [hfuture]
            simp [Spot.bytes, Arr.encode]
          · rw [hsteps, if_pos hyes]
            rfl
  · rw [if_neg (by omega)]
    refine .waits _ (.body before pre len b es after) 0 (by omega) ⟨?_, hlen⟩ (by simp)
      (by simp only [Spot.need]; omega) Iff.rfl (List.Subset.refl _)
    exact ⟨hs.forget rfl rfl rfl, hs.parseState, hs.value, hs.todoOk, hs.arrayNum, hs.doneNum⟩

theorem iterated_readLength {e : Element} {w : Spot} {rest₁ : Bytes} {k : ℕ}
    (hs : s.Reading r .length before pre (e :: es) after)
    (hw : w.Fine r cuts ↔ Steps cuts (e :: es) (Smooth cuts after) after) (harrays : w.arrays r = after)
    (hdrop : (w.bytes r).drop k = (Spot.lenLine before pre e es after).bytes r)
    (hall : rest ++ future = w.bytes r) (hrest : rest.length = k + rest₁.length)
    (h : rest₁ ++ future = (Spot.lenLine before pre e es after).bytes r) (pad : Bytes) :
    Iterated r cuts w rest future (enhanceLine s (rest₁ ++ 0 :: pad) k s.readLength) := by
  obtain ⟨⟨hwf, hbulk⟩, hrange⟩ := hs.todoOk e mem_cons_self
  have hopen : IsOpen e.lenText ∧ e.lenText.length < 4096 := by
    cases e with
    | line σ text => simp [Element.isBulk] at hbulk
    | bulk len b => exact ⟨hwf.isOpen, hwf.short⟩
    | nil => exact ⟨Arr.WellFormed.countText_open (a := .nil) trivial, by decide⟩
  rcases enhanceLine_arrived hopen.1 hopen.2 h pad s k s.readLength with ⟨heq, hle⟩ | ⟨heq, hlt⟩
  · have hdrop' : (w.bytes r).drop (k + e.lenText.length + 2) =
        e.payload ++ (encodes es ++ encodeArrs after) := by
      rw [Nat.add_assoc, ← drop_drop, hdrop, Spot.bytes, drop_line]
    rw [heq]
    cases e with
    | line σ text => simp [Element.isBulk] at hbulk
    | bulk len b =>
      have hb : b.length < 2 ^ 31 := by
        simp only [elementInRange, Element.payload, length_append, length_crlf] at hrange
        omega
      have hatoi : atoi (Element.bulk len b).lenText = b.length := by
        have := atoi_digits (t := []) hwf.ne_nil hwf.digits (by simp) (by rwa [hwf.val])
        rwa [append_nil, hwf.val] at this
      rw [Enhancer.readLength, if_pos (by omega)]
      refine .moves _ (.body before pre len b es after) _ (Or.inl (by omega)) rfl (by omega) ⟨?_, hatoi⟩ ?_
        hw.symm ?_
      · exact ⟨hs.forget rfl rfl rfl, rfl, hs.value, hs.todoOk, hs.arrayNum, hs.doneNum⟩
      · rw [hdrop']
        simp [Spot.bytes, Element.payload]
      · rw [harrays]
        exact List.Subset.refl _
    | nil =>
      have hatoi : atoi Element.nil.lenText = -1 := by decide
      have hs' : Enhancer.Reading r { s with conn := { s.conn with arrayLen := atoi Element.nil.lenText } }
          .length before pre (.nil :: es) after :=
        ⟨hs.forget rfl rfl rfl, hs.parseState, hs.value, hs.todoOk, hs.arrayNum, hs.doneNum⟩
      have helem : (⟨.nil, none, -1⟩ : ReplyArrayInfo) = elementInfo .nil := rfl
      rw [Enhancer.readLength, if_neg (not_not.2 hatoi), helem, (hs'.push _).1]
      exact iterated_nil hall hs' hw harrays hdrop' (by omega) (by omega)
  · rw [heq]
    refine .waits _ (.lenLine before pre e es after) k (by omega) ⟨?_, rfl⟩ hdrop.symm
      (by simp only [Spot.need]; omega) hw.symm ?_
    · exact ⟨hs.forget rfl rfl rfl, hs.parseState, hs.value, hs.todoOk, hs.arrayNum, hs.doneNum⟩
    · rw [harrays]
      exact List.Subset.refl _

theorem enhanceIter_lenLine {e : Element} (hs : (Spot.lenLine before pre e es after).At r s)
    (h : rest ++ future = (Spot.lenLine before pre e es after).bytes r) (hne : rest ≠ []) (pad : Bytes)
    (n : ℕ) :
    Iterated r cuts (.lenLine before pre e es after) rest future (enhanceIter s (rest ++ 0 :: pad) n) := by
  obtain ⟨hs, hflag⟩ := hs
  obtain ⟨⟨hwf, hbulk⟩, -⟩ := hs.todoOk e mem_cons_self
  have hhead : (rest ++ 0 :: pad).head? ≠ some 36 := by
    obtain ⟨b, rest', rfl⟩ := exists_cons_of_ne_nil hne
    cases e with
    | line σ text => simp [Element.isBulk] at hbulk
    | bulk len b' =>
      obtain ⟨c, len', rfl⟩ := exists_cons_of_ne_nil hwf.ne_nil
      obtain ⟨rfl, -⟩ := cons.inj h
      simpa using isDigit_ne (hwf.digits b (by simp)) (by decide)
    | nil =>
      obtain ⟨rfl, -⟩ := cons.inj h
      simp
  have hit : enhanceIter s (rest ++ 0 :: pad) n = enhanceLine s (rest ++ 0 :: pad) 0 s.readLength := by
    simp only [enhanceIter, hs.parseState, enhanceLength, hflag, hhead, if_false, drop_zero,
      Bool.false_eq_true, false_and]
  rw [hit]
  exact iterated_readLength hs Iff.rfl rfl rfl h (by simp) h pad

theorem enhanceIter_elem {e : Element} (hs : (Spot.elem before pre e es after).At r s)
    (h : rest ++ future = (Spot.elem before pre e es after).bytes r) (hne : rest ≠ []) (pad : Bytes)
    (n : ℕ) :
    Iterated r cuts (.elem before pre e es after) rest future (enhanceIter s (rest ++ 0 :: pad) n) := by
  have hs : s.Reading r .length before pre (e :: es) after := hs
  have hbulk := (hs.todoOk e mem_cons_self).bulk.2
  obtain ⟨b, rest₁, rfl⟩ := exists_cons_of_ne_nil hne
  have hall := h
  rw [Spot.bytes, Element.encode_of_isBulk hbulk] at h
  obtain ⟨rfl, h₁⟩ := cons.inj h
  have hit : enhanceIter s (36 :: rest₁ ++ 0 :: pad) n =
      enhanceLine s (rest₁ ++ 0 :: pad) 1 s.readLength := by
    simp [enhanceIter, hs.parseState, enhanceLength]
  rw [hit]
  refine iterated_readLength hs Iff.rfl rfl ?_ hall (by simp [Nat.add_comm]) (h₁.trans ?_) pad
  · rw [Spot.bytes, Element.encode_of_isBulk hbulk]
    simp [Spot.bytes]
  · simp [Spot.bytes]

/-! #### The header -/

theorem headerEnd_arrived {num later : Bytes} (hnum : IsOpen num)
    (h : rest ++ future = num ++ (crlf ++ later)) :
    (∃ b rest', rest = num ++ (crlf ++ b :: rest') ∧ headerEnd rest = some num.length) ∨
      (rest.length < num.length + 3 ∧ headerEnd rest = none) := by
  induction num generalizing rest with
  | nil =>
    rcases rest with _ | ⟨c, _ | ⟨c', _ | ⟨b, rest⟩⟩⟩
    · exact Or.inr ⟨by simp, rfl⟩
    · exact Or.inr ⟨by simp, by simp [headerEnd]⟩
    · exact Or.inr ⟨by simp, by simp [headerEnd]⟩
    · obtain ⟨rfl, rfl, -⟩ : c = 13 ∧ c' = 10 ∧ b :: (rest ++ future) = later := by simpa [crlf] using h
      exact Or.inl ⟨b, rest, rfl, by simp [headerEnd]⟩
  | cons c num ih =>
    have hopen : IsOpen num := (forall_mem_cons.1 hnum).2
    rcases rest with _ | ⟨c', rest⟩
    · exact Or.inr ⟨by simp, rfl⟩
    · have hrest : rest ++ future = num ++ (crlf ++ later) := (cons.inj h).2
      have hno : ¬ (2 ≤ rest.length ∧ c' = 13 ∧ rest.head? = some 10) := by
        rintro ⟨-, -, hhead⟩
        rcases rest with _ | ⟨d, rest⟩
        · simp at hhead
        · obtain rfl : d = 10 := by simpa using hhead
          rcases num with _ | ⟨d', num⟩
          · simp [crlf] at hrest
          · exact (hopen d' (by simp)).2 (cons.inj hrest).1.symm
      obtain rfl : c' = c := (cons.inj h).1
      rcases ih hopen hrest with ⟨b, rest', rfl, hend⟩ | ⟨hlt, hend⟩
      · exact Or.inl ⟨b, rest', rfl, by rw [headerEnd, if_neg hno, hend]; rfl⟩
      · exact Or.inr ⟨by simp only [length_cons]; omega, by rw [headerEnd, if_neg hno, hend]; rfl⟩

structure HasHeader (r : NestedReply) : Prop where
  encode : r.encode = 42 :: (headerText r ++ (crlf ++ behindHeader r))
  wellFormed : r.WellFormed
  range : InRange r

theorem HasHeader.text_open (h : HasHeader r) : IsOpen (headerText r) ∧ (headerText r).length < 4096 := by
  have hwf := h.wellFormed
  cases r with
  | array a =>
    have := h.range.1
    exact ⟨hwf.countText_open, by simp only [headerText]; omega⟩
  | nested num arrs => exact ⟨hwf.1.isOpen, hwf.1.short⟩
  | _ => exact ⟨fun b hb => absurd hb (by simp [headerText]), by simp [headerText]⟩

theorem readHeader_at (hr : HasHeader r) (st : RedisParseState)
    (h : rest ++ future = headerText r ++ (crlf ++ behindHeader r)) (pad : Bytes) (k : ℕ) :
    (∃ (s' : Enhancer) (w' : Spot), readHeader ⟨{ parseState := st }, {}, false⟩ (rest ++ 0 :: pad) rest.length k =
        .next s' (k + (headerText r).length + 3) ∧ (headerText r).length + 3 ≤ rest.length ∧
      w'.extra = 0 ∧ w'.At r s' ∧ w'.bytes r = r.encode.drop ((headerText r).length + 4) ∧
      (w'.Fine r cuts ↔ Shape cuts r) ∧ w'.arrays r ⊆ nestedArrays r) ∨
    (readHeader ⟨{ parseState := st }, {}, false⟩ (rest ++ 0 :: pad) rest.length k =
        .checkBuf ⟨{ parseState := .checkArraysSize }, {}, false⟩ k ∧
      rest.length < (headerText r).length + 3) := by
  have hmem : (rest ++ 0 :: pad).take rest.length = rest := by simp
  rw [readHeader, hmem]
  rcases headerEnd_arrived hr.text_open.1 h with ⟨b, rest', rfl, hend⟩ | ⟨hlt, hend⟩
  · left
    have hb : ∃ later, behindHeader r = b :: later := by
      rw [append_assoc, append_assoc] at h
      exact ⟨rest' ++ future, (append_cancel_left (append_cancel_left h)).symm⟩
    have hbyte : ((headerText r ++ (crlf ++ b :: rest') ++ 0 :: pad).drop
        ((headerText r).length + 2)).head? = some b := by
      rw [append_assoc, append_assoc, drop_line]
      rfl
    have htake : (headerText r ++ (crlf ++ b :: rest') ++ 0 :: pad).take (headerText r).length =
        headerText r := by
      rw [append_assoc, take_left]
    have hle : (headerText r).length + 3 ≤ (headerText r ++ (crlf ++ b :: rest')).length := by
      simp
      omega
    have hdrop : r.encode.drop ((headerText r).length + 4) = (behindHeader r).drop 1 := by
      rw [hr.encode, drop_succ_cons]
      exact (drop_drop (i := 1)).symm.trans (congrArg (drop 1) (drop_line _ _))
    simp only [hend, hbyte, htake]
    obtain ⟨later, hlater⟩ := hb
    cases r with
    | array a =>
      have hok : ArrOk a := ⟨hr.wellFormed, hr.range⟩
      have hne : a.elements ≠ [] := by
        intro hnil
        simp [behindHeader, hnil] at hlater
      obtain ⟨e, es, hes⟩ := exists_cons_of_ne_nil hne
      have he : ElementOk e := hok.element (by simp [hes])
      have henc := Element.encode_of_isBulk he.bulk.2
      have hatoi : atoi a.countText = a.elements.length := by
        rcases hok.atoi_countText with ⟨hnil, -⟩ | ⟨-, h⟩
        · exact absurd hnil hne
        · exact h
      obtain rfl : b = 36 := by
        rw [behindHeader, hes, encodes_cons, henc] at hlater
        exact (cons.inj hlater).1.symm
      rw [if_neg (by decide)]
      refine ⟨_, .lenLine [] [] e es [], rfl, hle, rfl, ⟨?_, rfl⟩, ?_, ?_, by simp [Spot.arrays]⟩
      · refine ⟨⟨rfl, rfl, rfl, rfl, rfl, rfl, by simp⟩, rfl, fun info => ?_, fun x hx => ?_, ?_, rfl⟩
        · simp [NestedValue, NestedReply.lists, hes]
        · exact hok.element (hes ▸ hx)
        · rw [nil_append, ← hes]
          exact hatoi
      · rw [hdrop, behindHeader, hes, encodes_cons, henc]
        simp [Spot.bytes]
      · simp [Spot.Fine, Steps, Shape, hne]
    | nested num arrs =>
      obtain ⟨hnum, hne, harrs⟩ := hr.wellFormed
      obtain ⟨a, after, rfl⟩ := exists_cons_of_ne_nil hne
      have hok : ∀ x ∈ a :: after, ArrOk x := fun x hx => ⟨harrs x hx, hr.range.2 x hx⟩
      have hatoi : atoi num = (a :: after).length := by
        have := atoi_digits (t := []) hnum.ne_nil hnum.digits (by simp)
          (by rw [hnum.val]; exact hr.range.1)
        rwa [append_nil, hnum.val] at this
      obtain rfl : b = 42 := (cons.inj hlater).1.symm
      rw [if_pos rfl]
      simp only [headerText, hatoi]
      rw [if_neg (by omega), Int.toNat_natCast]
      refine ⟨_, .count [] a after, rfl, hle, rfl, ?_, ?_, Iff.rfl, List.Subset.refl _⟩
      · refine ⟨⟨rfl, rfl, rfl, ?_, rfl, ?_, (forall_mem_cons.1 hok).2⟩, rfl, fun info => ?_,
          (forall_mem_cons.1 hok).1⟩
        · simp [CommonReplyInfo.resize, Enhancer.enter]
          omega
        · simp [CommonReplyInfo.resize, Enhancer.enter, replicate_succ]
        · simp [NestedValue, NestedReply.lists, Function.comp_def]
      · rw [show num.length + 4 = (headerText (.nested num (a :: after))).length + 4 from rfl, hdrop]
        simp [Spot.bytes, behindHeader, Arr.encode]
    | _ => simp [behindHeader] at hlater
  · right
    simp only [hend, true_and]
    exact hlt

/-! #### Any place -/

theorem enhanceIter_header (hr : HasHeader r) (hs : Spot.header.At r s)
    (h : rest ++ future = Spot.header.bytes r) (pad : Bytes) :
    Iterated r cuts .header rest future (enhanceIter s (rest ++ 0 :: pad) rest.length) := by
  obtain ⟨rfl, -⟩ := id hs
  have htail : r.encode.tail = headerText r ++ (crlf ++ behindHeader r) := by rw [hr.encode]; rfl
  have hit : enhanceIter ⟨{ parseState := .checkArraysSize }, {}, false⟩ (rest ++ 0 :: pad) rest.length =
      readHeader ⟨{ parseState := .checkArraysSize }, {}, false⟩ (rest ++ 0 :: pad) rest.length 0 := rfl
  rw [Spot.bytes, htail] at h
  rw [hit]
  rcases readHeader_at hr .checkArraysSize h pad 0 with
    ⟨s', w', heq, hle, hextra, hat, hbytes, hfine, harrays⟩ | ⟨heq, hlt⟩
  · rw [heq, Nat.zero_add]
    refine .moves s' w' _ (Or.inl (by omega)) hextra hle hat ?_ hfine harrays
    rw [hbytes, Spot.bytes, drop_tail]
  · rw [heq]
    exact .waits _ .header 0 (by omega) hs (by simp) hlt Iff.rfl (List.Subset.refl _)

theorem enhanceIter_line {text : Bytes} (hwf : r.WellFormed) (hrange : InRange r)
    (hs : (Spot.line text).At r s) (h : rest ++ future = (Spot.line text).bytes r) (pad : Bytes) (n : ℕ) :
    Iterated r cuts (.line text) rest future (enhanceIter s (rest ++ 0 :: pad) n) := by
  have hopen : ∀ {t : Bytes}, (∀ b ∈ t, b ≠ 10 ∧ b ≠ 13) → 0 ∉ t → IsOpen t := fun ht h0 b hb =>
    ⟨fun hzero => h0 (hzero ▸ hb), (ht b hb).1⟩
  have hcons : ∀ {c : UInt8} {t : Bytes}, c ≠ 0 ∧ c ≠ 10 → IsOpen t → IsOpen (c :: t) := fun hc ht =>
    forall_mem_cons.2 ⟨hc, ht⟩
  -- the line is complete exactly if all of the reply has come
  have hline : IsOpen text → text.length < 4096 → ∀ f : Bytes → ℕ → EnhanceIter,
      enhanceIter s (rest ++ 0 :: pad) n = enhanceLine s (rest ++ 0 :: pad) 0 f →
      (rest.length = text.length + 2 → future = [] → Iterated r cuts (.line text) rest future (f text rest.length)) →
      (Spot.line text).At r { s with haveArray := false } →
      Iterated r cuts (.line text) rest future (enhanceIter s (rest ++ 0 :: pad) n) := by
    intro htext hshort f hit hfound hat
    rw [hit]
    rcases enhanceLine_arrived htext hshort h pad s 0 f with ⟨heq, hle⟩ | ⟨heq, hlt⟩
    · have hlen := congrArg length h
      simp only [Spot.bytes, length_append, length_crlf, length_nil] at hlen
      have hfuture : future = [] := length_eq_zero_iff.1 (by omega)
      rw [heq, show 0 + text.length + 2 = rest.length by omega]
      exact hfound (by omega) hfuture
    · rw [heq]
      exact .waits _ (.line text) 0 (by omega) hat (by simp) hlt Iff.rfl (List.Subset.refl _)
  cases hs with
  | int t =>
    have hzero : atoi (58 :: t) = 0 := atoi_of_head (by decide) (by decide) (by decide) (by decide)
    have hshort : t.length < 4095 := hrange
    refine hline (hcons (by decide) hwf.isOpen) (by rw [length_cons]; omega)
      (fun line k => .next (Enhancer.finish
        ⟨{ parseState := .integer }, { replyType := .integer, intValue := atoi line }, false⟩) k) rfl
      (fun _ hfuture => ?_) (.int t)
    refine .stops _ rfl ?_
    simp [Spot.Fine, Shape, Holds, NestedValue, nestedType, Enhancer.finish, hfuture, hzero, eq_comm]
  | status t =>
    have hshort := hrange.1
    refine hline (hcons (by decide) (hopen hwf hrange.2)) (by rw [length_cons]; omega)
      (fun line _ => .ret (Enhancer.finish
        ⟨{ parseState := .resultOk }, { replyType := .status, resultString := line }, false⟩)) rfl
      (fun _ _ => ?_) (.status t)
    refine .returns _ rfl ?_
    simp [Spot.Fine, Shape, Holds, NestedValue, Enhancer.finish]
  | error =>
    have hshort := hrange.1
    refine hline (hopen hwf hrange.2) (by omega)
      (fun line _ => .ret (Enhancer.finish
        ⟨{ parseState := .resultErr }, { replyType := .error, resultString := line }, false⟩)) rfl
      (fun _ hfuture => ?_) (.error text)
    refine .returns _ rfl ?_
    simp [Spot.Fine, Shape, Holds, NestedValue, nestedType, Enhancer.finish, hfuture]

theorem enhanceIter_start (hwf : r.WellFormed) (hrange : InRange r) (hs : Spot.start.At r s)
    (h : rest ++ future = Spot.start.bytes r) (hne : rest ≠ []) (pad : Bytes) :
    Iterated r cuts .start rest future (enhanceIter s (rest ++ 0 :: pad) rest.length) := by
  obtain rfl := hs
  obtain ⟨b, rest, rfl⟩ := exists_cons_of_ne_nil hne
  -- an array or an array of arrays
  have hstar : HasHeader r → Iterated r cuts .start (b :: rest) future
      (enhanceIter ⟨{ parseState := .type }, {}, false⟩ (b :: rest ++ 0 :: pad) (b :: rest).length) := by
    intro hr
    rw [Spot.bytes, hr.encode] at h
    obtain ⟨rfl, h'⟩ := cons.inj h
    have hit : enhanceIter ⟨{ parseState := .type }, {}, false⟩ (42 :: rest ++ 0 :: pad) (42 :: rest).length =
        readHeader ⟨{ parseState := .type }, {}, false⟩ (rest ++ 0 :: pad) rest.length 1 := rfl
    rw [hit]
    rcases readHeader_at hr .type h' pad 1 with
      ⟨s', w', heq, hle, hextra, hat, hbytes, hfine, harrays⟩ | ⟨heq, hlt⟩
    · rw [heq]
      refine .moves s' w' _ (Or.inl (by omega)) hextra (by simp only [length_cons]; omega) hat ?_ hfine harrays
      rw [hbytes, Spot.bytes]
      congr 1
      omega
    · rw [heq]
      refine .waits _ .header 1 (by simp) ⟨rfl, hr.encode⟩ ?_ (by simpa [Spot.need] using hlt) Iff.rfl
        (List.Subset.refl _)
      simp [Spot.bytes]
  cases r with
  | int t =>
    obtain ⟨rfl, -⟩ := cons.inj h
    refine .moves _ (.line (58 :: t)) 0 (Or.inr rfl) rfl (by simp) (.int t) ?_ Iff.rfl (by simp [Spot.arrays])
    simp [Spot.bytes, NestedReply.encode]
  | status t =>
    obtain ⟨rfl, -⟩ := cons.inj h
    refine .moves _ (.line (43 :: t)) 0 (Or.inr rfl) rfl (by simp) (.status t) ?_ Iff.rfl
      (by simp [Spot.arrays])
    simp [Spot.bytes, NestedReply.encode]
  | error t =>
    obtain ⟨rfl, -⟩ := cons.inj h
    refine .moves _ (.line t) 1 (Or.inl (by decide)) rfl (by simp) (.error t) ?_ Iff.rfl (by simp [Spot.arrays])
    simp [Spot.bytes, NestedReply.encode]
  | bulk e =>
    have henc := Element.encode_of_isBulk hwf.2
    obtain ⟨rfl, -⟩ := cons.inj (h.trans henc)
    refine .moves _ (.elem [] [] e [] []) 0 (Or.inr rfl) rfl (by simp) ?_ ?_ ?_ (by simp [Spot.arrays])
    · refine ⟨⟨rfl, rfl, rfl, rfl, rfl, rfl, by simp⟩, rfl, fun info => Iff.rfl, ?_, rfl, rfl⟩
      intro x hx
      obtain rfl := mem_singleton.1 hx
      exact ⟨hwf, hrange⟩
    · simp [Spot.bytes, NestedReply.encode]
    · simp [Spot.Fine, Steps, Shape]
  | array a => exact hstar ⟨rfl, hwf, hrange⟩
  | nested num arrs => exact hstar ⟨rfl, hwf, hrange⟩

theorem enhanceIter_at {w : Spot} (hwf : r.WellFormed) (hrange : InRange r) (hcuts : CutsOf cuts future)
    (hplain : (∀ x ∈ w.arrays r, ∀ e ∈ x.elements, e.DigitFree) ∨ w.Fine r cuts) (hs : w.At r s)
    (h : rest ++ future = w.bytes r) (hne : rest ≠ []) (pad : Bytes) :
    Iterated r cuts w rest future (enhanceIter s (rest ++ 0 :: pad) rest.length) := by
  cases w with
  | start => exact enhanceIter_start hwf hrange hs h hne pad
  | line text => exact enhanceIter_line hwf hrange hs h pad _
  | header => exact enhanceIter_header ⟨hs.2, hwf, hrange⟩ hs h pad
  | count before a after => exact enhanceIter_count hs hcuts hplain h pad _
  | elem before pre e es after => exact enhanceIter_elem hs h hne pad _
  | lenLine before pre e es after => exact enhanceIter_lenLine hs h hne pad _
  | body before pre len b es after => exact enhanceIter_body hcuts hs h pad
  | lost before a after => exact enhanceIter_lost hs hcuts hplain h pad _

end Places

end GBDownLinker
