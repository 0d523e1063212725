/-
**Receiving a reply in pieces.**

The cuts between reads that change what `RedisConnection::recv` makes of a reply: one behind the header of an
array, if a line of the array ends behind it; and one inside the body of a bulk string, if the bytes of the body
received by the end of the next read are `2 ^ 30` or more.  Every other cut is harmless.
-/

import BackendProgramming.RedisParse

set_option autoImplicit false

namespace GBDownLinker

open CText Resp List Option

/-! ### Harmless cuts -/

def cutOk (h o c k : ℕ) : Element → Prop
  | .line _ text => c < h ∨ o + text.length + 3 ≤ c
  | .bulk len b => c ≤ o + len.length + 3 ∨ o + len.length + b.length + 5 ≤ c ∨
      c + k < o + len.length + 3 + 2 ^ 30
  | .nil => True

def SafeAt (r : Reply) (c k : ℕ) : Prop :=
  ∀ pre e es, r.elements = pre ++ e :: es →
    cutOk r.headLen (r.headLen + (encodes pre).length) c k e

def SafeFrom (r : Reply) (c : ℕ) : List Bytes → Prop
  | [] => True
  | d :: ds => SafeAt r c d.length ∧ SafeFrom r (c + d.length) ds

def SafeCuts (r : Reply) (reads : List Bytes) : Prop := SafeFrom r 0 reads

def IsRead (d : Bytes) : Prop := d ≠ [] ∧ d.length < readBuffSize

/-! ### One turn of the loop -/

def Fits (mallocLen : ℕ) (tail : Bytes) : Prop :=
  ∃ k, 12 ≤ k ∧ k ≤ 30 ∧ mallocLen = 2 ^ k ∧ tail.length < mallocLen

theorem Fits.bounds {m : ℕ} {tail : Bytes} (h : Fits m tail) : 4096 ≤ m ∧ m ≤ 2 ^ 30 := by
  obtain ⟨k, h₁, h₂, rfl, -⟩ := h
  exact ⟨Nat.pow_le_pow_right (n := 2) (by decide) h₁, Nat.pow_le_pow_right (by decide) h₂⟩

theorem Fits.eq_or_le {m : ℕ} {tail : Bytes} (h : Fits m tail) : m = 2 ^ 30 ∨ m ≤ 2 ^ 29 := by
  obtain ⟨k, h₁, h₂, rfl, -⟩ := h
  rcases Nat.eq_or_lt_of_le h₂ with rfl | hlt
  · exact Or.inl rfl
  · exact Or.inr (Nat.pow_le_pow_right (by decide) (by omega))

theorem Fits.double {m : ℕ} {tail : Bytes} (h : Fits m tail) (hm : m ≤ 2 ^ 29) :
    ∃ k, 12 ≤ k ∧ k ≤ 30 ∧ m * 2 = 2 ^ k := by
  obtain ⟨k, h₁, h₂, rfl, -⟩ := h
  have hk : k ≤ 29 := (Nat.pow_le_pow_iff_right (by decide)).1 hm
  exact ⟨k + 1, by omega, by omega, (Nat.pow_succ 2 k).symm⟩

variable {rc : Receiver}

theorem Fits.bufLen {k : ℕ} (hfits : Fits rc.mallocLen rc.conn.unparseBuf)
    (hk : k < readBuffSize)
    (hsmall : rc.conn.unparseBuf ≠ [] → rc.conn.unparseBuf.length + k < 2 ^ 30) :
    (∃ j, 12 ≤ j ∧ j ≤ 30 ∧ rc.bufLen k = 2 ^ j) ∧
      rc.conn.unparseBuf.length + k < rc.bufLen k := by
  obtain ⟨hlo, -⟩ := hfits.bounds
  obtain ⟨j, hj₁, hj₂, hj, hlt⟩ := id hfits
  have hbuf : readBuffSize = 4096 := rfl
  unfold Receiver.bufLen
  split
  · rename_i hdbl
    have hm : rc.mallocLen ≤ 2 ^ 29 := by
      have := hsmall hdbl.1
      rcases hfits.eq_or_le with h | h <;> omega
    exact ⟨hfits.double hm, by omega⟩
  · rename_i hdbl
    refine ⟨⟨j, hj₁, hj₂, hj⟩, ?_⟩
    by_contra hge
    refine hdbl ⟨fun hnil => ?_, by omega⟩
    rw [hnil, length_nil] at hge
    omega

theorem Fits.buffer (rc : Receiver) (d : Bytes) (hfits : Fits rc.mallocLen rc.conn.unparseBuf)
    (hd : d.length < readBuffSize)
    (hsmall : rc.conn.unparseBuf ≠ [] → rc.conn.unparseBuf.length + d.length < 2 ^ 30) :
    ¬ (2 ^ 31 ≤ rc.bufLen d.length ∨
        rc.bufLen d.length < rc.conn.unparseBuf.length + d.length) ∧
      (∃ pad, replicate (rc.bufLen d.length - (rc.conn.unparseBuf.length + d.length)) 0 =
        (0 : UInt8) :: pad) ∧
      ∀ tail : Bytes, tail.length ≤ (rc.conn.unparseBuf ++ d).length →
        Fits (rc.bufLen d.length) tail := by
  obtain ⟨hpow, hroom⟩ := hfits.bufLen hd hsmall
  have hmle : rc.bufLen d.length ≤ 2 ^ 30 := by
    obtain ⟨k, -, hk, h⟩ := hpow
    rw [h]
    exact Nat.pow_le_pow_right (by decide) hk
  refine ⟨by omega, ?_, ?_⟩
  · obtain ⟨j, hj⟩ := Nat.exists_eq_succ_of_ne_zero (Nat.sub_pos_of_lt hroom).ne'
    exact ⟨replicate j 0, by rw [hj, replicate_succ]⟩
  · intro tail htail
    obtain ⟨k, hk₁, hk₂, hk⟩ := hpow
    rw [length_append] at htail
    exact ⟨k, hk₁, hk₂, hk, by omega⟩

variable {d : Bytes}

theorem recvStep_eq (hfits : Fits rc.mallocLen rc.conn.unparseBuf)
    (hd : d.length < readBuffSize)
    (hsmall : rc.conn.unparseBuf ≠ [] → rc.conn.unparseBuf.length + d.length < 2 ^ 30) :
    ∃ m pad, (∀ tail : Bytes, tail.length ≤ (rc.conn.unparseBuf ++ d).length → Fits m tail) ∧
      recvStep rc d = (parse { rc.conn with unparseBuf := [] } rc.info
        ((rc.conn.unparseBuf ++ d) ++ 0 :: pad) (rc.conn.unparseBuf ++ d).length).map
          fun x => ⟨x.1, x.2, m⟩ := by
  obtain ⟨hsize, ⟨pad, hpad⟩, hm⟩ := Fits.buffer rc d hfits hd hsmall
  refine ⟨_, pad, hm, ?_⟩
  rw [recvStep, if_neg hsize, hpad, length_append]

theorem recvStep_overflow
    (hfits : Fits rc.mallocLen rc.conn.unparseBuf) (hd : d.length < readBuffSize)
    (hne : rc.conn.unparseBuf ≠ []) (hbig : 2 ^ 30 ≤ rc.conn.unparseBuf.length + d.length) :
    recvStep rc d = none := by
  have hbuf : readBuffSize = 4096 := rfl
  obtain ⟨k, -, -, -, hlt⟩ := id hfits
  have hm : rc.mallocLen = 2 ^ 30 := by
    rcases hfits.eq_or_le with h | h <;> omega
  have hdbl : rc.bufLen d.length = rc.mallocLen * 2 := if_pos ⟨hne, by omega⟩
  rw [recvStep, if_pos (by omega)]

variable {w : Work}

theorem At.awake {r : Reply} {s : Parser} (h : At r s w) (hw : w ≠ .done) :
    s.conn.parseState ≠ .unknownState := by
  cases w with
  | start =>
    have hs : s = ⟨{ parseState := .type }, {}, false⟩ := h
    simp [hs]
  | result text => simp [h.2.conn]
  | integer text => simp [h.2.conn]
  | count num => simp [h.2.conn]
  | elems pre e es => simp [h.2.parseState]
  | lenLine pre e es => simp [h.2.2.2.parseState]
  | body pre len b es => simp [h.2.2.parseState]
  | done => exact absurd rfl hw

inductive Turn (r : Reply) (w : Work) (future : Bytes) : Option Receiver → Prop
  | rests (rc : Receiver) (w' : Work) (tail : Bytes) (h : Rests r rc.conn rc.info w' tail)
      (hfits : Fits rc.mallocLen tail) (hbytes : tail ++ future = w'.bytes r)
      (hexp : w.Exposed → w'.Exposed) : Turn r w future (some rc)
  | derails (rc : Receiver) (hexp : w.Exposed) (h : Derailed r rc.conn rc.info) :
      Turn r w future (some rc)
  | faults (hexp : w.Exposed) : Turn r w future none

variable {future : Bytes}

theorem recvStep_at {r : Reply} (hr : r.WellFormed) (hcolon : r.ColonLines) (hnul : 0 ∉ r.text)
    (hlen : r.encode.length < 2 ^ 31) {tail : Bytes}
    (hw : w ≠ .done) (h : Rests r rc.conn rc.info w tail) (hfits : Fits rc.mallocLen tail)
    (hd : d.length < readBuffSize) (hbytes : tail ++ (d ++ future) = w.bytes r)
    (hsmall : tail ≠ [] → tail.length + d.length < 2 ^ 30) :
    Turn r w future (recvStep rc d) := by
  obtain rfl := h.unparse hw
  obtain ⟨m, pad, hm, heq⟩ := recvStep_eq hfits hd hsmall
  have hcall := parseLoop_at hr hcolon hnul hlen pad _ h.place
    ((append_assoc _ _ _).trans hbytes) (le_refl (rc.conn.unparseBuf ++ d).length)
  rw [heq, parse, if_neg (h.place.awake hw), Option.map_map]
  generalize parseLoop (rc.conn.unparseBuf ++ d).length _ _ _ = o at hcall
  cases hcall with
  | rests s' w' tail h' hle hb hexp =>
    exact .rests _ w' tail h' (hm tail hle) hb fun he => hexp ⟨rfl, he⟩
  | derails s' hlost hd => exact .derails _ hlost.2 hd
  | faults hlost => exact .faults hlost.2

theorem recvStep_some {rc' : Receiver} (h : recvStep rc d = some rc') :
    ∃ pad, parse { rc.conn with unparseBuf := [] } rc.info (rc.conn.unparseBuf ++ d ++ pad)
      (rc.conn.unparseBuf.length + d.length) = some (rc'.conn, rc'.info) := by
  rw [recvStep] at h
  split at h
  · cases h
  · obtain ⟨x, hx, rfl⟩ := map_eq_some_iff.1 h
    exact ⟨_, hx⟩

theorem recvLoop_invariant {I : Receiver → Prop}
    (hstep : ∀ {rc rc' d}, I rc → recvStep rc d = some rc' → I rc') (reads : List Bytes)
    {x : Bool × RedisReplyInfo × List Bytes} (hrc : I rc) (h : recvLoop rc reads = some x) :
    ∃ rc', I rc' ∧ x.2.1 = rc'.info ∧ x.2.2 <:+ reads := by
  induction reads generalizing rc with
  | nil =>
    cases h
    exact ⟨rc, hrc, rfl, suffix_refl _⟩
  | cons d ds ih =>
    rw [recvLoop] at h
    split at h
    · cases h
      exact ⟨rc, hrc, rfl, suffix_refl _⟩
    · obtain ⟨rc₁, hrc₁, hloop⟩ := bind_eq_some_iff.1 h
      obtain ⟨rc', hI, hinfo, hsuffix⟩ := ih (hstep hrc hrc₁) hloop
      exact ⟨rc', hI, hinfo, hsuffix.trans (suffix_cons _ _)⟩

theorem recvStep_derailed {r : Reply} {rc' : Receiver}
    (h : Derailed r rc.conn rc.info) (hstep : recvStep rc d = some rc') :
    Derailed r rc'.conn rc'.info := by
  obtain ⟨pad, hx⟩ := recvStep_some hstep
  obtain ⟨s, hs, heq⟩ := map_eq_some_iff.1 hx
  obtain ⟨hconn, hinfo⟩ := Prod.mk.inj heq
  rw [← hconn, ← hinfo]
  refine parseLoop_derailed _ ?_ hs
  obtain ⟨i, y, hy, hne, hread | ⟨hi, hstate, hl, hv⟩⟩ := h
  · exact ⟨i, y, hy, hne, Or.inl hread⟩
  · refine ⟨i, y, hy, hne, Or.inr ?_⟩
    rw [if_neg (by simp [hstate])]
    exact ⟨hi, hstate, hl, hv⟩

theorem recvLoop_derailed {r : Reply} (reads : List Bytes)
    (h : Derailed r rc.conn rc.info) :
    (recvLoop rc reads).map (fun x => x.2.1) ≠ some (replyInfo r) := by
  intro heq
  obtain ⟨x, hx, hinfo⟩ := map_eq_some_iff.1 heq
  obtain ⟨rc', hderailed, hlast, -⟩ :=
    recvLoop_invariant (I := fun rc => Derailed r rc.conn rc.info) recvStep_derailed reads h hx
  exact hderailed.info_ne (hlast ▸ hinfo)

/-! ### Where a cut lies -/

structure Inside (r : Reply) (w : Work) (tail : Bytes) (c : ℕ) (pre : List Element) (e : Element)
    (es : List Element) : Prop where
  elements : r.elements = pre ++ e :: es
  le : r.headLen + (encodes pre).length ≤ c
  lt : c < r.headLen + (encodes pre).length + e.encode.length
  exposed : w.Exposed ↔ ∃ x ∈ e :: es, x.isBulk = false
  body : (∃ len b, e = .bulk len b ∧
      c = r.headLen + (encodes pre).length + len.length + 3 + tail.length) ∨
    (tail.length < 4098 ∧
      ∀ len b, e = .bulk len b → c ≤ r.headLen + (encodes pre).length + len.length + 3)

variable {c : ℕ}

theorem safeAt_of_lt_headLen {r : Reply} (k : ℕ)
    (h : ∀ e ∈ r.elements, e.isBulk = true ∨ c < r.headLen) (hc : c ≤ r.headLen) :
    SafeAt r c k := by
  intro pre e es hel
  cases e with
  | line σ text =>
    rcases h (.line σ text) (by simp [hel]) with h | h
    · simp [Element.isBulk] at h
    · exact Or.inl h
  | bulk len b => exact Or.inl (by omega)
  | nil => trivial

theorem inside_elems {r : Reply} {pre es : List Element} {e : Element} {tail : Bytes}
    (hr : r.WellFormed) (hel : r.elements = pre ++ e :: es)
    (hneed : tail.length < (Work.elems pre e es).need)
    (hc : c + ((Work.elems pre e es).bytes r).length = r.encode.length + tail.length) :
    Inside r (.elems pre e es) tail c pre e es := by
  have henc := Reply.length_encode hel
  have hwf : e.WellFormed := hr.element (by simp [hel])
  have hpos := e.three_le_length_encode
  simp only [Work.bytes, length_append] at hc
  refine ⟨hel, by omega, ?_, by simp [Work.Exposed, Work.todo], Or.inr ?_⟩
  · simp only [Work.need] at hneed
    split at hneed <;> omega
  · cases e with
    | line σ text =>
      have := hwf.1.1
      simp only [Work.need, Element.isBulk, Element.encode, length_cons, length_append,
        length_crlf, Bool.false_eq_true, if_false] at hneed
      exact ⟨by omega, fun len b h => by simp at h⟩
    | bulk len b =>
      simp only [Work.need, Element.isBulk, if_true] at hneed
      refine ⟨by omega, fun len' b' h => ?_⟩
      obtain ⟨rfl, rfl⟩ := Element.bulk.inj h
      omega
    | nil =>
      simp only [Work.need, Element.isBulk, if_true] at hneed
      exact ⟨by omega, fun len b h => by simp at h⟩

theorem inside_lenLine {r : Reply} {pre es : List Element} {e : Element} {tail : Bytes}
    (hr : r.WellFormed) (hel : r.elements = pre ++ e :: es) (he : e.isBulk = true)
    (hneed : tail.length < (Work.lenLine pre e es).need)
    (hc : c + ((Work.lenLine pre e es).bytes r).length = r.encode.length + tail.length) :
    Inside r (.lenLine pre e es) tail c pre e es := by
  have henc := Reply.length_encode hel
  have hwf : e.WellFormed := hr.element (by simp [hel])
  have hsize : e.encode.length = e.lenText.length + 3 + e.payload.length := by
    rw [Element.encode_of_isBulk he]
    simp only [length_cons, length_append, length_crlf]
    omega
  simp only [Work.bytes, Work.need, length_append, length_crlf] at hc hneed
  refine ⟨hel, by omega, by omega, by simp [Work.Exposed, Work.todo, he], Or.inr ⟨?_, ?_⟩⟩
  · cases e with
    | line σ text => simp [Element.isBulk] at he
    | bulk len b =>
      have := hwf.short
      simp only [Element.lenText] at hneed
      omega
    | nil =>
      simp only [Element.lenText, length_cons, length_nil] at hneed
      omega
  · rintro len b rfl
    simp only [Element.lenText] at hneed hsize hc
    omega

theorem At.inside {r : Reply} {s : Parser} {tail : Bytes} (hr : r.WellFormed)
    (hs : At r s w) (hneed : tail.length < w.need)
    (hc : c + (w.bytes r).length = r.encode.length + tail.length) :
    (∃ pre e es, Inside r w tail c pre e es) ∨
      (¬ w.Exposed ∧ tail.length < 4098 ∧ ∀ k, SafeAt r c k) := by
  cases w with
  | start =>
    have ht : tail.length = 0 := by simpa [Work.need] using hneed
    have hc0 : c = 0 := by
      simp only [Work.bytes] at hc
      omega
    refine Or.inr ⟨by simp [Work.Exposed, Work.todo], by omega, fun k => ?_⟩
    refine safeAt_of_lt_headLen k (fun e he => ?_) (by omega)
    cases r with
    | single e' => exact Or.inl ((mem_singleton.1 he) ▸ hr.2)
    | array num elems => exact Or.inr (by simp [hc0, Reply.headLen])
    | _ => simp [Reply.elements] at he
  | result text =>
    obtain ⟨hrt, -⟩ := hs
    have hline : IsLine text := by rcases hrt with rfl | rfl <;> exact hr
    have hel : r.elements = [] := by rcases hrt with rfl | rfl <;> rfl
    have := hline.1
    refine Or.inr ⟨by simp [Work.Exposed, Work.todo], by simp only [Work.need] at hneed; omega, ?_⟩
    intro k pre e es h
    simp [hel] at h
  | integer text =>
    obtain ⟨rfl, -⟩ := hs
    have := hr.1.1
    refine Or.inr ⟨by simp [Work.Exposed, Work.todo], by simp only [Work.need] at hneed; omega, ?_⟩
    intro k pre e es h
    simp [Reply.elements] at h
  | count num =>
    obtain ⟨⟨elems, rfl⟩, -⟩ := hs
    have hshort := hr.1.short
    have hlt : c < (Reply.array num elems).headLen := by
      simp only [Work.bytes, Work.need, Reply.encode, Reply.elements, Reply.headLen,
        length_append, length_cons, length_crlf] at hc hneed ⊢
      omega
    refine Or.inr ⟨by simp [Work.Exposed, Work.todo], by simp only [Work.need] at hneed; omega, ?_⟩
    exact fun k => safeAt_of_lt_headLen k (fun e _ => Or.inr hlt) hlt.le
  | elems pre e es =>
    obtain ⟨hel, -⟩ := hs
    exact Or.inl ⟨pre, e, es, inside_elems hr hel hneed hc⟩
  | lenLine pre e es =>
    obtain ⟨hel, he, -⟩ := hs
    exact Or.inl ⟨pre, e, es, inside_lenLine hr hel he hneed hc⟩
  | body pre len b es =>
    obtain ⟨hel, -⟩ := hs
    have henc := Reply.length_encode hel
    have hsize := Element.length_encode_bulk len b
    simp only [Work.bytes, Work.need, length_append, length_crlf] at hc hneed
    refine Or.inl ⟨pre, _, es, hel, by omega, by omega, ?_, Or.inl ⟨len, b, rfl, by omega⟩⟩
    simp [Work.Exposed, Work.todo, Element.isBulk]
  | done => simp [Work.need] at hneed

theorem split_cases {α : Type*} {pre pre' es es' : List α} {e e' : α}
    (h : pre ++ e :: es = pre' ++ e' :: es') :
    (pre = pre' ∧ e = e' ∧ es = es') ∨ (∃ l, pre = pre' ++ e' :: l) ∨
      (∃ l, pre' = pre ++ e :: l ∧ es = l ++ e' :: es') := by
  rcases append_eq_append_iff.1 h with ⟨l, hpre, hes⟩ | ⟨l, hpre, hes⟩
  · cases l with
    | nil =>
      obtain ⟨rfl, rfl⟩ := cons.inj (by simpa using hes)
      exact Or.inl ⟨by simpa using hpre.symm, rfl, rfl⟩
    | cons x l =>
      obtain ⟨rfl, rfl⟩ := cons.inj hes
      exact Or.inr (Or.inr ⟨l, hpre, rfl⟩)
  · cases l with
    | nil =>
      obtain ⟨rfl, rfl⟩ := cons.inj (by simpa using hes)
      exact Or.inl ⟨by simpa using hpre, rfl, rfl⟩
    | cons x l =>
      obtain ⟨rfl, rfl⟩ := cons.inj hes
      exact Or.inr (Or.inl ⟨l, hpre⟩)

theorem Inside.safeAt_iff {r : Reply} {tail : Bytes} {k : ℕ} {pre es : List Element}
    {e : Element} (h : Inside r w tail c pre e es) (hk : k < readBuffSize) :
    SafeAt r c k ↔ ¬ w.Exposed ∧ (tail ≠ [] → tail.length + k < 2 ^ 30) := by
  have hbuf : readBuffSize = 4096 := rfl
  have hle := h.le
  have hlt := h.lt
  constructor
  · intro hsafe
    refine ⟨fun hexp => ?_, fun hne => ?_⟩
    · -- a line to come ends behind the cut, and the cut is behind the header
      obtain ⟨x, hx, hbulk⟩ := h.exposed.1 hexp
      obtain ⟨σ, text, rfl⟩ : ∃ σ text, x = .line σ text := by
        cases x with
        | line σ text => exact ⟨σ, text, rfl⟩
        | bulk len b => simp [Element.isBulk] at hbulk
        | nil => simp [Element.isBulk] at hbulk
      have hlen := Element.length_encode_line σ text
      rcases mem_cons.1 hx with rfl | hx
      · rcases hsafe pre _ es h.elements with h' | h' <;> omega
      · obtain ⟨l, es', rfl⟩ := append_of_mem hx
        have := hsafe (pre ++ e :: l) (.line σ text) es' (by simp [h.elements])
        simp only [cutOk, encodes_append, encodes_cons, length_append] at this
        omega
    · rcases h.body with ⟨len, b, rfl, hc⟩ | ⟨hsmall, -⟩
      · have hpos := length_pos_of_ne_nil hne
        have hlen := Element.length_encode_bulk len b
        rcases hsafe pre _ es h.elements with h' | h' | h' <;> omega
      · omega
  · rintro ⟨hexp, hsmall⟩ pre' e' es' hel
    have hbulk : ∀ x ∈ e :: es, x.isBulk = true := by
      intro x hx
      by_contra hx'
      exact hexp (h.exposed.2 ⟨x, hx, by simpa using hx'⟩)
    rcases split_cases (h.elements.symm.trans hel) with ⟨rfl, rfl, rfl⟩ | ⟨l, rfl⟩ | ⟨l, rfl, rfl⟩
    · cases e with
      | line σ text => exact absurd (hbulk (.line σ text) (by simp)) (by simp [Element.isBulk])
      | bulk len b =>
        rcases h.body with ⟨len', b', heq, hc⟩ | ⟨-, hb⟩
        · obtain ⟨rfl, rfl⟩ := Element.bulk.inj heq
          rcases eq_or_ne tail [] with rfl | hne
          · exact Or.inl (by simp at hc; omega)
          · have := hsmall hne
            exact Or.inr (Or.inr (by omega))
        · exact Or.inl (hb len b rfl)
      | nil => trivial
    · -- an earlier element ends before the cut
      simp only [encodes_append, encodes_cons, length_append] at hle
      cases e' with
      | line σ text =>
        have hlen := Element.length_encode_line σ text
        exact Or.inr (by omega)
      | bulk len b =>
        have hlen := Element.length_encode_bulk len b
        exact Or.inr (Or.inl (by omega))
      | nil => trivial
    · -- a later element starts behind the cut
      cases e' with
      | line σ text => exact absurd (hbulk (.line σ text) (by simp)) (by simp [Element.isBulk])
      | bulk len b =>
        simp only [cutOk, encodes_append, encodes_cons, length_append]
        exact Or.inl (by omega)
      | nil => trivial

theorem Rests.safeAt_iff {r : Reply} {cn : Connection} {info : RedisReplyInfo}
    {tail : Bytes} {k : ℕ} (hr : r.WellFormed) (h : Rests r cn info w tail) (hw : w ≠ .done)
    (hc : c + (w.bytes r).length = r.encode.length + tail.length) (hk : k < readBuffSize) :
    SafeAt r c k ↔ ¬ w.Exposed ∧ (tail ≠ [] → tail.length + k < 2 ^ 30) := by
  have hbuf : readBuffSize = 4096 := rfl
  rcases h.place.inside hr (h.need hw) hc with ⟨pre, e, es, hin⟩ | ⟨hexp, hsmall, hsafe⟩
  · exact hin.safeAt_iff hk
  · exact ⟨fun _ => ⟨hexp, fun _ => by omega⟩, fun _ => hsafe k⟩

/-! ### The whole run -/

theorem At.need_le {r : Reply} {s : Parser} (h : At r s w) :
    w.need ≤ (w.bytes r).length := by
  cases w with
  | start => cases r <;> simp [Work.need, Work.bytes, Reply.encode, Element.three_le_length_encode,
      le_trans (by decide : 1 ≤ 3)]
  | elems pre e es =>
    have := e.three_le_length_encode
    simp only [Work.need, Work.bytes, length_append]
    split <;> omega
  | _ => simp [Work.need, Work.bytes]

theorem Rests.reads_ne_nil {r : Reply} {cn : Connection} {info : RedisReplyInfo}
    {tail : Bytes} (h : Rests r cn info w tail) (hw : w ≠ .done)
    (hbytes : tail ++ ([] : List Bytes).flatten = w.bytes r) : False := by
  have h₁ := h.need hw
  have h₂ := h.place.need_le
  rw [← hbytes, flatten_nil, append_nil] at h₂
  omega

theorem recvLoop_valid (h : rc.conn.valid = true) (later : List Bytes) :
    recvLoop rc later = some (true, rc.info, later) := by
  cases later with
  | nil => rw [recvLoop, h]
  | cons d ds => rw [recvLoop, if_pos h]

section Run

variable {r : Reply}

theorem recvLoop_exposed (hr : r.WellFormed) (hcolon : r.ColonLines) (hnul : 0 ∉ r.text)
    (hlen : r.encode.length < 2 ^ 31) (reads later : List Bytes) (hreads : ∀ d ∈ reads, IsRead d)
     {tail : Bytes} (h : Rests r rc.conn rc.info w tail)
    (hfits : Fits rc.mallocLen tail) (hbytes : tail ++ reads.flatten = w.bytes r)
    (hexp : w.Exposed) :
    (recvLoop rc (reads ++ later)).map (fun x => x.2.1) ≠ some (replyInfo r) := by
  induction reads generalizing rc w tail with
  | nil =>
    have hw : w ≠ .done := by
      rintro rfl
      simp [Work.Exposed, Work.todo] at hexp
    exact (h.reads_ne_nil hw hbytes).elim
  | cons d ds ih =>
    have hw : w ≠ .done := by
      rintro rfl
      simp [Work.Exposed, Work.todo] at hexp
    have hd := (hreads d (by simp)).2
    have hvalid : rc.conn.valid = false := (h.place.not_done hw).2
    rw [cons_append, recvLoop, hvalid, if_neg (by decide)]
    by_cases hsmall : tail ≠ [] → tail.length + d.length < 2 ^ 30
    · have hturn := recvStep_at hr hcolon hnul hlen hw h hfits hd hbytes hsmall
      generalize recvStep rc d = o at hturn
      cases hturn with
      | rests rc' w' tail' h' hf hb he =>
        exact ih (fun x hx => hreads x (mem_cons_of_mem _ hx)) h' hf hb (he hexp)
      | derails rc' _ hd' => exact recvLoop_derailed (ds ++ later) hd'
      | faults _ => simp
    · push Not at hsmall
      obtain rfl := h.unparse hw
      rw [recvStep_overflow hfits hd hsmall.1 hsmall.2]
      simp

theorem recvLoop_iff (hr : r.WellFormed) (hcolon : r.ColonLines) (hnul : 0 ∉ r.text)
    (hlen : r.encode.length < 2 ^ 31) (reads later : List Bytes) (hreads : ∀ d ∈ reads, IsRead d)
     {tail : Bytes} (h : Rests r rc.conn rc.info w tail)
    (hfits : Fits rc.mallocLen tail) (hbytes : tail ++ reads.flatten = w.bytes r)
    (hc : c + reads.flatten.length = r.encode.length) :
    (SafeFrom r c reads → recvLoop rc (reads ++ later) = some (true, replyInfo r, later)) ∧
    (¬ SafeFrom r c reads → (recvLoop rc (reads ++ later)).map (fun x => x.2.1) ≠ some (replyInfo r)) := by
  induction reads generalizing rc w tail c with
  | nil =>
    have hw : w = .done := by
      by_contra hw
      exact (h.reads_ne_nil hw hbytes).elim
    subst hw
    obtain ⟨hvalid, hinfo⟩ := h.place
    refine ⟨fun _ => ?_, fun hn => absurd trivial hn⟩
    rw [nil_append, recvLoop_valid hvalid]
    exact congrArg (fun i => some (true, i, later)) hinfo
  | cons d ds ih =>
    obtain ⟨hdne, hd⟩ := hreads d (by simp)
    have hw : w ≠ .done := by
      rintro rfl
      simp [Work.bytes, hdne] at hbytes
    have hvalid : rc.conn.valid = false := (h.place.not_done hw).2
    have hbytes' : tail ++ (d ++ ds.flatten) = w.bytes r := hbytes
    have hlens := congrArg length hbytes'
    simp only [length_append, flatten_cons] at hlens hc
    have hsafe := h.safeAt_iff (k := d.length) (c := c) hr hw (by omega) hd
    rw [cons_append, recvLoop, hvalid, if_neg (by decide)]
    by_cases hexp : w.Exposed
    · refine ⟨fun hs => absurd hexp (hsafe.1 hs.1).1, fun _ => ?_⟩
      have := recvLoop_exposed hr hcolon hnul hlen (d :: ds) later hreads h hfits hbytes hexp
      rwa [cons_append, recvLoop, hvalid, if_neg (by decide)] at this
    by_cases hsmall : tail ≠ [] → tail.length + d.length < 2 ^ 30
    · have hturn := recvStep_at hr hcolon hnul hlen hw h hfits hd hbytes hsmall
      generalize recvStep rc d = o at hturn
      cases hturn with
      | rests rc' w' tail' h' hf hb he =>
        have := ih (fun x hx => hreads x (mem_cons_of_mem _ hx)) h' hf hb
          (c := c + d.length) (by omega)
        refine ⟨fun hs => this.1 hs.2, fun hn => this.2 fun hs => hn ⟨?_, hs⟩⟩
        exact hsafe.2 ⟨hexp, hsmall⟩
      | derails rc' he _ => exact absurd he hexp
      | faults he => exact absurd he hexp
    · refine ⟨fun hs => absurd (hsafe.1 hs.1).2 hsmall, fun _ => ?_⟩
      push Not at hsmall
      obtain rfl := h.unparse hw
      rw [recvStep_overflow hfits hd hsmall.1 hsmall.2]
      simp

theorem parse_whole (hr : r.WellFormed) (hcolon : r.ColonLines) (hnul : 0 ∉ r.text)
    (hlen : r.encode.length < 2 ^ 31) (pad : Bytes) :
    (parse {} {} (r.encode ++ 0 :: pad) r.encode.length).map Prod.snd = some (replyInfo r) := by
  have hcall : CallOutcome r ⟨{ parseState := .type }, {}, false⟩ .start r.encode.length []
      (parseLoop r.encode.length ⟨{ parseState := .type }, {}, false⟩ (r.encode ++ 0 :: pad)
        r.encode.length) :=
    parseLoop_at hr hcolon hnul hlen pad _ rfl (append_nil _) le_rfl
  have hlost : ¬ Lost ⟨{ parseState := .type }, {}, false⟩ .start := by
    simp [Lost, Work.Exposed, Work.todo]
  rw [parse, if_pos rfl, Option.map_map]
  generalize parseLoop r.encode.length ⟨{ parseState := .type }, {}, false⟩ (r.encode ++ 0 :: pad)
    r.encode.length = o at hcall ⊢
  cases hcall with
  | rests s' w' tail h hle hb hexp =>
    have hw : w' = .done := by
      by_contra hw
      exact h.reads_ne_nil hw hb
    subst hw
    exact congrArg some h.place.2
  | derails s' hl _ => exact absurd hl hlost
  | faults hl => exact absurd hl hlost

theorem recv_eq {reads : List Bytes} (h : reads ≠ []) :
    recv reads = recvLoop { conn := { parseState := .type } } reads := by
  obtain ⟨d, ds, rfl⟩ := exists_cons_of_ne_nil h
  rfl

end Run

/-! ### Lines with a zero byte -/

theorem strstrCrlf_nul {text rest : Bytes} (hline : IsLine text) (h0 : 0 ∈ text)
    (h : rest ++ future = text ++ crlf) (pad : Bytes) :
    strstrCrlf (rest ++ 0 :: pad) = .absent := by
  obtain ⟨t₁, t₂, rfl⟩ := append_of_mem h0
  have ht₁ : 10 ∉ t₁ := fun h10 => (hline.2 10 (mem_append_left _ h10)).1 rfl
  rw [append_assoc] at h
  rcases append_eq_append_iff.1 h with ⟨as, hrest, -⟩ | ⟨bs, hrest, hbs⟩
  · refine strstrCrlf_open (fun h10 => ht₁ ?_) pad
    rw [hrest]
    exact mem_append_left _ h10
  · cases bs with
    | nil =>
      rw [append_nil] at hrest
      exact hrest ▸ strstrCrlf_open ht₁ pad
    | cons b bs =>
      obtain ⟨rfl, -⟩ := cons.inj hbs
      rw [hrest, append_assoc]
      exact strstrCrlf_open ht₁ _

section Nul

variable {r : Reply} {text : Bytes}

theorem parseLoop_nul (hline : IsLine text) (h0 : 0 ∈ text) {s : Parser} {rest : Bytes}
    (h : rest ++ future = text ++ crlf) (hstate : s.conn.parseState = .result) (pad : Bytes)
    (fuel : ℕ) (hfuel : rest.length ≤ fuel) :
    parseLoop fuel s (rest ++ 0 :: pad) rest.length = some (s.saveTail rest) := by
  cases rest with
  | nil =>
    rw [Parser.saveTail_nil]
    cases fuel <;> rfl
  | cons b rest =>
    obtain ⟨fuel, rfl⟩ : ∃ n, fuel = n + 1 :=
      Nat.exists_eq_succ_of_ne_zero (by rintro rfl; simp at hfuel)
    have hit : parseIter s (b :: rest ++ 0 :: pad) (rest.length + 1) = .checkBuf s 0 := by
      simp only [parseIter, hstate, withLine, strstrCrlf_nul hline h0 h pad]
    rw [length_cons, parseLoop, hit]
    simp only [drop_zero, Nat.sub_zero]
    rw [take_left' (length_cons ..)]

def InNul (r : Reply) (rc : Receiver) (tail : Bytes) : Prop :=
  rc.conn = { parseState := .result, unparseBuf := tail } ∧ rc.info = { replyType := replyType r } ∧
    Fits rc.mallocLen tail

theorem Parser.saveTail_conn {c : Connection} {info : RedisReplyInfo} {flag : Bool} (tail : Bytes)
    (hc : c = { parseState := .result }) : (Parser.mk c info flag).saveTail tail =
      ⟨{ parseState := .result, unparseBuf := tail }, info, flag⟩ := by
  subst hc
  unfold Parser.saveTail
  split
  · rfl
  · rename_i h
    obtain rfl : tail = [] := by simpa using h
    rfl

theorem recvStep_inNul (hline : IsLine text) (h0 : 0 ∈ text) {tail : Bytes}
    (h : InNul r rc tail) (hd : d.length < readBuffSize)
    (hbytes : tail ++ (d ++ future) = text ++ crlf) :
    ∃ rc', recvStep rc d = some rc' ∧ InNul r rc' (tail ++ d) := by
  obtain ⟨hconn, hinfo, hfits⟩ := h
  have htail : rc.conn.unparseBuf = tail := by rw [hconn]
  have hlen := congrArg length hbytes
  simp only [length_append, length_crlf] at hlen
  have hshort := hline.1
  obtain ⟨m, pad, hm, heq⟩ := recvStep_eq (d := d) (htail ▸ hfits) hd (fun _ => by rw [htail]; omega)
  rw [htail] at heq hm
  have hcall := parseLoop_nul hline h0
    (s := ⟨{ rc.conn with unparseBuf := [] }, rc.info, false⟩)
    ((append_assoc _ _ _).trans hbytes) (by rw [hconn]) pad _ le_rfl
  refine ⟨⟨{ parseState := .result, unparseBuf := tail ++ d }, rc.info, m⟩, ?_, rfl, hinfo,
    hm _ le_rfl⟩
  rw [heq, parse, if_neg (by simp [hconn]), hcall, Parser.saveTail_conn _ (by rw [hconn])]
  rfl

theorem recvLoop_inNul (hline : IsLine text) (h0 : 0 ∈ text) (reads : List Bytes)
    (hreads : ∀ d ∈ reads, IsRead d) {tail : Bytes} (h : InNul r rc tail)
    (hbytes : tail ++ reads.flatten = text ++ crlf) :
    recvLoop rc reads = some (false, { replyType := replyType r }, []) := by
  induction reads generalizing rc tail with
  | nil => rw [recvLoop, h.1, h.2.1]
  | cons d ds ih =>
    obtain ⟨rc', hstep, h'⟩ :=
      recvStep_inNul hline h0 h (hreads d (by simp)).2
        (show tail ++ (d ++ ds.flatten) = text ++ crlf from hbytes)
    rw [recvLoop, if_neg (by simp [h.1]), hstep]
    exact ih (fun x hx => hreads x (mem_cons_of_mem _ hx)) h'
      (by rw [append_assoc]; exact hbytes)

theorem parse_nul (hrt : r = .status text ∨ r = .error text) (hline : IsLine text) (h0 : 0 ∈ text)
    {b : UInt8} {rest : Bytes} (h : (b :: rest) ++ future = r.encode) (pad : Bytes) :
    parse {} {} (b :: rest ++ 0 :: pad) (rest.length + 1) =
      some ({ parseState := .result, unparseBuf := rest }, { replyType := replyType r }) := by
  have hstart : parseLoop (rest.length + 1) ⟨{ parseState := .type }, {}, false⟩
      (b :: rest ++ 0 :: pad) (rest.length + 1) =
      parseLoop rest.length ⟨{ parseState := .result }, { replyType := replyType r }, false⟩
        (rest ++ 0 :: pad) rest.length := by
    rcases hrt with rfl | rfl <;> obtain ⟨rfl, -⟩ := cons.inj h <;> rfl
  have hrest : rest ++ future = text ++ crlf := by
    rcases hrt with rfl | rfl <;> exact (cons.inj h).2
  rw [parse, if_pos rfl, hstart, parseLoop_nul hline h0 hrest rfl pad _ le_rfl,
    Parser.saveTail_conn _ rfl]
  rfl

theorem recv_nul (hrt : r = .status text ∨ r = .error text) (hline : IsLine text) (h0 : 0 ∈ text)
    (reads : List Bytes) (hreads : ∀ d ∈ reads, IsRead d) (hsplit : reads.flatten = r.encode) :
    recv reads = some (false, { replyType := replyType r }, []) := by
  have hne : r.encode ≠ [] := by rcases hrt with rfl | rfl <;> simp [Reply.encode]
  obtain ⟨d, ds, rfl⟩ : ∃ d ds, reads = d :: ds :=
    exists_cons_of_ne_nil (by rintro rfl; exact hne hsplit.symm)
  obtain ⟨hdne, hd⟩ := hreads d (by simp)
  obtain ⟨b, rest, rfl⟩ := exists_cons_of_ne_nil hdne
  have hfits : Fits ({} : Receiver).mallocLen ({} : Receiver).conn.unparseBuf :=
    ⟨12, by decide, by decide, rfl, by decide⟩
  obtain ⟨m, pad, hm, heq⟩ := recvStep_eq hfits hd (fun h => absurd rfl h)
  have hstep : recvStep {} (b :: rest) =
      some ⟨{ parseState := .result, unparseBuf := rest }, { replyType := replyType r }, m⟩ := by
    rw [heq]
    have := parse_nul hrt hline h0 (hsplit : (b :: rest) ++ ds.flatten = r.encode) pad
    exact congrArg (Option.map _) this
  have hrest : rest ++ ds.flatten = text ++ crlf := by
    rcases hrt with rfl | rfl <;> exact (cons.inj hsplit).2
  rw [recv, recvLoop, if_neg (by decide), hstep]
  exact recvLoop_inNul hline h0 ds (fun x hx => hreads x (mem_cons_of_mem _ hx))
    ⟨rfl, rfl, hm rest (by simp)⟩ hrest

end Nul

/-! ### The results -/

theorem Reply.encode_ne_nil (r : Reply) : r.encode ≠ [] := by
  cases r with
  | single e =>
    have := e.three_le_length_encode
    exact ne_nil_of_length_pos (by simp only [Reply.encode]; omega)
  | _ => simp [Reply.encode]

theorem recv_safe {r : Reply} (hr : r.WellFormed) (hcolon : r.ColonLines) (hnul : 0 ∉ r.text)
    (hlen : r.encode.length < 2 ^ 31) (reads : List Bytes) (hreads : ∀ d ∈ reads, IsRead d)
    (hsplit : reads.flatten = r.encode) (later : List Bytes) :
    (SafeCuts r reads → recv (reads ++ later) = some (true, replyInfo r, later)) ∧
    (¬ SafeCuts r reads → (recv (reads ++ later)).map (fun x => x.2.1) ≠ some (replyInfo r)) := by
  have hne : reads ++ later ≠ [] := by
    intro hnil
    obtain ⟨rfl, -⟩ := append_eq_nil_iff.1 hnil
    exact Reply.encode_ne_nil r hsplit.symm
  rw [recv_eq hne]
  refine recvLoop_iff (w := .start) (c := 0) hr hcolon hnul hlen reads later hreads
    ⟨rfl, fun _ => rfl, fun _ => by decide⟩ ⟨12, by decide, by decide, rfl, by decide⟩ hsplit ?_
  rw [hsplit, Nat.zero_add]

theorem recv_info_eq_iff (r : Reply) (hr : r.WellFormed) (hint : r.IntLines)
    (hlen : r.encode.length < 2 ^ 31) (pad : Bytes) (reads : List Bytes)
    (hreads : ∀ d ∈ reads, IsRead d) (hsplit : reads.flatten = r.encode) :
    (recv reads).map (fun x => x.2.1) =
        (parse {} {} (r.encode ++ 0 :: pad) r.encode.length).map Prod.snd ↔
      SafeCuts r reads := by
  by_cases hnul : 0 ∈ r.text
  · -- a status or error line with a zero byte: neither way completes it, and no cut is harmful
    obtain ⟨text, hrt, hline, h0⟩ :
        ∃ text, (r = .status text ∨ r = .error text) ∧ IsLine text ∧ 0 ∈ text := by
      cases r with
      | status text => exact ⟨text, Or.inl rfl, hr, hnul⟩
      | error text => exact ⟨text, Or.inr rfl, hr, hnul⟩
      | _ => simp [Reply.text] at hnul
    have hsafe : ∀ (ds : List Bytes) (c : ℕ), SafeFrom r c ds := by
      intro ds
      induction ds with
      | nil => exact fun _ => trivial
      | cons d ds ih =>
        refine fun c => ⟨fun pre e es hel => ?_, ih _⟩
        rcases hrt with rfl | rfl <;> simp [Reply.elements] at hel
    obtain ⟨b, rest, henc⟩ := exists_cons_of_ne_nil (Reply.encode_ne_nil r)
    have hwhole := parse_nul hrt hline h0 (show (b :: rest) ++ [] = r.encode by simp [henc]) pad
    rw [recv_nul hrt hline h0 reads hreads hsplit, henc, length_cons, hwhole]
    exact ⟨fun _ => hsafe reads 0, fun _ => rfl⟩
  · rw [parse_whole hr hint.colonLines hnul hlen pad]
    obtain ⟨hpos, hneg⟩ := recv_safe hr hint.colonLines hnul hlen reads hreads hsplit []
    rw [append_nil] at hpos hneg
    refine ⟨fun h => ?_, fun h => by rw [hpos h]; rfl⟩
    by_contra hn
    exact hneg hn h

theorem recv_info_eq_iff_bulks :
    (recv [ascii "*", ascii "2\r", ascii "\n$3", ascii "\r\nf", ascii "oo\r\n$-1\r", ascii "\n"]).map
        (fun x => x.2.1) =
      (parse {} {} (ascii "*2\r\n$3\r\nfoo\r\n$-1\r\n" ++ [0]) 19).map Prod.snd := by
  have hlen : ∀ {t : Bytes} {n : ℕ}, t.length < 4096 → t ≠ [] → (∀ b ∈ t, isDigit b = true) →
      natVal 0 t = n → IsLenText t n := fun h₁ h₂ h₃ h₄ => ⟨h₁, h₂, h₃, h₄⟩
  refine (recv_info_eq_iff (.array (ascii "2") [.bulk (ascii "3") (ascii "foo"), .nil]) ?_ ?_
    (by decide) [] _ ?_ (by decide)).2 ?_
  · refine ⟨hlen (by decide) (by decide) (forall_mem_of_all rfl) (by decide), ?_⟩
    intro e he
    rcases mem_pair.1 he with rfl | rfl
    · exact hlen (by decide) (by decide) (forall_mem_of_all rfl) (by decide)
    · trivial
  · intro σ text h
    simp [Reply.elements] at h
  · unfold IsRead
    decide
  · have hsafe : ∀ c k, c + k < 2 ^ 30 →
        SafeAt (.array (ascii "2") [.bulk (ascii "3") (ascii "foo"), .nil]) c k := by
      intro c k hck pre e es hel
      have he : e ∈ [Element.bulk (ascii "3") (ascii "foo"), .nil] := by
        rw [show [Element.bulk (ascii "3") (ascii "foo"), .nil] = pre ++ e :: es from hel]
        simp
      rcases mem_pair.1 he with rfl | rfl
      · exact Or.inr (Or.inr (by omega))
      · trivial
    exact ⟨hsafe _ _ (by decide), hsafe _ _ (by decide), hsafe _ _ (by decide),
      hsafe _ _ (by decide), hsafe _ _ (by decide), hsafe _ _ (by decide), trivial⟩

theorem recv_cut_behind_header :
    (Reply.array (ascii "1") [.line .colon (ascii "5")]).WellFormed ∧
    (Reply.array (ascii "1") [.line .colon (ascii "5")]).IntLines ∧
    (Reply.array (ascii "1") [.line .colon (ascii "5")]).encode = ascii "*1\r\n:5\r\n" ∧
    recv [ascii "*1\r\n", ascii ":5\r\n"] = some (false, { replyType := .array }, []) ∧
    (parse {} {} (ascii "*1\r\n:5\r\n" ++ [0]) 8).map Prod.snd =
      some { replyType := .array, arrayList := [⟨.string, some (ascii ":5"), 2⟩] } := by
  refine ⟨⟨⟨by decide, by decide, forall_mem_of_all rfl, by decide⟩, ?_⟩, ?_, by decide, by decide,
    by decide⟩
  · intro e he
    obtain rfl := mem_singleton.1 he
    exact ⟨⟨by decide, forall_mem_of_all rfl⟩, by decide⟩
  · intro σ text h
    obtain ⟨rfl, rfl⟩ := Element.line.inj (mem_singleton.1 h)
    exact ⟨rfl, [], ascii "5", Or.inl rfl, by decide, forall_mem_of_all rfl, rfl, by decide,
      by decide⟩

end GBDownLinker
