/-
**Messages that are pushed.**

`recv` starts every call with an empty buffer, and drops whatever follows a complete reply in the read that
completes it.  So pushed messages are received as they were sent if each of them starts with a read of its own.
-/

import BackendProgramming.RedisRecv

set_option autoImplicit false

namespace GBDownLinker

open CText Resp List Option

def recvs : ℕ → List Bytes → Option (List (Bool × RedisReplyInfo))
  | 0, _ => some []
  | k + 1, reads => (recv reads).bind fun x => (recvs k x.2.2).map fun rest => (x.1, x.2.1) :: rest

structure IsPush (m : Reply) : Prop where
  array : ∃ num elems, m = .array num elems
  wellFormed : m.WellFormed
  colonLines : m.ColonLines
  length : m.encode.length < 2 ^ 31

def Received (msgs : List Reply) (reads : List Bytes) : Prop :=
  recvs msgs.length reads = some (msgs.map fun m => (true, replyInfo m))

instance (msgs : List Reply) (reads : List Bytes) : Decidable (Received msgs reads) :=
  inferInstanceAs (Decidable (_ = _))

def Aligned (msgs : List Reply) (reads : List Bytes) : Prop :=
  ∃ groups : List (List Bytes), reads = groups.flatten ∧
    List.Forall₂ (fun group m => group.flatten = m.encode ∧ SafeCuts m group) groups msgs

/-! ### Messages that start with a read -/

theorem IsPush.text {m : Reply} (h : IsPush m) : 0 ∉ m.text := by
  obtain ⟨num, elems, rfl⟩ := h.array
  simp [Reply.text]

theorem recvs_groups_iff {groups : List (List Bytes)} {msgs : List Reply} (hmsgs : ∀ m ∈ msgs, IsPush m)
    (hreads : ∀ group ∈ groups, ∀ d ∈ group, IsRead d)
    (h : List.Forall₂ (fun group m => group.flatten = m.encode) groups msgs) :
    Received msgs groups.flatten ↔ List.Forall₂ (fun group m => SafeCuts m group) groups msgs := by
  induction h with
  | nil => simp [Received, recvs]
  | @cons group m groups msgs hgroup _ ih =>
    obtain ⟨hm, hmsgs⟩ := forall_mem_cons.1 hmsgs
    obtain ⟨hread, hreads⟩ := forall_mem_cons.1 hreads
    obtain ⟨hsafe, hexposed⟩ := recv_safe hm.wellFormed hm.colonLines hm.text hm.length group hread hgroup
      groups.flatten
    have ih := ih hmsgs hreads
    rw [Received] at ih
    rw [Received, length_cons, recvs, flatten_cons, forall₂_cons, map_cons, ← ih]
    by_cases hcuts : SafeCuts m group
    · rw [hsafe hcuts, bind_some]
      simp [hcuts, map_eq_some_iff]
    · refine iff_of_false ?_ (fun hboth => hcuts hboth.1)
      intro heq
      obtain ⟨x, hx, hrest⟩ := bind_eq_some_iff.1 heq
      obtain ⟨rest, -, hcons⟩ := map_eq_some_iff.1 hrest
      refine hexposed hcuts ?_
      rw [hx]
      exact congrArg some (Prod.mk.inj (cons.inj hcons).1).2

/-! ### The type of a reply -/

def Typed (type : RedisReplyType) (c : Connection) (info : RedisReplyInfo) : Prop :=
  info.replyType = type ∧ c.parseState ≠ .type ∧ c.parseState ≠ .unknownState

theorem Typed.pushElement {type : RedisReplyType} {s : Parser} (h : Typed type s.conn s.info)
    (a : ReplyArrayInfo) : Typed type (s.pushElement a).conn (s.pushElement a).info := by
  refine ⟨h.1, ?_⟩
  rw [Parser.pushElement]
  split
  · simp
  · exact h.2

theorem Typed.withLine {type : RedisReplyType} {s s' : Parser} {mem : Bytes} {k : ℕ} {f : Bytes → Parser}
    (h : Typed type s.conn s.info) (hf : ∀ line, Typed type (f line).conn (f line).info)
    (hs' : (withLine s mem k f).parser? = some s') : Typed type s'.conn s'.info := by
  unfold GBDownLinker.withLine at hs'
  split at hs'
  · cases hs'
  · cases hs'
    exact h
  · split at hs'
    · cases hs'
    · cases hs'
      exact hf _

theorem parseIter_typed {type : RedisReplyType} {s s' : Parser} {mem : Bytes} {n : ℕ}
    (h : Typed type s.conn s.info) (hs' : (parseIter s mem n).parser? = some s') :
    Typed type s'.conn s'.info := by
  unfold parseIter at hs'
  split at hs'
  case h_1 hstate => exact absurd hstate h.2.1
  case h_2 =>
    refine h.withLine (fun line => ?_) hs'
    exact h
  case h_3 =>
    refine h.withLine (fun line => ?_) hs'
    exact h
  case h_4 =>
    unfold parseLength at hs'
    split at hs'
    · split at hs'
      · cases hs'
      · cases hs'
        exact h
      · split at hs' <;> cases hs'
        · exact h
        · exact h.pushElement _
    · refine h.withLine (fun line => ?_) hs'
      unfold Parser.readLength
      split
      · exact ⟨h.1, by simp⟩
      · exact Typed.pushElement (s := { s with conn := { s.conn with arrayLen := atoi line } }) h _
  case h_5 =>
    unfold parseString at hs'
    split at hs'
    · cases hs'
    · split at hs'
      · split at hs' <;> cases hs'
        exact h.pushElement _
      · cases hs'
        exact h
  case h_6 =>
    refine h.withLine (fun line => ?_) hs'
    unfold Parser.readCount
    split
    · exact h
    · split
      · exact h
      · exact ⟨h.1, by simp⟩
  case h_7 =>
    cases hs'
    exact h

theorem parseLoop_typed {type : RedisReplyType} (fuel : ℕ) {s s' : Parser} {mem : Bytes} {n : ℕ}
    (hs : Typed type s.conn s.info) (h : parseLoop fuel s mem n = some s') :
    Typed type s'.conn s'.info := by
  refine parseLoop_invariant (I := fun s => Typed type s.conn s.info) parseIter_typed ?_ fuel hs h
  intro s tail hs
  unfold Parser.saveTail
  split <;> exact hs

theorem recvStep_typed {type : RedisReplyType} {rc rc' : Receiver} {d : Bytes}
    (h : Typed type rc.conn rc.info) (hstep : recvStep rc d = some rc') :
    Typed type rc'.conn rc'.info := by
  obtain ⟨pad, hx⟩ := recvStep_some hstep
  obtain ⟨s, hs, heq⟩ := map_eq_some_iff.1 hx
  obtain ⟨hconn, hinfo⟩ := Prod.mk.inj heq
  rw [← hconn, ← hinfo]
  refine parseLoop_typed _ ?_ hs
  rw [if_neg h.2.2]
  exact h

/-! ### Reads that start an array -/

def startsArray (d : Bytes) : Bool := d.head? = some 42

structure Untyped (rc : Receiver) : Prop where
  parseState : rc.conn.parseState = .type ∨ rc.conn.parseState = .unknownState
  valid : rc.conn.valid = false
  unparseBuf : rc.conn.unparseBuf = []
  replyType : rc.info.replyType ≠ .array

theorem parseType_cases (s : Parser) (b : UInt8) :
    b = 42 ∨
    (∃ type s', type ≠ .array ∧ Typed type s'.conn s'.info ∧ parseType s b = .next s' 1) ∨
    parseType s b = .returnFalse { s with info := { s.info with replyType := .unknown } } := by
  unfold parseType
  split
  · exact .inr (.inl ⟨.error, _, by decide, ⟨rfl, by simp⟩, rfl⟩)
  · exact .inr (.inl ⟨.status, _, by decide, ⟨rfl, by simp⟩, rfl⟩)
  · exact .inr (.inl ⟨.integer, _, by decide, ⟨rfl, by simp⟩, rfl⟩)
  · exact .inr (.inl ⟨.string, _, by decide, ⟨rfl, by simp⟩, rfl⟩)
  · exact .inl rfl
  · exact .inr (.inr rfl)

theorem recvStep_untyped {rc rc' : Receiver} {b : UInt8} {d : Bytes} (h : Untyped rc)
    (hstep : recvStep rc (b :: d) = some rc') :
    b = 42 ∨ (∃ type, type ≠ .array ∧ Typed type rc'.conn rc'.info) ∨ Untyped rc' := by
  obtain ⟨pad, hx⟩ := recvStep_some hstep
  rw [h.unparseBuf, nil_append, length_nil, Nat.zero_add, parse] at hx
  obtain ⟨s, hs, heq⟩ := map_eq_some_iff.1 hx
  obtain ⟨hconn, hinfo⟩ := Prod.mk.inj heq
  rw [← hconn, ← hinfo]
  -- both states are that in which the type is read
  obtain ⟨c, hc, hstate, hvalid, hbuf⟩ : ∃ c : Connection,
      (if ({ rc.conn with unparseBuf := [] } : Connection).parseState = .unknownState then
        { ({ rc.conn with unparseBuf := [] } : Connection) with parseState := .type }
        else { rc.conn with unparseBuf := [] }) = c ∧
      c.parseState = .type ∧ c.valid = false ∧ c.unparseBuf = [] := by
    refine ⟨_, rfl, ?_⟩
    split
    · exact ⟨rfl, h.valid, rfl⟩
    · next hne => exact ⟨h.parseState.resolve_right hne, h.valid, rfl⟩
  have hiter : parseIter ⟨c, rc.info, false⟩ (b :: d ++ pad) (d.length + 1) =
      parseType ⟨c, rc.info, false⟩ b := by
    simp [parseIter, hstate]
  rw [hc, length_cons, parseLoop, hiter] at hs
  rcases parseType_cases ⟨c, rc.info, false⟩ b with hb | ⟨type, s₁, hne, htyped, htype⟩ | htype
  · exact .inl hb
  · rw [htype] at hs
    exact .inr (.inl ⟨type, hne, parseLoop_typed _ htyped hs⟩)
  · rw [htype] at hs
    cases hs
    refine .inr (.inr ⟨.inl ?_, ?_, ?_, ?_⟩)
    · rw [← hconn]; exact hstate
    · rw [← hconn]; exact hvalid
    · rw [← hconn]; exact hbuf
    · rw [← hinfo]; simp

theorem recvLoop_stars (reads : List Bytes) (hreads : ∀ d ∈ reads, d ≠ []) {rc : Receiver} (h : Untyped rc)
    {x : Bool × RedisReplyInfo × List Bytes} (hx : recvLoop rc reads = some x)
    (harray : x.2.1.replyType = .array) :
    x.2.2.countP startsArray + 1 ≤ reads.countP startsArray := by
  induction reads generalizing rc with
  | nil =>
    cases hx
    exact absurd harray h.replyType
  | cons d ds ih =>
    obtain ⟨hd, hds⟩ := forall_mem_cons.1 hreads
    obtain ⟨b, d, rfl⟩ := exists_cons_of_ne_nil hd
    rw [recvLoop, h.valid, if_neg Bool.false_ne_true] at hx
    obtain ⟨rc', hstep, hloop⟩ := bind_eq_some_iff.1 hx
    rcases recvStep_untyped h hstep with rfl | ⟨type, hne, htyped⟩ | hwaiting
    · obtain ⟨-, -, -, hsuffix⟩ := recvLoop_invariant (I := fun _ => True) (fun _ _ => trivial) ds trivial hloop
      rw [countP_cons_of_pos (by rfl)]
      exact Nat.succ_le_succ (hsuffix.sublist.countP_le)
    · -- the type has been read, and it is another one
      obtain ⟨rc'', htyped', hinfo, -⟩ :=
        recvLoop_invariant (I := fun rc => Typed type rc.conn rc.info) recvStep_typed ds htyped hloop
      rw [hinfo, htyped'.1] at harray
      exact absurd harray hne
    · refine (ih hds hwaiting hloop).trans ?_
      rw [countP_cons]
      exact Nat.le_add_right _ _

theorem length_le_countP_of_recvs {k : ℕ} {reads : List Bytes} (hreads : ∀ d ∈ reads, d ≠ [])
    {results : List (Bool × RedisReplyInfo)} (h : recvs k reads = some results)
    (harrays : ∀ x ∈ results, x.2.replyType = .array) : k ≤ reads.countP startsArray := by
  induction k generalizing reads results with
  | zero => exact Nat.zero_le _
  | succ k ih =>
    obtain ⟨x, hx, hrest⟩ := bind_eq_some_iff.1 h
    obtain ⟨rest, hrecvs, rfl⟩ := map_eq_some_iff.1 hrest
    obtain ⟨harray, harrays⟩ := forall_mem_cons.1 harrays
    have hwaiting : Untyped {} := ⟨.inr rfl, rfl, rfl, by decide⟩
    have hstars := recvLoop_stars reads hreads hwaiting hx harray
    obtain ⟨-, -, -, hsuffix⟩ := recvLoop_invariant (I := fun _ => True) (fun _ _ => trivial) reads trivial hx
    have := ih (fun d hd => hreads d (hsuffix.subset hd)) hrecvs harrays
    omega

/-! ### Where the arrays start -/

theorem count_flatten (reads : List Bytes) :
    reads.flatten.count 42 = reads.countP startsArray + (reads.map tail).flatten.count 42 := by
  induction reads with
  | nil => rfl
  | cons d ds ih =>
    have hd : d.count 42 = (if startsArray d then 1 else 0) + d.tail.count 42 := by
      cases d with
      | nil => simp [startsArray]
      | cons b d =>
        simp only [startsArray, head?_cons, tail_cons, count_cons, some.injEq]
        by_cases hb : b = 42 <;> simp [hb, Nat.add_comm]
    rw [flatten_cons, count_append, ih, countP_cons, map_cons, flatten_cons,
      count_append, hd]
    omega

theorem IsPush.count_encode {m : Reply} (h : IsPush m) (hstar : 42 ∉ encodes m.elements) :
    m.encode.count 42 = 1 ∧ m.encode.head? = some 42 := by
  obtain ⟨num, elems, rfl⟩ := h.array
  have hnum : 42 ∉ num := fun hmem => by
    have := h.wellFormed.1.digits 42 hmem
    simp [isDigit] at this
  refine ⟨?_, rfl⟩
  rw [Reply.encode, count_cons_self, count_append, count_append,
    count_eq_zero_of_not_mem hnum,
    count_eq_zero_of_not_mem (show 42 ∉ encodes elems from hstar)]
  rfl

theorem exists_groups {msgs : List Reply} (hheads : ∀ m ∈ msgs, m.encode.head? = some 42)
    {reads : List Bytes} (hne : ∀ d ∈ reads, d ≠ []) (htails : ∀ d ∈ reads, 42 ∉ d.tail)
    (hsplit : reads.flatten = msgs.flatMap Reply.encode) :
    ∃ groups, reads = groups.flatten ∧
      List.Forall₂ (fun group m => group.flatten = m.encode) groups msgs := by
  induction msgs generalizing reads with
  | nil =>
    have hnil : reads = [] := by
      refine eq_nil_iff_forall_not_mem.2 fun d hd => hne d hd ?_
      exact flatten_eq_nil_iff.1 hsplit d hd
    exact ⟨[], hnil, .nil⟩
  | cons m msgs ih =>
    obtain ⟨hm, hheads⟩ := forall_mem_cons.1 hheads
    -- the cut behind the message is a cut between reads
    obtain ⟨front, back, rfl, hfront, hback⟩ : ∃ front back, reads = front ++ back ∧
        front.flatten = m.encode ∧ back.flatten = msgs.flatMap Reply.encode := by
      rw [flatMap_cons] at hsplit
      rcases flatten_eq_append_iff.1 hsplit with ⟨as, bs, hreads, has, hbs⟩ |
        ⟨as, bs, c, cs, ds, hreads, has, hbs⟩
      · exact ⟨as, bs, hreads, has.symm, hbs.symm⟩
      · have hc : c = 42 := by
          cases msgs with
          | nil => cases hbs
          | cons m' msgs =>
            have hhead := congrArg head? hbs
            rw [flatMap_cons, head?_append, hheads m' mem_cons_self] at hhead
            exact (some.inj hhead).symm
        cases bs with
        | nil => exact ⟨as, (c :: cs) :: ds, hreads, by simpa using has.symm, hbs.symm⟩
        | cons b bs =>
          refine absurd ?_ (htails (b :: bs ++ c :: cs) (by simp [hreads]))
          simp [hc]
    obtain ⟨groups, rfl, hgroups⟩ := ih hheads (fun d hd => hne d (mem_append_right _ hd))
      (fun d hd => htails d (mem_append_right _ hd)) hback
    exact ⟨front :: groups, by simp, .cons hfront hgroups⟩

/-! ### Which messages are received -/

theorem pushes_received (msgs : List Reply) (hmsgs : ∀ m ∈ msgs, IsPush m) (reads : List Bytes)
    (hreads : ∀ d ∈ reads, IsRead d) (hsplit : reads.flatten = msgs.flatMap Reply.encode) :
    (Aligned msgs reads → Received msgs reads) ∧
    ((∀ m ∈ msgs, 42 ∉ encodes m.elements) → (Received msgs reads ↔ Aligned msgs reads)) := by
  have haligned : Aligned msgs reads → Received msgs reads := by
    rintro ⟨groups, rfl, hgroups⟩
    refine (recvs_groups_iff hmsgs ?_ (hgroups.imp fun _ _ h => h.1)).2 (hgroups.imp fun _ _ h => h.2)
    intro group hgroup d hd
    exact hreads d (mem_flatten.2 ⟨group, hgroup, hd⟩)
  refine ⟨haligned, fun hstars => ⟨fun hreceived => ?_, haligned⟩⟩
  have hne : ∀ d ∈ reads, d ≠ [] := fun d hd => (hreads d hd).1
  -- every call has made a read that starts an array, and there are no more of them than messages
  have hcalls : msgs.length ≤ reads.countP startsArray := by
    refine length_le_countP_of_recvs hne hreceived ?_
    intro x hx
    obtain ⟨m, hm, rfl⟩ := mem_map.1 hx
    obtain ⟨num, elems, rfl⟩ := (hmsgs m hm).array
    rfl
  have hcount : reads.flatten.count 42 = msgs.length := by
    rw [hsplit, count_flatMap]
    refine (sum_eq_card_nsmul _ 1 ?_).trans (by simp)
    intro n hn
    obtain ⟨m, hm, rfl⟩ := mem_map.1 hn
    exact ((hmsgs m hm).count_encode (hstars m hm)).1
  have htails : ∀ d ∈ reads, 42 ∉ d.tail := by
    have hzero : (reads.map tail).flatten.count 42 = 0 := by
      have := count_flatten reads
      omega
    intro d hd hmem
    exact count_eq_zero.1 hzero
      (mem_flatten.2 ⟨d.tail, mem_map_of_mem hd, hmem⟩)
  obtain ⟨groups, rfl, hgroups⟩ := exists_groups
    (fun m hm => ((hmsgs m hm).count_encode (hstars m hm)).2) hne htails hsplit
  refine ⟨groups, rfl, ?_⟩
  have hsafe := (recvs_groups_iff hmsgs
    (fun group hgroup d hd => hreads d (mem_flatten.2 ⟨group, hgroup, hd⟩)) hgroups).1 hreceived
  exact forall₂_iff_zip.2 ⟨hgroups.length_eq, fun h =>
    ⟨forall₂_zip hgroups h, forall₂_zip hsafe h⟩⟩

def pushOf (b : UInt8) : Reply := .array (ascii "1") [.bulk (ascii "1") [b]]

theorem isPush_pushOf (b : UInt8) : IsPush (pushOf b) := by
  have hone : IsLenText (ascii "1") 1 := ⟨by decide, by decide, forall_mem_of_all rfl, by decide⟩
  refine ⟨⟨_, _, rfl⟩, ⟨hone, ?_⟩, ?_, ?_⟩
  · intro e he
    obtain rfl := mem_singleton.1 he
    exact hone
  · intro σ text h
    simp [pushOf, Reply.elements] at h
  · have hlen : (pushOf b).encode.length = 11 := rfl
    omega

theorem safeAt_pushOf (b : UInt8) {c k : ℕ} (h : c + k < 2 ^ 30) : SafeAt (pushOf b) c k := by
  intro pre e es hel
  have he : e ∈ [Element.bulk (ascii "1") [b]] := by
    rw [show [Element.bulk (ascii "1") [b]] = pre ++ e :: es from hel]
    simp
  obtain rfl := mem_singleton.1 he
  exact Or.inr (Or.inr (by omega))

theorem pushes_received_pair :
    Received [pushOf 97, pushOf 98]
      [ascii "*1\r\n$1\r", ascii "\na\r\n", ascii "*1\r\n$1\r\nb\r\n"] := by
  refine (pushes_received _ ?_ _ ?_ (by decide)).1
    ⟨[[ascii "*1\r\n$1\r", ascii "\na\r\n"], [ascii "*1\r\n$1\r\nb\r\n"]], rfl, ?_⟩
  · intro m hm
    rcases mem_pair.1 hm with rfl | rfl
    · exact isPush_pushOf 97
    · exact isPush_pushOf 98
  · unfold IsRead
    decide
  · refine .cons ⟨by decide, ?_⟩ (.cons ⟨by decide, ?_⟩ .nil)
    · exact ⟨safeAt_pushOf 97 (by decide), safeAt_pushOf 97 (by decide), trivial⟩
    · exact ⟨safeAt_pushOf 98 (by decide), trivial⟩

theorem two_messages_in_one_read :
    (∀ m ∈ [pushOf 97, pushOf 98], IsPush m) ∧
    IsRead (ascii "*1\r\n$1\r\na\r\n*1\r\n$1\r\nb\r\n") ∧
    ascii "*1\r\n$1\r\na\r\n*1\r\n$1\r\nb\r\n" = [pushOf 97, pushOf 98].flatMap Reply.encode ∧
    (recv [ascii "*1\r\n$1\r\na\r\n*1\r\n$1\r\nb\r\n"]).map
        (fun x => (x.1, x.2.1.arrayList.map ReplyArrayInfo.arrayValue, x.2.2)) =
      some (true, [some (ascii "a"), some (ascii "*"), some (ascii "\n"), some (ascii "\r")], []) ∧
    ¬ Received [pushOf 97, pushOf 98] [ascii "*1\r\n$1\r\na\r\n*1\r\n$1\r\nb\r\n"] := by
  refine ⟨?_, by unfold IsRead; decide, by decide, by decide, by decide⟩
  intro m hm
  rcases mem_pair.1 hm with rfl | rfl
  · exact isPush_pushOf 97
  · exact isPush_pushOf 98

end GBDownLinker
