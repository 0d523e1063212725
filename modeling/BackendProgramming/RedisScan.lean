/-
**The resumable parser for the reply to `SCAN` (`redisconnection.cpp`).**

`RedisConnection::parseScanReply` takes one line in every state.  It is looked for with `strstr`, whatever its
length has been announced as, and copied into a local buffer of 256 bytes.  In front of a length `parseBuf` moves
past the sign before the end of the line is looked for.
-/

import BackendProgramming.RedisConnection

set_option autoImplicit false

namespace GBDownLinker

open CText List Option

/-! ### The parser -/

def scanBuffSize : ℕ := 256

structure Scan where
  conn : Connection
  info : RedisReplyInfo
  deriving DecidableEq, Repr

inductive ScanIter where
  | next (s : Scan) (k : ℕ)
  | checkBuf (k : ℕ)
  | ret (s : Scan)
  | fault
  deriving DecidableEq, Repr

def Scan.enter (s : Scan) (st : RedisParseState) : Scan :=
  { s with conn := { s.conn with parseState := st } }

def Scan.finish (s : Scan) : Scan := { s with conn := { s.conn with valid := true } }

def scanType (s : Scan) (b : UInt8) : ScanIter :=
  match b with
  | 45 => .next { s.enter .result with info := { s.info with replyType := .error } } 1
  | 42 => .next { s.enter .arrayLength with info := { s.info with replyType := .array } } 1
  | _ => .ret s.finish

def scanLine (size : ℕ) (mem : Bytes) (k : ℕ) (f : Bytes → ScanIter) : ScanIter :=
  match strstrCrlf mem with
  | .overrun => .fault
  | .absent => .checkBuf k
  | .found p => if size < p then .fault else f (mem.take p)

def scanNumber (mem : Bytes) (k : ℕ) (f : ℤ → ℕ → ScanIter) : ScanIter :=
  scanLine (scanBuffSize - 1) mem k fun line => f (atoi line) (k + line.length + 2)

def scanSigned (s : Scan) (sign : UInt8) (mem : Bytes) (f : ℤ → ℕ → ScanIter) : ScanIter :=
  if mem.head? = some sign then scanNumber (mem.drop 1) 1 f else .ret s.finish

def Scan.readCount (s : Scan) (n : ℤ) (k : ℕ) : ScanIter :=
  let s' : Scan := { s with conn := { s.conn with arrayNum := n } }
  if n < 0 then .ret s'.finish
  else if n = 0 then .ret s'.finish
  else .next (s'.enter .keyLen) k

def keyInfo (key : Bytes) : ReplyArrayInfo := ⟨.string, some key, key.length⟩

def Scan.readKey (s : Scan) (key : Bytes) : ScanIter :=
  let s' : Scan :=
    ⟨{ s.conn with doneNum := s.conn.doneNum + 1 },
      { s.info with arrayList := s.info.arrayList ++ [keyInfo key] }⟩
  if s'.conn.doneNum < s'.conn.arrayNum then .next (s'.enter .keyLen) (key.length + 2)
  else .ret s'.finish

def parseScanIter (s : Scan) (mem : Bytes) : ScanIter :=
  match s.conn.parseState with
  | .type => scanType s (mem.headD 0)
  | .result => scanLine (scanBuffSize - 1) mem 0 fun line =>
    .ret (Scan.finish { s with info := { s.info with resultString := line } })
  | .arrayLength => scanNumber mem 0 fun n k =>
    if n ≠ 2 then .ret s.finish else .next (s.enter .cursorLen) k
  | .cursorLen => scanSigned s 36 mem fun n k =>
    if n < 0 then .ret s.finish else .next (s.enter .cursor) k
  | .cursor => scanNumber mem 0 fun n k =>
    if n < 0 then .ret s.finish
    else .next { s.enter .keysLen with info := { s.info with intValue := n } } k
  | .keysLen => scanSigned s 42 mem s.readCount
  | .keyLen => scanSigned s 36 mem fun n k =>
    if n < 0 then .ret s.finish else .next (s.enter .key) k
  | .key => scanLine scanBuffSize mem 0 s.readKey
  | _ => .ret s.finish

def Scan.saveTail (s : Scan) (tail : Bytes) : Scan :=
  if s.conn.valid = false ∧ tail ≠ [] then { s with conn := { s.conn with unparseBuf := tail } }
  else s

def scanLoop : ℕ → Scan → Bytes → ℕ → Option Scan
  | _, s, _, 0 => some s
  | 0, _, _, _ + 1 => none
  | fuel + 1, s, mem, n + 1 =>
    match parseScanIter s mem with
    | .next s' k => scanLoop fuel s' (mem.drop k) (n + 1 - k)
    | .checkBuf k => some (s.saveTail ((mem.drop k).take (n + 1 - k)))
    | .ret s' => some s'
    | .fault => none

def parseScanReply (c : Connection) (info : RedisReplyInfo) (parseBuf : Bytes) (parseLen : ℕ) :
    Option (Connection × RedisReplyInfo) :=
  let c := if c.parseState = .unknownState then { c with parseState := .type } else c
  (scanLoop parseLen ⟨c, info⟩ parseBuf parseLen).map fun s => (s.conn, s.info)

/-! ### The receive loop -/

inductive ReplyParserType where
  | common
  | scan
  deriving DecidableEq, Repr

def ReplyParserType.parser : ReplyParserType → Connection → RedisReplyInfo → Bytes → ℕ →
    Option (Connection × RedisReplyInfo)
  | .common => parse
  | .scan => parseScanReply

def recvStepWith (parserType : ReplyParserType) (r : Receiver) (d : Bytes) : Option Receiver :=
  let toParseLen := r.conn.unparseBuf.length + d.length
  let mallocLen := r.bufLen d.length
  if 2 ^ 31 ≤ mallocLen ∨ mallocLen < toParseLen then none
  else
    let toParseBuf := r.conn.unparseBuf ++ d ++ List.replicate (mallocLen - toParseLen) 0
    (parserType.parser { r.conn with unparseBuf := [] } r.info toParseBuf toParseLen).map
      fun x => ⟨x.1, x.2, mallocLen⟩

def recvLoopWith (parserType : ReplyParserType) :
    Receiver → List Bytes → Option (Bool × RedisReplyInfo × List Bytes)
  | r, [] => some (r.conn.valid, r.info, [])
  | r, d :: ds =>
    if r.conn.valid then some (true, r.info, d :: ds)
    else (recvStepWith parserType r d).bind fun r' => recvLoopWith parserType r' ds

def recvWith (parserType : ReplyParserType) (reads : List Bytes) :
    Option (Bool × RedisReplyInfo × List Bytes) :=
  recvLoopWith parserType {} reads

theorem recvLoopWith_common (r : Receiver) (reads : List Bytes) :
    recvLoopWith .common r reads = recvLoop r reads := by
  induction reads generalizing r with
  | nil => rfl
  | cons d ds ih =>
    rw [recvLoopWith, recvLoop, show recvStepWith .common r d = recvStep r d from rfl]
    simp only [ih]

theorem recvLoopWith_valid {parserType : ReplyParserType} {r : Receiver} (h : r.conn.valid = true)
    (reads : List Bytes) : recvLoopWith parserType r reads = some (true, r.info, reads) := by
  cases reads with
  | nil => rw [recvLoopWith, h]
  | cons d ds => rw [recvLoopWith, if_pos h]

/-! ### What the parser can yield -/

def KeyFits (key : Bytes) : Prop := key.length ≤ scanBuffSize ∧ IsOneLine key

instance (key : Bytes) : Decidable (KeyFits key) := inferInstanceAs (Decidable (_ ∧ _))

structure Scan.Sound (s : Scan) : Prop where
  intValue : s.info.intValue < 2 ^ 31
  arrayNum : s.conn.arrayNum < 2 ^ 31
  doneNum : s.conn.doneNum = s.info.arrayList.length
  length : s.info.arrayList.length < 2 ^ 31
  before : s.conn.valid = false → s.conn.parseState ≠ .keyLen → s.conn.parseState ≠ .key →
    s.info.arrayList = []
  within : s.conn.valid = false → s.conn.parseState = .keyLen ∨ s.conn.parseState = .key →
    s.conn.doneNum < s.conn.arrayNum
  keys : ∀ a ∈ s.info.arrayList, ∃ key, KeyFits key ∧ a = keyInfo key

theorem Scan.Sound.finish {s : Scan} (h : s.Sound) : s.finish.Sound where
  intValue := h.intValue
  arrayNum := h.arrayNum
  doneNum := h.doneNum
  length := h.length
  before := by simp [Scan.finish]
  within := by simp [Scan.finish]
  keys := h.keys

def ScanIter.Sound : ScanIter → Prop
  | .next s _ => s.Sound ∧ s.conn.valid = false
  | .ret s => s.Sound
  | _ => True

theorem scanLine_sound {size k : ℕ} {mem : Bytes} {f : Bytes → ScanIter}
    (hf : ∀ line, line.length ≤ size → IsOneLine line → (f line).Sound) :
    (scanLine size mem k f).Sound := by
  unfold scanLine
  split
  · trivial
  · trivial
  · next p hfound =>
    split
    · trivial
    · next hp =>
      refine hf _ ?_ (isOneLine_of_found hfound)
      rw [length_take]
      omega

theorem scanNumber_sound {mem : Bytes} {k : ℕ} {f : ℤ → ℕ → ScanIter}
    (hf : ∀ n j, n < 2 ^ 31 → (f n j).Sound) : (scanNumber mem k f).Sound :=
  scanLine_sound fun line _ _ => hf _ _ (atoi_lt line)

section Sound

variable {s : Scan}

theorem scanSigned_sound (h : s.Sound) {sign : UInt8} {mem : Bytes} {f : ℤ → ℕ → ScanIter}
    (hf : ∀ n j, n < 2 ^ 31 → (f n j).Sound) : (scanSigned s sign mem f).Sound := by
  unfold scanSigned
  split
  · exact scanNumber_sound hf
  · exact h.finish

theorem Scan.Sound.enter (h : s.Sound) (hvalid : s.conn.valid = false)
    (hnil : s.info.arrayList = []) (st : RedisParseState) (info : RedisReplyInfo)
    (hlist : info.arrayList = s.info.arrayList) (hint : info.intValue < 2 ^ 31) (k : ℕ)
    (h₁ : st ≠ .keyLen) (h₂ : st ≠ .key) :
    (ScanIter.next { s.enter st with info } k).Sound :=
  ⟨{ intValue := hint
     arrayNum := h.arrayNum
     doneNum := hlist ▸ h.doneNum
     length := hlist ▸ h.length
     before := fun _ _ _ => hlist.trans hnil
     within := fun _ hst => (hst.elim h₁ h₂).elim
     keys := hlist ▸ h.keys }, hvalid⟩

theorem Scan.Sound.readCount (h : s.Sound) (hvalid : s.conn.valid = false)
    (hnil : s.info.arrayList = []) {n : ℤ} (hn : n < 2 ^ 31) (k : ℕ) : (s.readCount n k).Sound := by
  have hset : ∀ st valid, valid = true ∨ 0 < n →
      Scan.Sound ⟨{ s.conn with arrayNum := n, parseState := st, valid := valid }, s.info⟩ := by
    intro st valid hor
    refine ⟨h.intValue, hn, h.doneNum, h.length, fun _ _ _ => hnil, fun hopen _ => ?_, h.keys⟩
    have hdone : s.conn.doneNum = 0 := by rw [h.doneNum, hnil]; rfl
    rcases hor with hv | hpos
    · exact absurd (hv.symm.trans hopen) (by decide)
    · exact hdone ▸ hpos
  unfold Scan.readCount
  simp only
  split
  · exact hset _ true (Or.inl rfl)
  · split
    · exact hset _ true (Or.inl rfl)
    · exact ⟨hset .keyLen s.conn.valid (Or.inr (by omega)), hvalid⟩

theorem Scan.Sound.readKey (h : s.Sound) (hvalid : s.conn.valid = false)
    (hlt : s.conn.doneNum < s.conn.arrayNum) {key : Bytes} (hkey : KeyFits key) :
    (s.readKey key).Sound := by
  have hnum := h.arrayNum
  have hdone := h.doneNum
  have hcount : s.conn.doneNum + 1 = ((s.info.arrayList ++ [keyInfo key]).length : ℤ) := by
    simp [hdone]
  have hlength : (s.info.arrayList ++ [keyInfo key]).length < 2 ^ 31 := by omega
  have hkeys : ∀ a ∈ s.info.arrayList ++ [keyInfo key], ∃ key, KeyFits key ∧ a = keyInfo key := by
    intro a ha
    rcases mem_append.1 ha with ha | ha
    · exact h.keys a ha
    · exact ⟨key, hkey, mem_singleton.1 ha⟩
  unfold Scan.readKey
  simp only
  split
  · next hmore =>
    exact ⟨⟨h.intValue, hnum, hcount, hlength, fun _ hst => absurd rfl hst, fun _ _ => hmore,
      hkeys⟩, hvalid⟩
  · exact ⟨h.intValue, hnum, hcount, hlength, fun hopen => absurd hopen (by simp [Scan.finish]),
      fun hopen => absurd hopen (by simp [Scan.finish]), hkeys⟩

theorem Scan.Sound.iter (h : s.Sound) (hvalid : s.conn.valid = false) (mem : Bytes) :
    (parseScanIter s mem).Sound := by
  have hnil := h.before hvalid
  unfold parseScanIter
  split
  case h_1 hst =>
    have hlist := hnil (by simp [hst]) (by simp [hst])
    unfold scanType
    split
    · exact h.enter hvalid hlist .result { s.info with replyType := .error } rfl h.intValue 1
        (by decide) (by decide)
    · exact h.enter hvalid hlist .arrayLength { s.info with replyType := .array } rfl h.intValue 1
        (by decide) (by decide)
    · exact h.finish
  case h_2 =>
    refine scanLine_sound fun line _ _ => ?_
    have hset : Scan.Sound { s with info := { s.info with resultString := line } } :=
      ⟨h.intValue, h.arrayNum, h.doneNum, h.length, h.before, h.within, h.keys⟩
    exact hset.finish
  case h_3 hst =>
    have hlist := hnil (by simp [hst]) (by simp [hst])
    refine scanNumber_sound fun n j _ => ?_
    split
    · exact h.finish
    · exact h.enter hvalid hlist .cursorLen s.info rfl h.intValue j (by decide) (by decide)
  case h_4 hst =>
    have hlist := hnil (by simp [hst]) (by simp [hst])
    refine scanSigned_sound h fun n j _ => ?_
    split
    · exact h.finish
    · exact h.enter hvalid hlist .cursor s.info rfl h.intValue j (by decide) (by decide)
  case h_5 hst =>
    have hlist := hnil (by simp [hst]) (by simp [hst])
    refine scanNumber_sound fun n j hn => ?_
    split
    · exact h.finish
    · exact h.enter hvalid hlist .keysLen { s.info with intValue := n } rfl hn j (by decide) (by decide)
  case h_6 hst =>
    have hlist := hnil (by simp [hst]) (by simp [hst])
    exact scanSigned_sound h fun n j hn => h.readCount hvalid hlist hn j
  case h_7 hst =>
    refine scanSigned_sound h fun n j _ => ?_
    split
    · exact h.finish
    · exact ⟨⟨h.intValue, h.arrayNum, h.doneNum, h.length, fun _ _ hkey => absurd rfl hkey,
        fun _ _ => h.within hvalid (Or.inl hst), h.keys⟩, hvalid⟩
  case h_8 hst =>
    exact scanLine_sound fun key hlen hline =>
      h.readKey hvalid (h.within hvalid (Or.inr hst)) ⟨hlen, hline⟩
  case h_9 => exact h.finish

theorem Scan.Sound.unparse (h : s.Sound) (tail : Bytes) :
    Scan.Sound { s with conn := { s.conn with unparseBuf := tail } } :=
  ⟨h.intValue, h.arrayNum, h.doneNum, h.length, h.before, h.within, h.keys⟩

theorem Scan.Sound.saveTail (h : s.Sound) (tail : Bytes) : (s.saveTail tail).Sound := by
  unfold Scan.saveTail
  split
  · exact h.unparse tail
  · exact h

theorem Scan.Sound.loop {s' : Scan} (fuel : ℕ) (h : s.Sound) (hvalid : s.conn.valid = false)
    {mem : Bytes} {n : ℕ} (hs' : scanLoop fuel s mem n = some s') : s'.Sound := by
  induction fuel generalizing s mem n with
  | zero =>
    cases n with
    | zero => exact some.inj hs' ▸ h
    | succ n => cases hs'
  | succ fuel ih =>
    cases n with
    | zero => exact some.inj hs' ▸ h
    | succ n =>
      have hiter := h.iter hvalid mem
      rw [scanLoop] at hs'
      split at hs'
      · next s₁ k heq =>
        rw [heq] at hiter
        exact ih hiter.1 hiter.2 hs'
      · exact some.inj hs' ▸ h.saveTail _
      · next s₁ heq =>
        rw [heq] at hiter
        exact some.inj hs' ▸ hiter
      · cases hs'

end Sound

theorem recvStepWith_sound {r r' : Receiver} {d : Bytes} (h : Scan.Sound ⟨r.conn, r.info⟩)
    (hvalid : r.conn.valid = false) (hstep : recvStepWith .scan r d = some r') :
    Scan.Sound ⟨r'.conn, r'.info⟩ := by
  simp only [recvStepWith] at hstep
  split at hstep
  · cases hstep
  · obtain ⟨x, hx, rfl⟩ := map_eq_some_iff.1 hstep
    obtain ⟨s, hs, rfl⟩ := map_eq_some_iff.1 hx
    have hclear := h.unparse []
    refine Scan.Sound.loop _ ?_ ?_ hs
    · -- only the state can differ, and neither of the two is a state among the keys
      split
      · next hst =>
        have hlist := h.before hvalid (by rw [hst]; decide) (by rw [hst]; decide)
        exact (hclear.enter hvalid hlist .type r.info rfl h.intValue 0 (by decide)
          (by decide)).1
      · exact hclear
    · split <;> exact hvalid

theorem recvLoopWith_sound (reads : List Bytes) {r : Receiver} (h : Scan.Sound ⟨r.conn, r.info⟩)
    {ok : Bool} {info : RedisReplyInfo} {rest : List Bytes}
    (hrun : recvLoopWith .scan r reads = some (ok, info, rest)) :
    ∃ conn, Scan.Sound ⟨conn, info⟩ := by
  induction reads generalizing r with
  | nil =>
    obtain ⟨-, hinfo⟩ := Prod.mk.inj (some.inj hrun)
    exact ⟨r.conn, (Prod.mk.inj hinfo).1 ▸ h⟩
  | cons d ds ih =>
    rw [recvLoopWith] at hrun
    split at hrun
    · obtain ⟨-, hinfo⟩ := Prod.mk.inj (some.inj hrun)
      exact ⟨r.conn, (Prod.mk.inj hinfo).1 ▸ h⟩
    · next hvalid =>
      obtain ⟨r', hstep, hrest⟩ := Option.bind_eq_some_iff.1 hrun
      exact ih (recvStepWith_sound h (Bool.eq_false_iff.2 hvalid) hstep) hrest

theorem recvWith_sound {reads : List Bytes} {ok : Bool} {info : RedisReplyInfo} {rest : List Bytes}
    (hrun : recvWith .scan reads = some (ok, info, rest)) :
    info.intValue < 2 ^ 31 ∧ info.arrayList.length < 2 ^ 31 ∧
      ∀ a ∈ info.arrayList, ∃ key, KeyFits key ∧ a = keyInfo key := by
  have hstart : Scan.Sound ⟨({} : Receiver).conn, ({} : Receiver).info⟩ :=
    ⟨by decide, by decide, rfl, by decide, fun _ _ _ => rfl,
      fun _ hst => absurd hst (by decide), by simp⟩
  obtain ⟨conn, h⟩ := recvLoopWith_sound reads hstart hrun
  exact ⟨h.intValue, h.length, h.keys⟩

end GBDownLinker
