/-
**Receiving the reply to `SCAN` in pieces.**

If a read ends inside the line of a length, the sign is gone when the next call begins: the parser looks for it
again, does not find it, and reports the reply as complete.  What has been taken by then is all that the caller
gets.
-/

import BackendProgramming.RedisScan
import BackendProgramming.RedisRecv

set_option autoImplicit false

namespace GBDownLinker

open CText List Option

/-! ### The reply -/

def bulk (body : Bytes) : Bytes := 36 :: (decimal body.length ++ crlf) ++ (body ++ crlf)

def scanReply (cursor : ℕ) (keys : List Bytes) : Bytes :=
  ascii "*2\r\n" ++ bulk (decimal cursor) ++ 42 :: (decimal keys.length ++ crlf) ++ keys.flatMap bulk

structure Piece where
  header : Bool
  text : Bytes
  deriving DecidableEq, Repr

def bulkPieces (body : Bytes) : List Piece :=
  [⟨true, 36 :: (decimal body.length ++ crlf)⟩, ⟨false, body ++ crlf⟩]

def scanPieces (cursor : ℕ) (keys : List Bytes) : List Piece :=
  ⟨false, ascii "*"⟩ :: ⟨false, ascii "2\r\n"⟩ :: bulkPieces (decimal cursor) ++
    ⟨true, 42 :: (decimal keys.length ++ crlf)⟩ :: keys.flatMap bulkPieces

def bytes (pieces : List Piece) : Bytes := pieces.flatMap Piece.text

@[simp] theorem bytes_nil : bytes [] = [] := rfl

@[simp] theorem bytes_cons (p : Piece) (l : List Piece) : bytes (p :: l) = p.text ++ bytes l := rfl

@[simp] theorem bytes_append (l l' : List Piece) : bytes (l ++ l') = bytes l ++ bytes l' := by
  simp [bytes]

theorem bytes_bulkPieces (body : Bytes) : bytes (bulkPieces body) = bulk body := by
  simp [bulkPieces, bulk]

theorem bytes_scanPieces (cursor : ℕ) (keys : List Bytes) :
    bytes (scanPieces cursor keys) = scanReply cursor keys := by
  have hkeys : bytes (keys.flatMap bulkPieces) = keys.flatMap bulk := by
    induction keys with
    | nil => rfl
    | cons key keys ih => simp [ih, bytes_bulkPieces]
  have hstart : ascii "*2\r\n" = ascii "*" ++ ascii "2\r\n" := by decide
  simp [scanPieces, scanReply, bytes_bulkPieces, hkeys, hstart]

def tears : List Piece → ℕ → Bool
  | [], _ => false
  | p :: l, c => if c < p.text.length then p.header && decide (0 < c) else tears l (c - p.text.length)

theorem tears_at (l l' : List Piece) (p : Piece) {k : ℕ} (hk : k < p.text.length) :
    tears (l ++ p :: l') ((bytes l).length + k) = (p.header && decide (0 < k)) := by
  induction l with
  | nil => simp [tears, hk]
  | cons p' l ih =>
    rw [cons_append, tears, if_neg (by simp; omega), ← ih]
    congr 1
    simp
    omega

def cut (reads : List Bytes) (i : ℕ) : ℕ := (reads.take i).flatten.length

@[simp] theorem cut_zero (reads : List Bytes) : cut reads 0 = 0 := by simp [cut]

theorem cut_cons (d : Bytes) (ds : List Bytes) (i : ℕ) :
    cut (d :: ds) (i + 1) = d.length + cut ds i := by
  simp [cut]

/-! ### One piece -/

structure Takes (s : Scan) (p : Piece) (iter : ScanIter) : Prop where
  valid : s.conn.valid = false
  unparse : s.conn.unparseBuf = []
  awake : s.conn.parseState ≠ .unknownState
  pos : 0 < p.text.length
  short : p.text.length ≤ 258
  whole : ∀ rest, parseScanIter s (p.text ++ rest) = iter
  waits : ∀ q more pad, q ≠ [] → more ≠ [] → q ++ more = p.text →
    parseScanIter s (q ++ 0 :: pad) = .checkBuf (if p.header then 1 else 0)
  torn : p.header = true → ∃ b text, p.text.tail = b :: text ∧
    ∀ mem, parseScanIter s (b :: mem) = .ret s.finish

theorem scanLine_whole {size k : ℕ} {text : Bytes} {f : Bytes → ScanIter} (htext : IsOneLine text)
    (hsize : text.length ≤ size) (rest : Bytes) :
    scanLine size (text ++ (crlf ++ rest)) k f = f text := by
  rw [scanLine, strstrCrlf_oneLine htext]
  simp only
  rw [if_neg (by omega), take_left]

theorem scanLine_waits {size k : ℕ} {text q more : Bytes} {f : Bytes → ScanIter}
    (htext : IsOneLine text) (hmore : more ≠ []) (h : q ++ more = text ++ crlf) (pad : Bytes) :
    scanLine size (q ++ 0 :: pad) k f = .checkBuf k := by
  rw [scanLine, strstrCrlf_absent (htext.unfinished hmore h)]

theorem isOneLine_decimal (n : ℕ) : IsOneLine (decimal n) :=
  .of_isOpen (.of_digits (isDigit_of_mem_decimal n))

theorem length_decimal_lt {n : ℕ} (h : n < 2 ^ 31) : (decimal n).length ≤ 10 :=
  length_decimal_le (by decide) (show n < 10 ^ 10 by omega)

theorem scanNumber_whole {k n : ℕ} {f : ℤ → ℕ → ScanIter} (hn : n < 2 ^ 31) (rest : Bytes) :
    scanNumber (decimal n ++ (crlf ++ rest)) k f = f n (k + (decimal n).length + 2) := by
  have hlen := length_decimal_lt hn
  rw [scanNumber, scanLine_whole (isOneLine_decimal n) (by rw [scanBuffSize]; omega), atoi_decimal hn]

section Piece

variable {s : Scan} {iter : ScanIter}

theorem takes_number {n : ℕ} {f : ℤ → ℕ → ScanIter} (hvalid : s.conn.valid = false)
    (hunparse : s.conn.unparseBuf = []) (hawake : s.conn.parseState ≠ .unknownState)
    (hiter : ∀ mem, parseScanIter s mem = scanNumber mem 0 f) (hn : n < 2 ^ 31)
    (hf : f n ((decimal n).length + 2) = iter) : Takes s ⟨false, decimal n ++ crlf⟩ iter where
  valid := hvalid
  unparse := hunparse
  awake := hawake
  pos := by simp
  short := by
    have hlen := length_decimal_lt hn
    simp only [length_append, length_crlf]
    omega
  whole := by
    intro rest
    rw [hiter, append_assoc, scanNumber_whole hn, Nat.zero_add, hf]
  waits := by
    intro q more pad _ hmore h
    rw [hiter, scanNumber, scanLine_waits (isOneLine_decimal n) hmore h]
    rfl
  torn := by simp

theorem takes_signed {n : ℕ} {sign : UInt8} {f : ℤ → ℕ → ScanIter} (hvalid : s.conn.valid = false)
    (hunparse : s.conn.unparseBuf = []) (hawake : s.conn.parseState ≠ .unknownState)
    (hiter : ∀ mem, parseScanIter s mem = scanSigned s sign mem f) (hsign : isDigit sign = false)
    (hn : n < 2 ^ 31) (hf : f n ((decimal n).length + 3) = iter) :
    Takes s ⟨true, sign :: (decimal n ++ crlf)⟩ iter where
  valid := hvalid
  unparse := hunparse
  awake := hawake
  pos := by simp
  short := by
    have hlen := length_decimal_lt hn
    simp only [length_cons, length_append, length_crlf]
    omega
  whole := by
    intro rest
    rw [hiter, scanSigned, if_pos (by simp), cons_append, drop_succ_cons, drop_zero,
      append_assoc, scanNumber_whole hn, ← hf]
    congr 1
    omega
  waits := by
    intro q more pad hq hmore h
    obtain ⟨b, q, rfl⟩ := exists_cons_of_ne_nil hq
    obtain ⟨rfl, hrest⟩ := cons.inj h
    rw [hiter, scanSigned, if_pos (by simp), cons_append, drop_succ_cons, drop_zero,
      scanNumber, scanLine_waits (isOneLine_decimal n) hmore hrest]
    rfl
  torn := by
    intro _
    obtain ⟨b, digits, hb⟩ := exists_cons_of_ne_nil (decimal_ne_nil n)
    refine ⟨b, digits ++ crlf, by simp [hb], fun mem => ?_⟩
    have hdigit := isDigit_of_mem_decimal n b (by simp [hb])
    rw [hiter, scanSigned, if_neg (by simpa using isDigit_ne hdigit hsign)]

theorem takes_key {key : Bytes} (hvalid : s.conn.valid = false) (hunparse : s.conn.unparseBuf = [])
    (hst : s.conn.parseState = .key) (hkey : KeyFits key) (hread : s.readKey key = iter) :
    Takes s ⟨false, key ++ crlf⟩ iter := by
  have hiter : ∀ mem, parseScanIter s mem = scanLine scanBuffSize mem 0 s.readKey := by
    intro mem
    rw [parseScanIter, hst]
  refine ⟨hvalid, hunparse, by simp [hst], by simp, ?_, fun rest => ?_, fun q more pad _ hmore h => ?_, by simp⟩
  · have hlen : key.length ≤ 256 := hkey.1
    simp only [length_append, length_crlf]
    omega
  · rw [hiter, append_assoc, scanLine_whole hkey.2 hkey.1, hread]
  · rw [hiter, scanLine_waits hkey.2 hmore h]
    rfl

end Piece

/-! ### The pieces one after the other -/

structure Stage where
  state : Scan
  piece : Piece
  deriving DecidableEq, Repr

def pieces (l : List Stage) : List Piece := l.map Stage.piece

@[simp] theorem pieces_cons (g : Stage) (l : List Stage) :
    pieces (g :: l) = g.piece :: pieces l := rfl

@[simp] theorem pieces_append (l l' : List Stage) : pieces (l ++ l') = pieces l ++ pieces l' :=
  map_append

def following (t : Scan) (p : Piece) : List Stage → ScanIter
  | [] => .ret t
  | g :: _ => .next g.state p.text.length

def Script (t : Scan) : List Stage → Prop
  | [] => True
  | g :: l => Takes g.state g.piece (following t g.piece l) ∧ Script t l

theorem Script.takes {t : Scan} {l : List Stage} {g : Stage} {l' : List Stage}
    (h : Script t (l ++ g :: l')) : Script t (g :: l') := by
  induction l with
  | nil => exact h
  | cons g' l ih => exact ih h.2

def Piece.kept (p : Piece) (q : Bytes) : Bytes := if p.header then q.drop 1 else q

theorem saveTail_eq {s : Scan} (hvalid : s.conn.valid = false) (hunparse : s.conn.unparseBuf = [])
    (tail : Bytes) : s.saveTail tail = { s with conn := { s.conn with unparseBuf := tail } } := by
  unfold Scan.saveTail
  split
  · rfl
  · next h =>
    have hnil : tail = [] := by
      by_contra hne
      exact h ⟨hvalid, hne⟩
    rw [hnil, ← hunparse]

theorem scanLoop_waits {s : Scan} {p : Piece} {iter : ScanIter} (h : Takes s p iter)
    {q more : Bytes} (hmore : more ≠ []) (hq : q ++ more = p.text) (pad : Bytes) {fuel : ℕ}
    (hfuel : q.length ≤ fuel) :
    scanLoop fuel s (q ++ 0 :: pad) q.length =
      some { s with conn := { s.conn with unparseBuf := p.kept q } } := by
  cases q with
  | nil =>
    have hkept : p.kept [] = [] := by unfold Piece.kept; split <;> rfl
    have hloop : scanLoop fuel s ([] ++ 0 :: pad) ([] : Bytes).length = some s := by
      cases fuel <;> rfl
    rw [hloop, hkept, ← saveTail_eq h.valid h.unparse]
    simp [Scan.saveTail]
  | cons b q =>
    obtain ⟨fuel, rfl⟩ := Nat.exists_eq_succ_of_ne_zero (n := fuel) (by simp at hfuel; omega)
    have hdrop : ∀ k ≤ 1, ((b :: q ++ 0 :: pad).drop k).take ((b :: q).length - k) =
        (b :: q).drop k := by
      intro k hk
      rw [drop_append_of_le_length (by simp; omega), take_left' (by simp)]
    rw [length_cons, scanLoop, h.waits (b :: q) more pad (by simp) hmore hq]
    simp only
    rw [saveTail_eq h.valid h.unparse, ← length_cons, hdrop _ (by split <;> omega)]
    unfold Piece.kept
    split <;> rfl

theorem scanLoop_next {s s' : Scan} {p : Piece} (h : Takes s p (.next s' p.text.length))
    (q pad : Bytes) {fuel : ℕ} (hfuel : (p.text ++ q).length ≤ fuel) :
    ∃ fuel', q.length ≤ fuel' ∧ scanLoop fuel s (p.text ++ q ++ 0 :: pad) (p.text ++ q).length =
      scanLoop fuel' s' (q ++ 0 :: pad) q.length := by
  have hpos := h.pos
  rw [length_append] at hfuel ⊢
  obtain ⟨fuel, rfl⟩ := Nat.exists_eq_succ_of_ne_zero (n := fuel) (by omega)
  obtain ⟨n, hn⟩ := Nat.exists_eq_succ_of_ne_zero (n := p.text.length + q.length) (by omega)
  refine ⟨fuel, by omega, ?_⟩
  rw [hn, scanLoop, append_assoc, h.whole]
  simp only
  rw [drop_left, ← Nat.succ_eq_add_one, ← hn, Nat.add_sub_cancel_left]

theorem scanLoop_last {s t : Scan} {p : Piece} (h : Takes s p (.ret t)) (q pad : Bytes) {fuel : ℕ}
    (hfuel : (p.text ++ q).length ≤ fuel) :
    scanLoop fuel s (p.text ++ q ++ 0 :: pad) (p.text ++ q).length = some t := by
  have hpos := h.pos
  rw [length_append] at hfuel ⊢
  obtain ⟨fuel, rfl⟩ := Nat.exists_eq_succ_of_ne_zero (n := fuel) (by omega)
  obtain ⟨n, hn⟩ := Nat.exists_eq_succ_of_ne_zero (n := p.text.length + q.length) (by omega)
  rw [hn, scanLoop, append_assoc, h.whole]

theorem piece_arrived {p : Piece} {q future later : Bytes} (h : q ++ future = p.text ++ later) :
    (∃ more, more ≠ [] ∧ q ++ more = p.text) ∨ ∃ q', q = p.text ++ q' ∧ q' ++ future = later := by
  rcases append_eq_append_iff.1 h with ⟨more, htext, hfuture⟩ | ⟨q', hq, hlater⟩
  · by_cases hmore : more = []
    · subst hmore
      exact Or.inr ⟨[], by simpa using htext.symm, by simpa using hfuture⟩
    · exact Or.inl ⟨more, hmore, htext.symm⟩
  · exact Or.inr ⟨q', hq, hlater.symm⟩

theorem scanLoop_script {t : Scan} (l : List Stage) {g : Stage} (h : Script t (g :: l))
    {q future : Bytes} (hq : q ++ future = bytes (pieces (g :: l))) (pad : Bytes) {fuel : ℕ}
    (hfuel : q.length ≤ fuel) :
    (future = [] ∧ scanLoop fuel g.state (q ++ 0 :: pad) q.length = some t) ∨
    ∃ l₁ g' l₂ q', g :: l = l₁ ++ g' :: l₂ ∧ q = bytes (pieces l₁) ++ q' ∧
      q'.length < g'.piece.text.length ∧ scanLoop fuel g.state (q ++ 0 :: pad) q.length =
        some { g'.state with conn := { g'.state.conn with unparseBuf := g'.piece.kept q' } } := by
  induction l generalizing g q fuel with
  | nil =>
    rcases piece_arrived hq with ⟨more, hmore, htext⟩ | ⟨q', rfl, hlater⟩
    · refine Or.inr ⟨[], g, [], q, rfl, rfl, ?_, scanLoop_waits h.1 hmore htext pad hfuel⟩
      rw [← htext, length_append]
      exact Nat.lt_add_of_pos_right (length_pos_iff.2 hmore)
    · exact Or.inl ⟨(append_eq_nil_iff.1 hlater).2, scanLoop_last h.1 q' pad hfuel⟩
  | cons g₁ l ih =>
    rcases piece_arrived hq with ⟨more, hmore, htext⟩ | ⟨q', rfl, hlater⟩
    · refine Or.inr ⟨[], g, g₁ :: l, q, rfl, rfl, ?_, scanLoop_waits h.1 hmore htext pad hfuel⟩
      rw [← htext, length_append]
      exact Nat.lt_add_of_pos_right (length_pos_iff.2 hmore)
    · obtain ⟨fuel', hfuel', hnext⟩ := scanLoop_next h.1 q' pad hfuel
      rw [hnext]
      rcases ih h.2 hlater hfuel' with hdone | ⟨l₁, g', l₂, q'', hl, hq', hlt, hwait⟩
      · exact Or.inl hdone
      · refine Or.inr ⟨g :: l₁, g', l₂, q'', by rw [hl]; rfl, ?_, hlt, hwait⟩
        simp [hq']

/-! ### One turn of the receive loop -/

structure Waiting (rc : Receiver) (g : Stage) (q : Bytes) : Prop where
  conn : rc.conn = { g.state.conn with unparseBuf := g.piece.kept q }
  info : rc.info = g.state.info
  fits : Fits rc.mallocLen (g.piece.kept q)

theorem Piece.length_kept_le (p : Piece) (q : Bytes) : (p.kept q).length ≤ q.length := by
  unfold Piece.kept
  split
  · rw [length_drop]
    omega
  · rfl

section Turn

variable {t : Scan} {g : Stage} {l : List Stage} {rc : Receiver} {q d future : Bytes}

theorem recvStepWith_scan {iter : ScanIter} (htakes : Takes g.state g.piece iter)
    (h : Waiting rc g q) (hq : q.length < g.piece.text.length) (hd : IsRead d) :
    ∃ m pad, (∀ tail : Bytes, tail.length ≤ (g.piece.kept q ++ d).length → Fits m tail) ∧
      recvStepWith .scan rc d = (scanLoop (g.piece.kept q ++ d).length g.state
        ((g.piece.kept q ++ d) ++ 0 :: pad) (g.piece.kept q ++ d).length).map
          fun s => ⟨s.conn, s.info, m⟩ := by
  have hunparse : rc.conn.unparseBuf = g.piece.kept q := by rw [h.conn]
  have hbuf : readBuffSize = 4096 := rfl
  have hshort := htakes.short
  have hkept := g.piece.length_kept_le q
  have hlen := hd.2
  obtain ⟨hsize, ⟨pad, hpad⟩, hm⟩ := Fits.buffer rc d (hunparse ▸ h.fits) hd.2
    (fun _ => by rw [hunparse]; omega)
  have hstate : ({ rc.conn with unparseBuf := [] } : Connection) = g.state.conn := by
    rw [h.conn, ← htakes.unparse]
  rw [hunparse] at hm
  refine ⟨_, pad, hm, ?_⟩
  simp only [recvStepWith]
  rw [if_neg hsize, hpad, hunparse, hstate, h.info, ReplyParserType.parser, parseScanReply,
    if_neg htakes.awake, length_append, Option.map_map]
  rfl

theorem recvStepWith_script (hscript : Script t (g :: l)) (h : Waiting rc g q)
    (hq : q.length < g.piece.text.length) (hd : IsRead d)
    (hbytes : q ++ (d ++ future) = bytes (pieces (g :: l)))
    (huntorn : g.piece.header = true → q = []) :
    ∃ rc', recvStepWith .scan rc d = some rc' ∧
      ((future = [] ∧ rc'.conn = t.conn ∧ rc'.info = t.info) ∨
        ∃ l₁ g' l₂ q', g :: l = l₁ ++ g' :: l₂ ∧ q ++ d = bytes (pieces l₁) ++ q' ∧
          q'.length < g'.piece.text.length ∧ Waiting rc' g' q') := by
  have hkept : g.piece.kept q = q := by
    unfold Piece.kept
    split
    · next hheader => rw [huntorn hheader]; rfl
    · rfl
  obtain ⟨m, pad, hm, hstep⟩ := recvStepWith_scan hscript.1 h hq hd
  rw [hkept] at hm hstep
  rw [← append_assoc] at hbytes
  rcases scanLoop_script l hscript hbytes pad le_rfl with
    ⟨hfuture, hloop⟩ | ⟨l₁, g', l₂, q', hl, hqd, hlt, hloop⟩
  · rw [hloop] at hstep
    exact ⟨_, hstep, Or.inl ⟨hfuture, rfl, rfl⟩⟩
  · rw [hloop] at hstep
    refine ⟨_, hstep, Or.inr ⟨l₁, g', l₂, q', hl, hqd, hlt, rfl, rfl, hm _ ?_⟩⟩
    rw [hqd, length_append]
    exact (g'.piece.length_kept_le q').trans (Nat.le_add_left _ _)

theorem recvStepWith_torn {iter : ScanIter} (htakes : Takes g.state g.piece iter)
    (h : Waiting rc g q) (hne : q ≠ []) (hheader : g.piece.header = true) (hd : IsRead d)
    (hq : q.length < g.piece.text.length) {later : Bytes}
    (hbytes : q ++ (d ++ future) = g.piece.text ++ later) :
    ∃ rc', recvStepWith .scan rc d = some rc' ∧ rc'.conn.valid = true ∧
      rc'.info = g.state.info := by
  obtain ⟨b, text, htail, htorn⟩ := htakes.torn hheader
  obtain ⟨m, pad, -, hstep⟩ := recvStepWith_scan htakes h hq hd
  obtain ⟨mem, hmem⟩ : ∃ mem, g.piece.kept q ++ d = b :: mem := by
    obtain ⟨sign, q, rfl⟩ := exists_cons_of_ne_nil hne
    obtain ⟨c, d, rfl⟩ := exists_cons_of_ne_nil hd.1
    have hkept : g.piece.kept (sign :: q) = q := by rw [Piece.kept, if_pos hheader]; rfl
    have htext : g.piece.text = sign :: b :: text := by
      obtain ⟨sign', text', htext⟩ := exists_cons_of_length_pos htakes.pos
      rw [htext] at htail hbytes
      rw [htext, (cons.inj hbytes).1, show text' = b :: text from htail]
    rw [hkept]
    rw [htext] at hbytes
    have hrest : q ++ (c :: (d ++ future)) = b :: (text ++ later) := (cons.inj hbytes).2
    cases q with
    | nil => exact ⟨d, by rw [(cons.inj hrest).1]; rfl⟩
    | cons b' q => exact ⟨q ++ c :: d, by rw [(cons.inj hrest).1]; rfl⟩
  rw [hmem, length_cons, scanLoop, cons_append, htorn] at hstep
  exact ⟨_, hstep, rfl, rfl⟩

end Turn

/-! ### The run -/

theorem recvLoopWith_script {t : Scan} {all : List Stage} (hscript : Script t all)
    (ht : t.conn.valid = true) (reads : List Bytes) (hreads : ∀ d ∈ reads, IsRead d)
    {l₀ l : List Stage} {g : Stage} {q : Bytes} {rc : Receiver} {c : ℕ} (hall : all = l₀ ++ g :: l)
    (h : Waiting rc g q) (hq : q.length < g.piece.text.length)
    (hbytes : q ++ reads.flatten = bytes (pieces (g :: l)))
    (hc : c = (bytes (pieces l₀)).length + q.length) :
    ((∀ i < reads.length, tears (pieces all) (c + cut reads i) = false) ∧
      recvLoopWith .scan rc reads = some (true, t.info, [])) ∨
    ∃ i < reads.length, (∀ j < i, tears (pieces all) (c + cut reads j) = false) ∧
      ∃ l₁ g' l₂, all = l₁ ++ g' :: l₂ ∧ g'.piece.header = true ∧
        (bytes (pieces l₁)).length < c + cut reads i ∧
        c + cut reads i < (bytes (pieces l₁)).length + g'.piece.text.length ∧
        recvLoopWith .scan rc reads = some (true, g'.state.info, reads.drop (i + 1)) := by
  induction reads generalizing l₀ g l q rc c with
  | nil =>
    have hlen := congrArg length hbytes
    simp only [flatten_nil, append_nil, pieces_cons, bytes_cons,
      length_append] at hlen
    omega
  | cons d ds ih =>
    have hrest : Script t (g :: l) := Script.takes (l := l₀) (hall ▸ hscript)
    have hd := hreads d (by simp)
    have hopen : rc.conn.valid = false := by rw [h.conn]; exact hrest.1.valid
    have htears : tears (pieces all) c = (g.piece.header && decide (0 < q.length)) := by
      rw [hall, hc, pieces_append, pieces_cons]
      exact tears_at _ _ _ hq
    have hloop : ∀ rc', recvStepWith .scan rc d = some rc' →
        recvLoopWith .scan rc (d :: ds) = recvLoopWith .scan rc' ds := by
      intro rc' hstep
      rw [recvLoopWith, if_neg (by simp [hopen]), hstep, bind_some]
    by_cases htorn : g.piece.header = true ∧ q ≠ []
    · -- the next turn stops, with what the parser had before this header
      obtain ⟨rc', hstep, hvalid, hinfo⟩ :=
        recvStepWith_torn hrest.1 h htorn.2 htorn.1 hd hq hbytes
      have hpos := length_pos_iff.2 htorn.2
      refine Or.inr ⟨0, by simp, by simp, l₀, g, l, hall, htorn.1, ?_, ?_, ?_⟩
      · rw [cut_zero]
        omega
      · rw [cut_zero]
        omega
      · rw [hloop rc' hstep, recvLoopWith_valid hvalid, hinfo]
        rfl
    · have huntorn : g.piece.header = true → q = [] := by
        intro hheader
        by_contra hne
        exact htorn ⟨hheader, hne⟩
      have hfirst : tears (pieces all) (c + cut (d :: ds) 0) = false := by
        rw [cut_zero, Nat.add_zero, htears]
        cases hheader : g.piece.header with
        | false => rfl
        | true => simp [huntorn hheader]
      obtain ⟨rc', hstep, ⟨hfuture, hconn, hinfo⟩ | ⟨l₁, g', l₂, q', hl, hqd, hlt, h'⟩⟩ :=
        recvStepWith_script hrest h hq hd hbytes huntorn
      · -- the last byte has come, so this was the last read
        have hds : ds = [] := by
          cases ds with
          | nil => rfl
          | cons d' ds =>
            have hne := (hreads d' (by simp)).1
            exact absurd (append_eq_nil_iff.1 hfuture).1 hne
        subst hds
        refine Or.inl ⟨fun i hi => ?_, ?_⟩
        · obtain rfl : i = 0 := by simpa using hi
          exact hfirst
        · rw [hloop rc' hstep, recvLoopWith_valid (hconn ▸ ht), hinfo]
      · have hbytes' : q' ++ ds.flatten = bytes (pieces (g' :: l₂)) := by
          rw [flatten_cons, ← append_assoc, hqd, hl, pieces_append, bytes_append,
            append_assoc] at hbytes
          exact append_cancel_left hbytes
        have hall' : all = (l₀ ++ l₁) ++ g' :: l₂ := by rw [hall, hl, append_assoc]
        have hc' : c + d.length = (bytes (pieces (l₀ ++ l₁))).length + q'.length := by
          have hlen := congrArg length hqd
          simp only [pieces_append, bytes_append, length_append] at hlen hc ⊢
          omega
        have hcut : ∀ i, c + cut (d :: ds) (i + 1) = c + d.length + cut ds i := by
          intro i
          rw [cut_cons, Nat.add_assoc]
        rw [hloop rc' hstep]
        rcases ih (fun d' hd' => hreads d' (mem_cons_of_mem _ hd')) hall' h' hlt hbytes' hc' with
          ⟨hcuts, hrun⟩ | ⟨i, hi, hcuts, l₁', g'', l₂', hsplit, hheader, hlo, hhi, hrun⟩
        · refine Or.inl ⟨fun i hi => ?_, hrun⟩
          cases i with
          | zero => exact hfirst
          | succ i => exact hcut i ▸ hcuts i (by simpa using hi)
        · refine Or.inr ⟨i + 1, by simpa using hi, fun j hj => ?_, l₁', g'', l₂', hsplit, hheader,
            hcut i ▸ hlo, hcut i ▸ hhi, hrun⟩
          cases j with
          | zero => exact hfirst
          | succ j => exact hcut j ▸ hcuts j (by omega)

/-! ### The script of a reply -/

def headState (st : RedisParseState) (cursor : ℤ) : Scan :=
  ⟨{ parseState := st }, { replyType := .array, intValue := cursor }⟩

def keyState (cursor n : ℕ) (st : RedisParseState) (done : List Bytes) : Scan :=
  ⟨{ parseState := st, arrayNum := n, doneNum := done.length },
    { replyType := .array, intValue := cursor, arrayList := done.map keyInfo }⟩

def keyStages (cursor n : ℕ) : List Bytes → List Bytes → List Stage
  | _, [] => []
  | done, key :: keys =>
    ⟨keyState cursor n .keyLen done, ⟨true, 36 :: (decimal key.length ++ crlf)⟩⟩ ::
      ⟨keyState cursor n .key done, ⟨false, key ++ crlf⟩⟩ ::
        keyStages cursor n (done ++ [key]) keys

def scanStages (cursor : ℕ) (keys : List Bytes) : List Stage :=
  ⟨⟨{ parseState := .type }, {}⟩, ⟨false, ascii "*"⟩⟩ ::
    ⟨headState .arrayLength 0, ⟨false, decimal 2 ++ crlf⟩⟩ ::
    ⟨headState .cursorLen 0, ⟨true, 36 :: (decimal (decimal cursor).length ++ crlf)⟩⟩ ::
    ⟨headState .cursor 0, ⟨false, decimal cursor ++ crlf⟩⟩ ::
    ⟨headState .keysLen cursor, ⟨true, 42 :: (decimal keys.length ++ crlf)⟩⟩ ::
    keyStages cursor keys.length [] keys

theorem pieces_keyStages (cursor n : ℕ) (done keys : List Bytes) :
    pieces (keyStages cursor n done keys) = keys.flatMap bulkPieces := by
  induction keys generalizing done with
  | nil => rfl
  | cons key keys ih =>
    rw [flatMap_cons, ← ih (done ++ [key])]
    rfl

theorem pieces_scanStages (cursor : ℕ) (keys : List Bytes) :
    pieces (scanStages cursor keys) = scanPieces cursor keys := by
  have htwo : decimal 2 ++ crlf = ascii "2\r\n" := by decide
  have hkeys := pieces_keyStages cursor keys.length [] keys
  unfold pieces at hkeys
  simp [pieces, scanStages, scanPieces, bulkPieces, htwo, hkeys]

theorem script_keyStages (cursor n : ℕ) (keys : List Bytes) (hkeys : ∀ key ∈ keys, KeyFits key)
    (done : List Bytes) (hn : done.length + keys.length = n) (hne : keys ≠ []) :
    Script (keyState cursor n .key (done ++ keys)).finish (keyStages cursor n done keys) := by
  induction keys generalizing done with
  | nil => exact absurd rfl hne
  | cons key keys ih =>
    have hkey := hkeys key (by simp)
    have hlen : key.length < 2 ^ 31 := lt_of_le_of_lt hkey.1 (by decide)
    have hread : (keyState cursor n .key done).readKey key =
        following (keyState cursor n .key (done ++ key :: keys)).finish ⟨false, key ++ crlf⟩
          (keyStages cursor n (done ++ [key]) keys) := by
      cases keys with
      | nil =>
        have hlast : ¬ ((done.length : ℤ) + 1 < n) := by
          simp only [length_singleton] at hn
          omega
        simp [Scan.readKey, keyState, following, keyStages, Scan.finish, hlast]
      | cons key' keys =>
        have hmore : (done.length : ℤ) + 1 < n := by
          simp only [length_cons] at hn
          omega
        simp [Scan.readKey, keyState, following, keyStages, Scan.enter, hmore]
    refine ⟨?_, takes_key rfl rfl rfl hkey hread, ?_⟩
    · refine takes_signed rfl rfl (by simp [keyState]) (fun mem => rfl) (by decide) hlen ?_
      rw [if_neg (by omega), following]
      simp [keyState, Scan.enter]
    · cases keys with
      | nil => trivial
      | cons key' keys =>
        have hstep := ih (fun k hk => hkeys k (mem_cons_of_mem _ hk)) (done ++ [key])
          (by simp at hn ⊢; omega) (by simp)
        rwa [append_assoc] at hstep

theorem script_scanStages {cursor : ℕ} {keys : List Bytes} (hcursor : cursor < 2 ^ 31)
    (hcount : keys.length < 2 ^ 31) (hkeys : ∀ key ∈ keys, KeyFits key) :
    ∃ t : Scan, t.conn.valid = true ∧
      t.info = { replyType := .array, intValue := cursor, arrayList := keys.map keyInfo } ∧
      Script t (scanStages cursor keys) := by
  have htype : ∀ t l, Takes ⟨{ parseState := .type }, {}⟩ ⟨false, ascii "*"⟩
      (following t ⟨false, ascii "*"⟩ (⟨headState .arrayLength 0, ⟨false, decimal 2 ++ crlf⟩⟩ :: l)) := by
    intro t l
    refine ⟨rfl, rfl, by decide, by decide, by decide, fun rest => rfl, ?_, by simp⟩
    intro q more pad hq hmore h
    have hlen := congrArg length h
    have hq' := length_pos_iff.2 hq
    have hmore' := length_pos_iff.2 hmore
    simp only [length_append, show (ascii "*").length = 1 from rfl] at hlen
    omega
  have hdigits : (decimal cursor).length < 2 ^ 31 :=
    lt_of_le_of_lt (length_decimal_lt hcursor) (by decide)
  have hhead : ∀ t, Takes (headState .keysLen cursor) ⟨true, 42 :: (decimal keys.length ++ crlf)⟩
      (following t ⟨true, 42 :: (decimal keys.length ++ crlf)⟩
        (keyStages cursor keys.length [] keys)) → Script t (keyStages cursor keys.length [] keys) →
      Script t (scanStages cursor keys) := by
    intro t hcountLine hrest
    refine ⟨htype t _, ?_, ?_, ?_, hcountLine, hrest⟩
    · have hiter : ∀ mem, parseScanIter (headState .arrayLength 0) mem = scanNumber mem 0 fun n k =>
          if n ≠ 2 then .ret (headState .arrayLength 0).finish
          else .next (headState .cursorLen 0) k := fun mem => rfl
      exact takes_number rfl rfl (by simp [headState]) hiter (by decide) rfl
    · refine takes_signed rfl rfl (by simp [headState]) (fun mem => rfl) (by decide) hdigits ?_
      rw [if_neg (by omega), following]
      simp [headState, Scan.enter]
    · have hiter : ∀ mem, parseScanIter (headState .cursor 0) mem = scanNumber mem 0 fun n k =>
          if n < 0 then .ret (headState .cursor 0).finish
          else .next (headState .keysLen n) k := fun mem => rfl
      refine takes_number rfl rfl (by simp [headState]) hiter hcursor ?_
      rw [if_neg (by omega), following]
      simp
  have hcountLine : ∀ t, (headState .keysLen cursor).readCount keys.length
        ((decimal keys.length).length + 3) =
      following t ⟨true, 42 :: (decimal keys.length ++ crlf)⟩ (keyStages cursor keys.length [] keys) →
      Takes (headState .keysLen cursor) ⟨true, 42 :: (decimal keys.length ++ crlf)⟩
        (following t ⟨true, 42 :: (decimal keys.length ++ crlf)⟩
          (keyStages cursor keys.length [] keys)) := fun t hread =>
    takes_signed rfl rfl (by simp [headState]) (fun mem => rfl) (by decide) hcount hread
  cases keys with
  | nil =>
    exact ⟨(headState .keysLen cursor).finish, rfl, rfl, hhead _ (hcountLine _ rfl) trivial⟩
  | cons key keys =>
    refine ⟨(keyState cursor (key :: keys).length .key (key :: keys)).finish, rfl, rfl,
      hhead _ (hcountLine _ ?_) (script_keyStages cursor _ (key :: keys) hkeys [] (by simp) (by simp))⟩
    rw [Scan.readCount, if_neg (by omega), if_neg (by simp; omega), keyStages, following]
    simp [headState, keyState, Scan.enter]

/-! ### What a torn reply yields -/

theorem length_of_mem_keyStages {cursor n : ℕ} (keys : List Bytes) {done : List Bytes} {g : Stage}
    (h : g ∈ keyStages cursor n done keys) :
    g.state.info.arrayList.length < done.length + keys.length := by
  induction keys generalizing done with
  | nil => simp [keyStages] at h
  | cons key keys ih =>
    rw [keyStages, mem_cons, mem_cons] at h
    rcases h with rfl | rfl | h
    · simp [keyState]
    · simp [keyState]
    · have hlt := ih h
      rw [length_append, length_singleton] at hlt
      rw [length_cons]
      omega

def cursorEnd (cursor : ℕ) : ℕ := (ascii "*2\r\n" ++ bulk (decimal cursor)).length

theorem torn_info {cursor : ℕ} {keys : List Bytes} {l₁ l₂ : List Stage} {g : Stage} {c : ℕ}
    (h : scanStages cursor keys = l₁ ++ g :: l₂) (hheader : g.piece.header = true)
    (hlo : (bytes (pieces l₁)).length < c)
    (hhi : c < (bytes (pieces l₁)).length + g.piece.text.length) :
    (g.state.info.intValue = cursor ∧ g.state.info.arrayList = keys.map keyInfo) ↔
      keys = [] ∧ (cursor = 0 ∨ cursorEnd cursor < c) := by
  have hstar : (ascii "*").length = 1 := rfl
  have htwo : (decimal 2).length = 1 := rfl
  have hstart : (ascii "*2\r\n").length = 4 := rfl
  unfold scanStages at h
  rcases l₁ with _ | ⟨g₀, l₁⟩
  · obtain ⟨rfl, -⟩ := cons.inj h
    cases hheader
  obtain ⟨rfl, h₁⟩ := cons.inj h
  rcases l₁ with _ | ⟨g₁, l₁⟩
  · obtain ⟨rfl, -⟩ := cons.inj h₁
    cases hheader
  obtain ⟨rfl, h₂⟩ := cons.inj h₁
  rcases l₁ with _ | ⟨g₂, l₁⟩
  · -- the length of the cursor: neither the cursor nor a key has been taken
    obtain ⟨rfl, -⟩ := cons.inj h₂
    have hend : ¬ cursorEnd cursor < c := by
      simp [pieces, bytes, cursorEnd, bulk, hstar, htwo, hstart] at hhi ⊢
      omega
    simp [headState, hend, eq_comm, and_comm]
  obtain ⟨rfl, h₃⟩ := cons.inj h₂
  rcases l₁ with _ | ⟨g₃, l₁⟩
  · obtain ⟨rfl, -⟩ := cons.inj h₃
    cases hheader
  obtain ⟨rfl, h₄⟩ := cons.inj h₃
  rcases l₁ with _ | ⟨g₄, l₁⟩
  · -- the number of keys: the cursor has been taken
    obtain ⟨rfl, -⟩ := cons.inj h₄
    have hend : cursorEnd cursor < c := by
      simp [pieces, bytes, cursorEnd, bulk, hstar, htwo, hstart] at hlo ⊢
      omega
    simp [headState, hend, eq_comm]
  obtain ⟨rfl, h₅⟩ := cons.inj h₄
  -- the length of a key: at least this key is missing
  have hmem : g ∈ keyStages cursor keys.length [] keys := by rw [h₅]; simp
  have hlt := length_of_mem_keyStages keys hmem
  constructor
  · rintro ⟨-, hlist⟩
    rw [hlist] at hlt
    simp at hlt
  · rintro ⟨rfl, -⟩
    cases hmem

/-! ### The result -/

structure ScanSafe (cursor : ℕ) (keys : List Bytes) (reads : List Bytes) : Prop where
  cursor_lt : cursor < 2 ^ 31
  count_lt : keys.length < 2 ^ 31
  keys_fit : ∀ key ∈ keys, KeyFits key
  cuts : ∀ i < reads.length, tears (scanPieces cursor keys) (cut reads i) = true →
    i + 1 = reads.length ∧ keys = [] ∧ (cursor = 0 ∨ cursorEnd cursor < cut reads i)

theorem keyFits_of_map {keys : List Bytes}
    (h : ∀ a ∈ keys.map keyInfo, ∃ key, KeyFits key ∧ a = keyInfo key) :
    ∀ key ∈ keys, KeyFits key := by
  intro key hkey
  obtain ⟨key', hfits, heq⟩ := h _ (mem_map_of_mem hkey)
  have hsame : key = key' := some.inj (ReplyArrayInfo.mk.inj heq).2.1
  exact hsame ▸ hfits

theorem recvWith_scanReply {cursor : ℕ} {keys : List Bytes} (hcursor : cursor < 2 ^ 31)
    (hcount : keys.length < 2 ^ 31) (hkeys : ∀ key ∈ keys, KeyFits key) {reads : List Bytes}
    (hreads : ∀ d ∈ reads, IsRead d) (hsplit : reads.flatten = scanReply cursor keys) :
    ((∀ i < reads.length, tears (scanPieces cursor keys) (cut reads i) = false) ∧
      recvWith .scan reads = some (true,
        { replyType := .array, intValue := cursor, arrayList := keys.map keyInfo }, [])) ∨
    ∃ i < reads.length, (∀ j < i, tears (scanPieces cursor keys) (cut reads j) = false) ∧
      tears (scanPieces cursor keys) (cut reads i) = true ∧
      ∃ info, recvWith .scan reads = some (true, info, reads.drop (i + 1)) ∧
        ((info.intValue = cursor ∧ info.arrayList = keys.map keyInfo) ↔
          keys = [] ∧ (cursor = 0 ∨ cursorEnd cursor < cut reads i)) := by
  obtain ⟨t, ht, hinfo, hscript⟩ := script_scanStages hcursor hcount hkeys
  have hne : reads ≠ [] := by
    rintro rfl
    exact absurd hsplit.symm (by simp [scanReply])
  have hstart : recvWith .scan reads = recvLoopWith .scan { conn := { parseState := .type } } reads := by
    obtain ⟨d, ds, rfl⟩ := exists_cons_of_ne_nil hne
    rfl
  have hbytes : [] ++ reads.flatten = bytes (pieces (scanStages cursor keys)) := by
    rw [nil_append, hsplit, pieces_scanStages, bytes_scanPieces]
  have hwait : Waiting { conn := { parseState := .type } }
      ⟨⟨{ parseState := .type }, {}⟩, ⟨false, ascii "*"⟩⟩ [] :=
    ⟨rfl, rfl, 12, by decide, by decide, rfl, by decide⟩
  have hrun := recvLoopWith_script (c := 0) hscript ht reads hreads (nil_append _).symm hwait
    (by decide) hbytes rfl
  simp only [Nat.zero_add, pieces_scanStages] at hrun
  rw [hstart, ← hinfo]
  rcases hrun with hdone | ⟨i, hi, hcuts, l₁, g, l₂, hall, hheader, hlo, hhi, hrun⟩
  · exact Or.inl hdone
  · refine Or.inr ⟨i, hi, hcuts, ?_, g.state.info, hrun, torn_info hall hheader hlo hhi⟩
    obtain ⟨k, hk⟩ := Nat.exists_eq_add_of_lt hlo
    rw [← pieces_scanStages, hall, pieces_append, pieces_cons, hk, Nat.add_assoc,
      tears_at _ _ _ (by omega)]
    simp [hheader]

theorem scan_decoded_iff (cursor : ℕ) (keys reads : List Bytes) (hreads : ∀ d ∈ reads, IsRead d)
    (hsplit : reads.flatten = scanReply cursor keys) :
    (∃ info, recvWith .scan reads = some (true, info, []) ∧ info.intValue = cursor ∧
        info.arrayList = keys.map keyInfo) ↔ ScanSafe cursor keys reads := by
  constructor
  · rintro ⟨info, hrun, hint, hlist⟩
    obtain ⟨hcursor, hcount, hkeys⟩ := recvWith_sound hrun
    rw [hint] at hcursor
    rw [hlist] at hcount hkeys
    rw [length_map] at hcount
    have hfits := keyFits_of_map hkeys
    refine ⟨by exact_mod_cast hcursor, hcount, hfits, fun i hi htears => ?_⟩
    rcases recvWith_scanReply (by exact_mod_cast hcursor) hcount hfits hreads hsplit with
      ⟨hcuts, -⟩ | ⟨j, hj, hcuts, -, info', hrun', hiff⟩
    · exact absurd htears (by simp [hcuts i hi])
    · obtain ⟨hsame, hrest⟩ := Prod.mk.inj (Prod.mk.inj (some.inj (hrun'.symm.trans hrun))).2
      have hlast : reads.length ≤ j + 1 := drop_eq_nil_iff.1 hrest
      have hij : i = j := by
        rcases Nat.lt_or_ge i j with hlt | hge
        · exact absurd htears (by simp [hcuts i hlt])
        · omega
      subst hij
      exact ⟨by omega, hiff.1 (hsame ▸ ⟨hint, hlist⟩)⟩
  · rintro ⟨hcursor, hcount, hkeys, hsafe⟩
    rcases recvWith_scanReply hcursor hcount hkeys hreads hsplit with
      ⟨-, hrun⟩ | ⟨i, hi, -, htears, info, hrun, hiff⟩
    · exact ⟨_, hrun, rfl, rfl⟩
    · obtain ⟨hlast, hnothing⟩ := hsafe i hi htears
      rw [hlast, drop_length] at hrun
      exact ⟨info, hrun, hiff.2 hnothing⟩

theorem scan_decoded_iff_two :
    ∃ info, recvWith .scan [ascii "*2\r\n$2\r\n1", ascii "7\r\n*2\r\n", ascii "$3\r\nab", ascii "c\r\n$1\r\nz\r\n"] =
        some (true, info, []) ∧ info.intValue = (17 : ℕ) ∧
      info.arrayList = [ascii "abc", ascii "z"].map keyInfo := by
  refine (scan_decoded_iff 17 [ascii "abc", ascii "z"] _ ?_ (by decide)).2
    ⟨by decide, by decide, by decide, by decide⟩
  unfold IsRead
  decide

theorem scan_torn_key :
    scanReply 0 [ascii "k"] = ascii "*2\r\n$1\r\n0\r\n*1\r\n$" ++ ascii "1\r\nk\r\n" ∧
    recvWith .scan [ascii "*2\r\n$1\r\n0\r\n*1\r\n$", ascii "1\r\nk\r\n"] =
      some (true, { replyType := .array }, []) := by
  decide

end GBDownLinker
