/-
**The receive buffer of `RedisConnection::recv`.**

`recv` puts the bytes that the parser has left over and the bytes of the read into one block, which it doubles
at most once for a read.  The block is embedded with each `memset` and `memcpy`.
-/

import BackendProgramming.DbStreamBuffer
import BackendProgramming.Lts
import BackendProgramming.RedisRecv

set_option autoImplicit false

namespace GBDownLinker

open CText List Option

/-! ### The block -/

structure RecvBuffer where
  toParseBuf : Bytes := replicate readBuffSize 0
  mallocLen : ℕ := readBuffSize
  unparseBuf : Bytes := []
  deriving DecidableEq

namespace RecvBuffer

def fill (b : RecvBuffer) (d : Bytes) : Option RecvBuffer :=
  if b.unparseBuf ≠ [] then
    if b.mallocLen ≤ b.unparseBuf.length + d.length then
      if 2 ^ 31 ≤ b.mallocLen * 2 then none
      else do
        let newBuf := replicate (b.mallocLen * 2) 0
        let newBuf ← memcpy newBuf 0 b.unparseBuf
        let newBuf ← memcpy newBuf b.unparseBuf.length d
        some ⟨newBuf, b.mallocLen * 2, []⟩
    else do
      let toParseBuf ← memcpy b.toParseBuf 0 (replicate b.mallocLen 0)
      let toParseBuf ← memcpy toParseBuf 0 b.unparseBuf
      let toParseBuf ← memcpy toParseBuf b.unparseBuf.length d
      some ⟨toParseBuf, b.mallocLen, []⟩
  else do
    let toParseBuf ← memcpy b.toParseBuf 0 (replicate b.mallocLen 0)
    let toParseBuf ← memcpy toParseBuf 0 d
    some { b with toParseBuf := toParseBuf }

def saveTail (b : RecvBuffer) (toParseLen left : ℕ) : RecvBuffer :=
  if 1 ≤ left then { b with unparseBuf := (b.toParseBuf.take toParseLen).drop (toParseLen - left) } else b

def step (b : RecvBuffer) (e : Bytes × ℕ) : Option RecvBuffer :=
  (b.fill e.1).map fun b' => b'.saveTail (b.unparseBuf.length + e.1.length) e.2

def Bounded (b : RecvBuffer) (e : Bytes × ℕ) : Prop :=
  e.1.length ≤ 4095 ∧ e.2 ≤ b.unparseBuf.length + e.1.length ∧ b.unparseBuf.length + e.1.length < 2 ^ 30

def Ready (b : RecvBuffer) (e : Bytes × ℕ) : Prop :=
  ∃ b', b.fill e.1 = some b' ∧ b.unparseBuf.length + e.1.length < b'.mallocLen ∧
    b'.toParseBuf.length = b'.mallocLen ∧
    b'.toParseBuf.take (b.unparseBuf.length + e.1.length) = b.unparseBuf ++ e.1 ∧
    b'.toParseBuf[b.unparseBuf.length + e.1.length]? = some 0

instance (b : RecvBuffer) (e : Bytes × ℕ) : Decidable (Bounded b e) := by
  unfold Bounded
  infer_instance

/-! ### What it holds -/

def receiver (b : RecvBuffer) : Receiver :=
  { conn := { unparseBuf := b.unparseBuf }, mallocLen := b.mallocLen }

theorem memcpy_zeros (front : Bytes) {src : Bytes} {k : ℕ} (h : src.length ≤ k) :
    memcpy (front ++ replicate k 0) front.length src =
      some (front ++ src ++ replicate (k - src.length) 0) := by
  rw [memcpy, if_pos (by simp; omega), take_left, drop_append, drop_replicate]
  simp

theorem fill_eq {b : RecvBuffer} {d : Bytes} (hlen : b.toParseBuf.length = b.mallocLen)
    (hsize : b.receiver.bufLen d.length < 2 ^ 31)
    (hroom : b.unparseBuf.length + d.length ≤ b.receiver.bufLen d.length) :
    b.fill d = some ⟨b.unparseBuf ++ d ++
        replicate (b.receiver.bufLen d.length - (b.unparseBuf.length + d.length)) 0,
      b.receiver.bufLen d.length, []⟩ := by
  have hset : memcpy b.toParseBuf 0 (replicate b.mallocLen 0) = some (replicate b.mallocLen 0) := by
    rw [memcpy, if_pos (by simp [hlen])]
    simp [← hlen]
  -- two copies, the second one behind the first
  have htwo : ∀ m, b.unparseBuf.length + d.length ≤ m →
      ∃ buf, memcpy (replicate m 0) 0 b.unparseBuf = some buf ∧ memcpy buf b.unparseBuf.length d =
        some (b.unparseBuf ++ d ++ replicate (m - (b.unparseBuf.length + d.length)) 0) := by
    intro m hm
    refine ⟨_, memcpy_zeros [] (by omega), ?_⟩
    rw [nil_append, memcpy_zeros _ (by omega), Nat.sub_sub]
  unfold fill
  by_cases hne : b.unparseBuf ≠ []
  · by_cases hfull : b.mallocLen ≤ b.unparseBuf.length + d.length
    · have hdouble : b.receiver.bufLen d.length = b.mallocLen * 2 := if_pos ⟨hne, hfull⟩
      rw [hdouble] at hsize hroom ⊢
      obtain ⟨buf, hcopy, hcopy'⟩ := htwo _ hroom
      rw [if_pos hne, if_pos hfull, if_neg (by omega)]
      simp only [bind_eq_bind, hcopy, bind_some, hcopy']
    · have hsame : b.receiver.bufLen d.length = b.mallocLen := if_neg fun h => hfull h.2
      rw [hsame] at hroom ⊢
      obtain ⟨buf, hcopy, hcopy'⟩ := htwo _ hroom
      rw [if_pos hne, if_neg hfull]
      simp only [bind_eq_bind, hset, hcopy, bind_some, hcopy']
  · have hnil : b.unparseBuf = [] := not_not.1 hne
    have hsame : b.receiver.bufLen d.length = b.mallocLen := if_neg fun h => hne h.1
    rw [hsame, hnil, length_nil, Nat.zero_add] at hroom ⊢
    have hone := memcpy_zeros [] hroom
    rw [nil_append, length_nil] at hone
    rw [if_neg (not_not.2 rfl)]
    simp only [bind_eq_bind, hset, hone, bind_some]

theorem length_memcpy {block bs block' : Bytes} {off : ℕ} (h : memcpy block off bs = some block') :
    block'.length = block.length := by
  unfold memcpy at h
  split at h
  · cases h
    simp
    omega
  · cases h

theorem fill_eq_none {b : RecvBuffer} {d : Bytes} (hlen : b.toParseBuf.length = b.mallocLen)
    (hsize : b.mallocLen < 2 ^ 31) (h : 2 ^ 31 ≤ b.receiver.bufLen d.length ∨
      b.receiver.bufLen d.length < b.unparseBuf.length + d.length) : b.fill d = none := by
  unfold fill
  by_cases hne : b.unparseBuf ≠ []
  · by_cases hfull : b.mallocLen ≤ b.unparseBuf.length + d.length
    · have hdouble : b.receiver.bufLen d.length = b.mallocLen * 2 := if_pos ⟨hne, hfull⟩
      rw [hdouble] at h
      rw [if_pos hne, if_pos hfull]
      split
      · rfl
      · -- the second copy runs over the end of the new block
        have hcopy : ∀ buf, memcpy (replicate (b.mallocLen * 2) 0) 0 b.unparseBuf = some buf →
            memcpy buf b.unparseBuf.length d = none := by
          intro buf hbuf
          rw [memcpy, if_neg]
          rw [length_memcpy hbuf, length_replicate]
          omega
        simp only [bind_eq_bind, bind_eq_none_iff]
        exact fun buf hbuf buf' hbuf' => absurd (hcopy buf hbuf) (hbuf' ▸ some_ne_none _)
    · have hsame : b.receiver.bufLen d.length = b.mallocLen := if_neg fun h => hfull h.2
      omega
  · have hsame : b.receiver.bufLen d.length = b.mallocLen := if_neg fun h => hne h.1
    have hnil : b.unparseBuf = [] := not_not.1 hne
    rw [hsame, hnil, length_nil] at h
    rw [if_neg hne]
    simp only [bind_eq_bind, bind_eq_none_iff]
    intro buf hbuf buf' hbuf'
    rw [memcpy, if_neg] at hbuf'
    · cases hbuf'
    · rw [length_memcpy hbuf]
      omega

/-! ### Runs -/

def Sound (b : RecvBuffer) : Prop := b.toParseBuf.length = b.mallocLen ∧ Fits b.mallocLen b.unparseBuf

theorem Sound.ready {b : RecvBuffer} {e : Bytes × ℕ} (h : b.Sound) (he : b.Bounded e) :
    b.Ready e ∧ ∀ b', b.step e = some b' → b'.Sound := by
  obtain ⟨d, left⟩ := e
  obtain ⟨hd, -, hsmall⟩ := he
  have hread : d.length < readBuffSize := Nat.lt_succ_of_le hd
  have hfits' : Fits b.receiver.mallocLen b.receiver.conn.unparseBuf := h.2
  obtain ⟨-, hroom⟩ := hfits'.bufLen hread fun _ => hsmall
  obtain ⟨hsize, -, hfits⟩ := Fits.buffer b.receiver d h.2 hread fun _ => hsmall
  have hfill := fill_eq h.1 (by omega) hroom.le
  have hlen : (b.unparseBuf ++ d).length = b.unparseBuf.length + d.length := length_append
  have htake : (b.unparseBuf ++ d ++ replicate (b.receiver.bufLen d.length -
      (b.unparseBuf.length + d.length)) 0).take (b.unparseBuf.length + d.length) = b.unparseBuf ++ d :=
    take_left' hlen
  have hblock : (b.unparseBuf ++ d ++ replicate
      (b.receiver.bufLen d.length - (b.unparseBuf.length + d.length)) 0).length = b.receiver.bufLen d.length := by
    rw [length_append, hlen, length_replicate]
    exact Nat.add_sub_cancel' hroom.le
  refine ⟨⟨_, hfill, hroom, hblock, htake, ?_⟩, fun b' hstep => ?_⟩
  · rw [getElem?_append_right hlen.le, hlen, Nat.sub_self, getElem?_replicate, if_pos]
    exact Nat.sub_pos_of_lt hroom
  · rw [step, hfill, map_some] at hstep
    cases hstep
    unfold saveTail
    split
    · refine ⟨hblock, hfits _ ?_⟩
      rw [htake]
      exact (length_drop ..).trans_le (Nat.sub_le ..)
    · exact ⟨hblock, hfits [] (Nat.zero_le _)⟩

end RecvBuffer

/-! ### The loop over the block -/

structure BlockReceiver extends Receiver where
  toParseBuf : Bytes := replicate readBuffSize 0

namespace BlockReceiver

def block (r : BlockReceiver) : RecvBuffer := ⟨r.toParseBuf, r.mallocLen, r.conn.unparseBuf⟩

def step (r : BlockReceiver) (d : Bytes) : Option BlockReceiver :=
  (r.block.fill d).bind fun b =>
    (parse { r.conn with unparseBuf := [] } r.info b.toParseBuf (r.conn.unparseBuf.length + d.length)).map
      fun x => ⟨⟨x.1, x.2, b.mallocLen⟩, b.toParseBuf⟩

def recvLoop : BlockReceiver → List Bytes → Option (Bool × RedisReplyInfo × List Bytes)
  | r, [] => some (r.conn.valid, r.info, [])
  | r, d :: ds =>
    if r.conn.valid then some (true, r.info, d :: ds)
    else (r.step d).bind fun r' => recvLoop r' ds

variable {r : BlockReceiver}

def Sound (r : BlockReceiver) : Prop := r.toParseBuf.length = r.mallocLen ∧ r.mallocLen < 2 ^ 31

theorem Sound.step (h : r.Sound) (d : Bytes) :
    (r.step d).map toReceiver = recvStep r.toReceiver d ∧ ∀ r', r.step d = some r' → r'.Sound := by
  by_cases hbad : 2 ^ 31 ≤ r.bufLen d.length ∨ r.bufLen d.length < r.conn.unparseBuf.length + d.length
  · rw [BlockReceiver.step, RecvBuffer.fill_eq_none (b := r.block) h.1 h.2 hbad, recvStep, if_pos hbad]
    refine ⟨rfl, fun r' hr' => ?_⟩
    cases hr'
  · obtain ⟨hsize, hroom⟩ := not_or.1 hbad
    rw [not_le] at hsize
    rw [not_lt] at hroom
    rw [BlockReceiver.step, RecvBuffer.fill_eq (b := r.block) h.1 hsize hroom, recvStep, if_neg hbad, bind_some,
      Option.map_map]
    refine ⟨rfl, fun r' hr' => ?_⟩
    obtain ⟨x, -, rfl⟩ := map_eq_some_iff.1 hr'
    refine ⟨?_, hsize⟩
    simp only [length_append, length_replicate]
    exact Nat.add_sub_cancel' hroom

theorem Sound.recvLoop_eq (h : r.Sound) (reads : List Bytes) :
    r.recvLoop reads = GBDownLinker.recvLoop r.toReceiver reads := by
  induction reads generalizing r with
  | nil => rfl
  | cons d ds ih =>
    obtain ⟨hstep, hsound⟩ := h.step d
    rw [recvLoop, GBDownLinker.recvLoop, ← hstep]
    cases hr' : r.step d with
    | none => rfl
    | some r' => rw [bind_some, ih (hsound r' hr'), map_some, bind_some]

end BlockReceiver

/-- On every sequence of reads, the loop that clears, copies into and replaces its block returns what the loop
on lists of bytes returns, and goes out of bounds where that one has no result. -/
theorem recv_block_refines (reads : List Bytes) : BlockReceiver.recvLoop {} reads = recv reads :=
  BlockReceiver.Sound.recvLoop_eq ⟨length_replicate, by decide⟩ reads

end GBDownLinker
