/-
**The buffers that commands are written to.**

`RedisConnection::doRedisCommand` allocates `paraLen` bytes and lets `createRedisCommand` write the command
there, which looks at no limit.  `paraLen` has a constant for every parameter that was chosen by hand.
-/

import BackendProgramming.ClusterNodes
import BackendProgramming.RedisCommand

set_option autoImplicit false

namespace GBDownLinker

open List

namespace Budget

open CText

/-! ### The functions that put commands together -/

structure Para where
  value : Bytes
  budget : ℕ

def paraList (paras : List Para) : List Bytes := paras.map Para.value

def paraLen (paras : List Para) : ℤ := paras.foldl (fun len para => toInt32 (len + para.budget)) 0

def setKeyExpireTime (key : Bytes) (expireTime : UInt32) : List Para :=
  let timeText := toStr expireTime.toNat
  [⟨ascii "expire", 15⟩, ⟨key, key.length + 20⟩, ⟨timeText, timeText.length + 20⟩]

def smembers (key : Bytes) : List Para :=
  [⟨ascii "smembers", (ascii "smembers").length + 11⟩, ⟨key, key.length + 11⟩]

def getKeys (queryKey : Bytes) : List Para :=
  let key := queryKey ++ ascii "*"
  [⟨ascii "keys", 15⟩, ⟨key, key.length + 20⟩]

inductive ScanMode where
  | loop
  | noloop
  deriving DecidableEq, Repr

def fillScanCommandPara (cursor : Int32) (queryKey : Bytes) (count : Int32) (scanMode : ScanMode) : List Para :=
  let maxSize := 10
  let cursorText := intText (if scanMode = .noloop then 0 else cursor.toInt)
  let key := queryKey ++ ascii "*"
  let countText := intText count.toInt
  [⟨ascii "scan", (ascii "scan").length + maxSize + 1⟩,
    ⟨cursorText, cursorText.length + maxSize + 1⟩,
    ⟨ascii "MATCH", (ascii "MATCH").length + maxSize + 1⟩,
    ⟨key, key.length + maxSize + 1⟩,
    ⟨ascii "COUNT", (ascii "COUNT").length + maxSize + 1⟩,
    ⟨countText, countText.length + maxSize + 1⟩]

def watchKey (key : Bytes) : List Para := [⟨ascii "watch", 18⟩, ⟨key, key.length + 20⟩]

def startTransaction : List Para := [⟨ascii "multi", 18⟩]

def discardTransaction : List Para := [⟨ascii "discard", 18⟩]

def execTransaction : List Para := [⟨ascii "exec", 18⟩]

inductive Command where
  | expire (key : Bytes) (expireTime : UInt32)
  | smembers (key : Bytes)
  | keys (queryKey : Bytes)
  | scan (cursor : Int32) (queryKey : Bytes) (count : Int32) (scanMode : ScanMode)
  | watch (key : Bytes)
  | multi
  | exec
  | discard

def Command.build : Command → List Para
  | .expire key expireTime => setKeyExpireTime key expireTime
  | .smembers key => Budget.smembers key
  | .keys queryKey => getKeys queryKey
  | .scan cursor queryKey count scanMode => fillScanCommandPara cursor queryKey count scanMode
  | .watch key => watchKey key
  | .multi => startTransaction
  | .exec => execTransaction
  | .discard => discardTransaction

def Command.key : Command → Bytes
  | .expire key _ => key
  | .smembers key => key
  | .keys queryKey => queryKey
  | .scan _ queryKey _ _ => queryKey
  | .watch key => key
  | .multi => []
  | .exec => []
  | .discard => []

/-! ### Lengths -/

def digits (n : ℕ) : ℕ := (decimal n).length

theorem digits_le_iff {n k : ℕ} (hk : 0 < k) : digits n ≤ k ↔ n < 10 ^ k := length_decimal_le_iff hk

theorem digits_eq_one {n : ℕ} (h : n < 10) : digits n = 1 :=
  le_antisymm ((length_decimal_le_iff Nat.one_pos).2 h) (length_pos_iff.2 (decimal_ne_nil n))

theorem length_encodePara {para : Bytes} (h : para.length < 2 ^ 31) :
    (encodePara para).length = 5 + digits para.length + para.length := by
  rw [encodePara, intText_toInt32 h]
  simp [digits]
  omega

theorem exists_cmdLen {params : List Bytes} (hne : params ≠ []) (hnum : params.length < 10)
    (hsize : ∀ p ∈ params, p.length < 2 ^ 31) :
    ∃ cmd, createRedisCommand params = some cmd ∧
      cmd.length = 4 + (params.map fun p => 5 + digits p.length + p.length).sum := by
  refine ⟨_, if_neg (by simpa using hne), ?_⟩
  have hparas : (params.flatMap encodePara).length =
      (params.map fun p => 5 + digits p.length + p.length).sum := by
    rw [length_flatMap]
    exact congrArg sum (map_congr_left fun p hp => length_encodePara (hsize p hp))
  rw [length_append, hparas, intText_toInt32 (by omega), length_cons, length_append,
    length_crlf, ← digits, digits_eq_one hnum]

theorem paraLen_eq {paras : List Para} (h : (paras.map Para.budget).sum < 2 ^ 31) :
    paraLen paras = ((paras.map Para.budget).sum : ℕ) := by
  suffices hfold : ∀ (rest : List Para) (n : ℕ), n + (rest.map Para.budget).sum < 2 ^ 31 →
      rest.foldl (fun len para => toInt32 (len + para.budget)) (n : ℤ) = (n + (rest.map Para.budget).sum : ℕ) by
    simpa [paraLen] using hfold paras 0 (by simpa using h)
  intro rest
  induction rest with
  | nil => simp
  | cons para rest ih =>
    intro n hn
    simp only [map_cons, sum_cons] at hn ⊢
    have hint : toInt32 ((n : ℤ) + para.budget) = ((n + para.budget : ℕ) : ℤ) := by
      rw [toInt32_eq (by omega) (by omega)]
      rfl
    rw [foldl_cons, hint, ih _ (by omega), Nat.add_assoc]

theorem fits_iff {paras : List Para} (hne : paras ≠ []) (hnum : paras.length < 10)
    (hsize : ∀ p ∈ paras, p.value.length < 2 ^ 31) (hsum : (paras.map Para.budget).sum < 2 ^ 31) :
    ∃ cmd, createRedisCommand (paraList paras) = some cmd ∧
      ((cmd.length : ℤ) ≤ paraLen paras ↔
        4 + (paras.map fun p => 5 + digits p.value.length + p.value.length).sum ≤
          (paras.map Para.budget).sum) := by
  obtain ⟨cmd, hcmd, hlen⟩ := @exists_cmdLen (paraList paras) (by simpa [paraList] using hne)
    (by simpa [paraList] using hnum) (by simpa [paraList] using hsize)
  refine ⟨cmd, hcmd, ?_⟩
  have hmap : ((paraList paras).map fun p => 5 + digits p.length + p.length) =
      paras.map fun p => 5 + digits p.value.length + p.value.length := by
    simp [paraList, Function.comp_def]
  rw [paraLen_eq hsum, hlen, hmap, Nat.cast_le]

theorem length_intText_le (n : Int32) : (intText n.toInt).length ≤ 11 := by
  have hlow := n.le_toInt
  have hhigh := n.toInt_lt
  have hdigits : (decimal n.toInt.natAbs).length ≤ 10 := length_decimal_le (by decide) (by omega)
  rw [intText]
  split
  · rw [length_cons]
    omega
  · omega

theorem length_toStr_le (n : UInt32) : (toStr n.toNat).length ≤ 10 := by
  have hlt := n.toNat_lt
  rw [toStr]
  split
  · decide
  · exact length_decimal_le (by decide) (by omega)

/-! ### Which commands fit -/

theorem fits_word {word : Bytes} {budget : ℕ} (hword : word.length < 10) (hbudget : budget < 2 ^ 31)
    (hle : word.length + 10 ≤ budget) :
    ∃ cmd, createRedisCommand (paraList [⟨word, budget⟩]) = some cmd ∧
      (cmd.length : ℤ) ≤ paraLen [⟨word, budget⟩] := by
  obtain ⟨cmd, hcmd, hfits⟩ := @fits_iff [⟨word, budget⟩] (by simp) (by simp) (by simp; omega)
    (by simpa using hbudget)
  refine ⟨cmd, hcmd, hfits.2 ?_⟩
  simp [digits_eq_one hword]
  omega

theorem fits_key_iff {word key : Bytes} {budget extra : ℕ} (hword : word.length < 10) (hbudget : budget < 100)
    (hextra : extra < 100) (hkey : key.length ≤ 2 ^ 30) :
    ∃ cmd, createRedisCommand (paraList [⟨word, budget⟩, ⟨key, key.length + extra⟩]) = some cmd ∧
      ((cmd.length : ℤ) ≤ paraLen [⟨word, budget⟩, ⟨key, key.length + extra⟩] ↔
        word.length + digits key.length + 15 ≤ budget + extra) := by
  obtain ⟨cmd, hcmd, hfits⟩ := @fits_iff [⟨word, budget⟩, ⟨key, key.length + extra⟩] (by simp) (by simp)
    (by simp; omega) (by simp; omega)
  refine ⟨cmd, hcmd, hfits.trans ?_⟩
  simp only [map_cons, map_nil, sum_cons, sum_nil, digits_eq_one hword]
  omega

theorem digits_key_le {key : Bytes} (hkey : key.length ≤ 512 * 2 ^ 20 + 1) : digits key.length ≤ 9 :=
  (digits_le_iff (by decide)).2 (by omega)

theorem setKeyExpireTime_fits {key : Bytes} (expireTime : UInt32) (hkey : key.length ≤ 512 * 2 ^ 20) :
    ∃ cmd, createRedisCommand (paraList (setKeyExpireTime key expireTime)) = some cmd ∧
      (cmd.length : ℤ) ≤ paraLen (setKeyExpireTime key expireTime) := by
  have hdigits := digits_key_le (Nat.le_succ_of_le hkey)
  have htime := length_toStr_le expireTime
  have hdtime : digits (toStr expireTime.toNat).length ≤ 2 := (digits_le_iff (by decide)).2 (by omega)
  have hword : (ascii "expire").length = 6 := rfl
  obtain ⟨cmd, hcmd, hfits⟩ := @fits_iff (setKeyExpireTime key expireTime) (by simp [setKeyExpireTime])
    (by simp [setKeyExpireTime]) (by simp [setKeyExpireTime]; omega) (by simp [setKeyExpireTime]; omega)
  refine ⟨cmd, hcmd, hfits.2 ?_⟩
  simp only [setKeyExpireTime, map_cons, map_nil, sum_cons, sum_nil, hword,
    digits_eq_one (show 6 < 10 by decide)]
  omega

theorem smembers_fits_iff {key : Bytes} (hkey : key.length ≤ 512 * 2 ^ 20) :
    ∃ cmd, createRedisCommand (paraList (smembers key)) = some cmd ∧
      ((cmd.length : ℤ) ≤ paraLen (smembers key) ↔ key.length < 10 ^ 7) := by
  obtain ⟨cmd, hcmd, hfits⟩ := @fits_key_iff (ascii "smembers") key ((ascii "smembers").length + 11) 11
    (by decide) (by decide) (by decide) (by omega)
  refine ⟨cmd, hcmd, hfits.trans ?_⟩
  have hiff : digits key.length ≤ 7 ↔ key.length < 10 ^ 7 := digits_le_iff (by decide)
  rw [← hiff]
  omega

theorem getKeys_fits {queryKey : Bytes} (hkey : queryKey.length ≤ 512 * 2 ^ 20) :
    ∃ cmd, createRedisCommand (paraList (getKeys queryKey)) = some cmd ∧
      (cmd.length : ℤ) ≤ paraLen (getKeys queryKey) := by
  have hlen : (queryKey ++ ascii "*").length = queryKey.length + 1 := length_append
  have hdigits : digits (queryKey ++ ascii "*").length ≤ 9 := digits_key_le (by omega)
  have hword : (ascii "keys").length = 4 := rfl
  obtain ⟨cmd, hcmd, hfits⟩ := @fits_key_iff (ascii "keys") (queryKey ++ ascii "*") 15 20 (by decide)
    (by decide) (by decide) (by omega)
  exact ⟨cmd, hcmd, hfits.2 (by omega)⟩

theorem fillScanCommandPara_fits (cursor : Int32) {queryKey : Bytes} (count : Int32) (scanMode : ScanMode)
    (hkey : queryKey.length ≤ 512 * 2 ^ 20) :
    ∃ cmd, createRedisCommand (paraList (fillScanCommandPara cursor queryKey count scanMode)) = some cmd ∧
      (cmd.length : ℤ) ≤ paraLen (fillScanCommandPara cursor queryKey count scanMode) := by
  have hlen : (queryKey ++ ascii "*").length = queryKey.length + 1 := length_append
  have hdigits : digits (queryKey ++ ascii "*").length ≤ 9 := digits_key_le (by omega)
  have hcount := length_intText_le count
  have hdcount : digits (intText count.toInt).length ≤ 2 := (digits_le_iff (by decide)).2 (by omega)
  obtain ⟨cursorText, hcursor⟩ : ∃ t, t = intText (if scanMode = .noloop then 0 else cursor.toInt) :=
    ⟨_, rfl⟩
  have hcursorLen : cursorText.length ≤ 11 := by
    rw [hcursor]
    split
    · decide
    · exact length_intText_le cursor
  have hdcursor : digits cursorText.length ≤ 2 := (digits_le_iff (by decide)).2 (by omega)
  have hfour : (ascii "scan").length = 4 := rfl
  have hmatch : (ascii "MATCH").length = 5 := rfl
  have hcountWord : (ascii "COUNT").length = 5 := rfl
  obtain ⟨cmd, hcmd, hfits⟩ := @fits_iff (fillScanCommandPara cursor queryKey count scanMode)
    (by simp [fillScanCommandPara]) (by simp [fillScanCommandPara])
    (by simp only [fillScanCommandPara, ← hcursor, forall_mem_cons]; simp [-length_append]; omega)
    (by simp only [fillScanCommandPara, ← hcursor]; simp [-length_append]; omega)
  refine ⟨cmd, hcmd, hfits.2 ?_⟩
  simp only [fillScanCommandPara, ← hcursor, map_cons, map_nil, sum_cons, sum_nil,
    hfour, hmatch, hcountWord, digits_eq_one (show 4 < 10 by decide),
    digits_eq_one (show 5 < 10 by decide)]
  omega

theorem watchKey_fits {key : Bytes} (hkey : key.length ≤ 512 * 2 ^ 20) :
    ∃ cmd, createRedisCommand (paraList (watchKey key)) = some cmd ∧
      (cmd.length : ℤ) ≤ paraLen (watchKey key) := by
  have hdigits := digits_key_le (Nat.le_succ_of_le hkey)
  have hword : (ascii "watch").length = 5 := rfl
  obtain ⟨cmd, hcmd, hfits⟩ := @fits_key_iff (ascii "watch") key 18 20 (by decide) (by decide) (by decide)
    (by omega)
  exact ⟨cmd, hcmd, hfits.2 (by omega)⟩

theorem cmdLen_le_paraLen_iff (c : Command) (hkey : c.key.length ≤ 512 * 2 ^ 20) :
    ∃ cmd, createRedisCommand (paraList c.build) = some cmd ∧
      ((cmd.length : ℤ) ≤ paraLen c.build ↔ ∀ key, c = .smembers key → key.length < 10 ^ 7) := by
  -- the other commands fit whatever the key is
  have hother : (∀ key, c ≠ .smembers key) →
      (∃ cmd, createRedisCommand (paraList c.build) = some cmd ∧ (cmd.length : ℤ) ≤ paraLen c.build) →
      ∃ cmd, createRedisCommand (paraList c.build) = some cmd ∧
        ((cmd.length : ℤ) ≤ paraLen c.build ↔ ∀ key, c = .smembers key → key.length < 10 ^ 7) :=
    fun hne ⟨cmd, hcmd, hle⟩ => ⟨cmd, hcmd, fun _ key heq => absurd heq (hne key), fun _ => hle⟩
  cases c with
  | expire key expireTime => exact hother (by simp) (setKeyExpireTime_fits expireTime hkey)
  | smembers key =>
    obtain ⟨cmd, hcmd, hfits⟩ := @smembers_fits_iff key hkey
    exact ⟨cmd, hcmd, hfits.trans (by simp)⟩
  | keys queryKey => exact hother (by simp) (getKeys_fits hkey)
  | scan cursor queryKey count scanMode =>
    exact hother (by simp) (fillScanCommandPara_fits cursor count scanMode hkey)
  | watch key => exact hother (by simp) (watchKey_fits hkey)
  | multi => exact hother (by simp) (fits_word (by decide) (by decide) (by decide))
  | exec => exact hother (by simp) (fits_word (by decide) (by decide) (by decide))
  | discard => exact hother (by simp) (fits_word (by decide) (by decide) (by decide))

theorem smembers_short_fits :
    ∃ cmd, createRedisCommand (paraList (Command.smembers [107]).build) = some cmd ∧
      (cmd.length : ℤ) ≤ paraLen (Command.smembers [107]).build := by
  obtain ⟨cmd, hcmd, hiff⟩ := cmdLen_le_paraLen_iff (.smembers [107]) (by decide)
  refine ⟨cmd, hcmd, hiff.2 fun key heq => ?_⟩
  obtain rfl := Command.smembers.inj heq
  decide

theorem smembers_overflow : ∃ key cmd : Bytes, key.length = 10 ^ 7 ∧
    createRedisCommand (paraList (Command.smembers key).build) = some cmd ∧
      paraLen (Command.smembers key).build < cmd.length := by
  obtain ⟨key, hkey⟩ : ∃ key : Bytes, key.length = 10 ^ 7 :=
    ⟨replicate (10 ^ 7) 0, length_replicate⟩
  obtain ⟨cmd, hcmd, hfits⟩ := @smembers_fits_iff key (by omega)
  refine ⟨key, cmd, hkey, hcmd, not_le.1 fun hle => ?_⟩
  have hshort := hfits.1 hle
  omega

end Budget

end GBDownLinker
