/-
**The slot of a key.**

`doRedisCommandCluster` takes `crc16` of the whole key, modulo 16384.  Redis Cluster defines the slot by the
hash tag: if the key has a `{` with a `}` after it and something in between, only that counts.
-/

import BackendProgramming.Crc
import BackendProgramming.RestorerManagers

set_option autoImplicit false

namespace GBDownLinker

open CText List

/-! ### The slot the client computes -/

def crc16tab : List (BitVec 16) :=
  [
    0x0000, 0x1021, 0x2042, 0x3063, 0x4084, 0x50a5, 0x60c6, 0x70e7,
    0x8108, 0x9129, 0xa14a, 0xb16b, 0xc18c, 0xd1ad, 0xe1ce, 0xf1ef,
    0x1231, 0x0210, 0x3273, 0x2252, 0x52b5, 0x4294, 0x72f7, 0x62d6,
    0x9339, 0x8318, 0xb37b, 0xa35a, 0xd3bd, 0xc39c, 0xf3ff, 0xe3de,
    0x2462, 0x3443, 0x0420, 0x1401, 0x64e6, 0x74c7, 0x44a4, 0x5485,
    0xa56a, 0xb54b, 0x8528, 0x9509, 0xe5ee, 0xf5cf, 0xc5ac, 0xd58d,
    0x3653, 0x2672, 0x1611, 0x0630, 0x76d7, 0x66f6, 0x5695, 0x46b4,
    0xb75b, 0xa77a, 0x9719, 0x8738, 0xf7df, 0xe7fe, 0xd79d, 0xc7bc,
    0x48c4, 0x58e5, 0x6886, 0x78a7, 0x0840, 0x1861, 0x2802, 0x3823,
    0xc9cc, 0xd9ed, 0xe98e, 0xf9af, 0x8948, 0x9969, 0xa90a, 0xb92b,
    0x5af5, 0x4ad4, 0x7ab7, 0x6a96, 0x1a71, 0x0a50, 0x3a33, 0x2a12,
    0xdbfd, 0xcbdc, 0xfbbf, 0xeb9e, 0x9b79, 0x8b58, 0xbb3b, 0xab1a,
    0x6ca6, 0x7c87, 0x4ce4, 0x5cc5, 0x2c22, 0x3c03, 0x0c60, 0x1c41,
    0xedae, 0xfd8f, 0xcdec, 0xddcd, 0xad2a, 0xbd0b, 0x8d68, 0x9d49,
    0x7e97, 0x6eb6, 0x5ed5, 0x4ef4, 0x3e13, 0x2e32, 0x1e51, 0x0e70,
    0xff9f, 0xefbe, 0xdfdd, 0xcffc, 0xbf1b, 0xaf3a, 0x9f59, 0x8f78,
    0x9188, 0x81a9, 0xb1ca, 0xa1eb, 0xd10c, 0xc12d, 0xf14e, 0xe16f,
    0x1080, 0x00a1, 0x30c2, 0x20e3, 0x5004, 0x4025, 0x7046, 0x6067,
    0x83b9, 0x9398, 0xa3fb, 0xb3da, 0xc33d, 0xd31c, 0xe37f, 0xf35e,
    0x02b1, 0x1290, 0x22f3, 0x32d2, 0x4235, 0x5214, 0x6277, 0x7256,
    0xb5ea, 0xa5cb, 0x95a8, 0x8589, 0xf56e, 0xe54f, 0xd52c, 0xc50d,
    0x34e2, 0x24c3, 0x14a0, 0x0481, 0x7466, 0x6447, 0x5424, 0x4405,
    0xa7db, 0xb7fa, 0x8799, 0x97b8, 0xe75f, 0xf77e, 0xc71d, 0xd73c,
    0x26d3, 0x36f2, 0x0691, 0x16b0, 0x6657, 0x7676, 0x4615, 0x5634,
    0xd94c, 0xc96d, 0xf90e, 0xe92f, 0x99c8, 0x89e9, 0xb98a, 0xa9ab,
    0x5844, 0x4865, 0x7806, 0x6827, 0x18c0, 0x08e1, 0x3882, 0x28a3,
    0xcb7d, 0xdb5c, 0xeb3f, 0xfb1e, 0x8bf9, 0x9bd8, 0xabbb, 0xbb9a,
    0x4a75, 0x5a54, 0x6a37, 0x7a16, 0x0af1, 0x1ad0, 0x2ab3, 0x3a92,
    0xfd2e, 0xed0f, 0xdd6c, 0xcd4d, 0xbdaa, 0xad8b, 0x9de8, 0x8dc9,
    0x7c26, 0x6c07, 0x5c64, 0x4c45, 0x3ca2, 0x2c83, 0x1ce0, 0x0cc1,
    0xef1f, 0xff3e, 0xcf5d, 0xdf7c, 0xaf9b, 0xbfba, 0x8fd9, 0x9ff8,
    0x6e17, 0x7e36, 0x4e55, 0x5e74, 0x2e93, 0x3eb2, 0x0ed1, 0x1ef0]

def crc16Step (crc : BitVec 16) (b : UInt8) : BitVec 16 :=
  (crc <<< 8) ^^^ crc16tab.getD (((crc >>> 8) ^^^ b.toBitVec.signExtend 16) &&& 0x00FF).toNat 0

def crc16 (buf : Bytes) (len : ℤ) : BitVec 16 := (buf.take len.toNat).foldl crc16Step 0

def redisSlotNum : ℕ := 16384

def clusterSlot (key : Bytes) : ℕ := (crc16 key (toInt32 key.length)).toNat % redisSlotNum

/-! ### The slot of the specification -/

def xmodem (text : Bytes) : BitVec 16 :=
  Crc.feed 0x1021 0 (text.flatMap fun b => Crc.upper 8 b.toBitVec)

def hashTag (key : Bytes) : Bytes :=
  match key.dropWhile (· ≠ 123) with
  | [] => key
  | _ :: rest =>
    if 125 ∈ rest ∧ rest.takeWhile (· ≠ 125) ≠ [] then rest.takeWhile (· ≠ 125) else key

def hashSlot (key : Bytes) : ℕ := (xmodem (hashTag key)).toNat % redisSlotNum

/-! ### The table -/

theorem crc16tab_eq (b : BitVec 8) :
    crc16tab.getD b.toNat 0 = Crc.feed 0x1021 0 (Crc.upper 8 b) := by
  have h : ∀ i : Fin 256, crc16tab.getD i 0 = Crc.feed 0x1021 0 (Crc.upper 8 (BitVec.ofNat 8 i)) := by
    decide +kernel
  simpa using h ⟨b.toNat, b.isLt⟩

theorem toNat_and_byte (y : BitVec 16) : (y &&& 0x00FF).toNat = (y.setWidth 8).toNat := by
  rw [BitVec.toNat_and, BitVec.toNat_setWidth]
  exact Nat.and_two_pow_sub_one_eq_mod y.toNat 8

theorem upper_index (c : BitVec 16) (b : BitVec 8) :
    Crc.upper 8 (((c >>> 8) ^^^ b.signExtend 16).setWidth 8) =
      List.zipWith xor (Crc.upper 8 c) (Crc.upper 8 b) := by
  apply ext_getElem
  · simp
  · intro i hi _
    have hi : i < 8 := by simpa using hi
    simp only [Crc.upper, getElem_map, getElem_range, getElem_zipWith]
    interval_cases i <;> simp [BitVec.getMsbD, BitVec.getElem_signExtend]

theorem crc16Step_eq (c : BitVec 16) (b : UInt8) :
    crc16Step c b = Crc.feed 0x1021 c (Crc.upper 8 b.toBitVec) := by
  have htable := Crc.feed_eq_table 0x1021 c (Crc.upper 8 b.toBitVec)
  rw [Crc.length_upper, ← upper_index] at htable
  rw [htable, crc16Step, toNat_and_byte, crc16tab_eq]
  exact BitVec.xor_comm _ _

theorem crc16_eq_xmodem (buf : Bytes) (len : ℤ) : crc16 buf len = xmodem (buf.take len.toNat) := by
  suffices ∀ (text : Bytes) (c : BitVec 16),
      text.foldl crc16Step c = Crc.feed 0x1021 c (text.flatMap fun b => Crc.upper 8 b.toBitVec) from
    this _ 0
  intro text
  induction text with
  | nil => exact fun c => rfl
  | cons b text ih =>
    intro c
    rw [foldl_cons, ih, crc16Step_eq, flatMap_cons, Crc.feed_append]

theorem crc16_of_string (text : Bytes) : crc16 text text.length = xmodem text := by
  rw [crc16_eq_xmodem, Int.toNat_natCast, take_length]

/-! ### When the slots agree -/

def scanned (key : Bytes) : Bytes := key.take (toInt32 key.length).toNat

theorem scanned_eq {key : Bytes} (h : key.length < 2 ^ 31) : scanned key = key := by
  rw [scanned, toInt32_eq (by omega) (by omega), Int.toNat_natCast, take_length]

def SameSlot (c d : BitVec 16) : Prop := c.toNat % redisSlotNum = d.toNat % redisSlotNum

end GBDownLinker
