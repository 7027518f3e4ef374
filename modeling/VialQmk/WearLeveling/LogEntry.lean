import VialQmk.WearLeveling.BackingStore

/-!
# Wear leveling - write log entries

A write log entry is a union of at most eight bytes with three encodings, told
apart by the two upper bits of its first byte.  The first part follows the
{lit}`LOG_ENTRY_*` macros.  The second part says what an entry means to the log
playback, whatever its encoding: how many bytes of the log it takes, and which
bytes of logical data it holds for which address.

Main results:

- Definition {lit}`LogEntry.decode`: the meaning of the bytes of an entry.
- Theorem {lit}`LogEntry.decode_congr`: only the bytes an entry takes matter.
- Theorems {lit}`LogEntry.decode_makeMultibyte`, {lit}`LogEntry.decode_makeOptimized64`
  and {lit}`LogEntry.decode_makeWord01`: decoding inverts each encoding.
-/

namespace VialQmk
namespace WearLeveling

/-- {lit}`write_log_entry_t`, through its member {lit}`raw8`.  The cells from 8 on are
the memory behind the union. -/
abbrev LogEntry := Memory UInt8

/-- The log entry type discriminator. -/
inductive LogEntryType
  | multibyte
  | optimized64
  | word01
  /-- The fourth value of the two bits, which no entry uses. -/
  | other
deriving DecidableEq, Repr

namespace LogEntry

/-- {lit}`LOG_ENTRY_MULTIBYTE_MAX_BYTES` -/
def multibyteMaxBytes : ℕ :=
  5

/-- {lit}`LOG_ENTRY_GET_TYPE` -/
def getType (log : LogEntry) : LogEntryType :=
  match (log 0).toNat >>> 6 &&& 3 with
  | 0 => .multibyte
  | 1 => .optimized64
  | 2 => .word01
  | _ => .other

/-- {lit}`LOG_ENTRY_MULTIBYTE_GET_ADDRESS` -/
def multibyteGetAddress (log : LogEntry) : ℕ :=
  ((log 0).toNat &&& 7) <<< 16 ||| (log 1).toNat <<< 8 ||| (log 2).toNat

/-- {lit}`LOG_ENTRY_MULTIBYTE_GET_LENGTH` -/
def multibyteGetLength (log : LogEntry) : ℕ :=
  (log 0).toNat >>> 3 &&& 7

/-- {lit}`LOG_ENTRY_MAKE_MULTIBYTE`: type, length and the three address bytes. -/
def makeMultibyte (address length : ℕ) : LogEntry :=
  Memory.store (fun _ => 0) 0
    [UInt8.ofNat ((0 &&& 3) <<< 6 ||| (length % 256 &&& 7) <<< 3 |||
        ((address >>> 16) % 256 &&& 7)),
      UInt8.ofNat ((address >>> 8) % 256 &&& 255),
      UInt8.ofNat (address % 256 &&& 255)]

/-- {lit}`LOG_ENTRY_OPTIMIZED_64_GET_ADDRESS` -/
def optimized64GetAddress (log : LogEntry) : ℕ :=
  (log 0).toNat &&& 63

/-- {lit}`LOG_ENTRY_OPTIMIZED_64_GET_VALUE` -/
def optimized64GetValue (log : LogEntry) : UInt8 :=
  log 1

/-- {lit}`LOG_ENTRY_MAKE_OPTIMIZED_64` -/
def makeOptimized64 (address : ℕ) (value : UInt8) : LogEntry :=
  Memory.store (fun _ => 0) 0
    [UInt8.ofNat ((1 &&& 3) <<< 6 ||| (address % 256 &&& 63)), value]

/-- {lit}`LOG_ENTRY_WORD_01_GET_ADDRESS` -/
def word01GetAddress (log : LogEntry) : ℕ :=
  ((log 0).toNat &&& 31) <<< 9 ||| (log 1).toNat <<< 1

/-- {lit}`LOG_ENTRY_WORD_01_GET_VALUE` -/
def word01GetValue (log : LogEntry) : UInt8 :=
  UInt8.ofNat ((log 0).toNat >>> 5 &&& 1)

/-- {lit}`LOG_ENTRY_MAKE_WORD_01` -/
def makeWord01 (address value : ℕ) : LogEntry :=
  Memory.store (fun _ => 0) 0
    [UInt8.ofNat ((2 &&& 3) <<< 6 ||| ((if value ≠ 0 then 1 else 0) &&& 1) <<< 5 |||
        ((address >>> 9) % 256 &&& 31)),
      UInt8.ofNat ((address >>> 1) % 256)]

end LogEntry

/-! ## The meaning of an entry -/

/-- What an entry is to the log playback: the bytes it takes in the log, and the
logical address and data it holds. -/
structure Entry where
  size : ℕ
  address : ℕ
  data : List UInt8
deriving DecidableEq, Repr

namespace Entry

/-- The effect of an entry on the logical data. -/
def apply (cache : Memory UInt8) (e : Entry) : Memory UInt8 :=
  cache.store e.address e.data

/-- The entry stays inside the logical data. -/
def InRange (c : Config) (e : Entry) : Prop :=
  e.address + e.data.length ≤ c.logicalSize

instance (c : Config) (e : Entry) : Decidable (e.InRange c) :=
  inferInstanceAs (Decidable (_ ≤ _))

end Entry

/-- The bytes of the log behind a multibyte entry of {lit}`length` data bytes. -/
def Config.multibyteSize (c : Config) (length : ℕ) : ℕ :=
  (if c.writeSize = 2 then 4 + (if 1 < length then 2 else 0) + (if 3 < length then 2 else 0)
  else if c.writeSize = 4 then 4 + (if 1 < length then 4 else 0)
  else 8)

namespace LogEntry

/-- The meaning of the bytes of an entry, if its type is known for the write size. -/
def decode (c : Config) (log : LogEntry) : Option Entry :=
  match log.getType with
  | .multibyte =>
    some ⟨c.multibyteSize log.multibyteGetLength, log.multibyteGetAddress,
      log.load 3 log.multibyteGetLength⟩
  | .optimized64 =>
    if c.writeSize = 2 then some ⟨2, log.optimized64GetAddress, [log.optimized64GetValue]⟩
    else none
  | .word01 =>
    if c.writeSize = 2 then some ⟨2, log.word01GetAddress, [log.word01GetValue, 0]⟩
    else none
  | .other => none

/-- A word that is not all zero starts an entry. -/
def IsEmpty (c : Config) (log : LogEntry) : Prop :=
  ∀ i, i < c.writeSize → log i = 0

instance (c : Config) (log : LogEntry) : Decidable (log.IsEmpty c) :=
  inferInstanceAs (Decidable (∀ i, i < _ → _))

end LogEntry

/-! ## The fields in plain arithmetic -/

namespace LogEntry

/-- Joining a field to the bits below it is an addition. -/
theorem shiftLeft_or_eq_add {x y k : ℕ} (h : y < 2 ^ k) : x <<< k ||| y = x * 2 ^ k + y := by
  rw [← Nat.shiftLeft_add_eq_or_of_lt h, Nat.shiftLeft_eq]

theorem and_three (x : ℕ) : x &&& 3 = x % 4 :=
  Nat.and_two_pow_sub_one_eq_mod x 2

theorem and_seven (x : ℕ) : x &&& 7 = x % 8 :=
  Nat.and_two_pow_sub_one_eq_mod x 3

theorem and_thirtyOne (x : ℕ) : x &&& 31 = x % 32 :=
  Nat.and_two_pow_sub_one_eq_mod x 5

theorem and_sixtyThree (x : ℕ) : x &&& 63 = x % 64 :=
  Nat.and_two_pow_sub_one_eq_mod x 6

theorem and_byte (x : ℕ) : x &&& 255 = x % 256 :=
  Nat.and_two_pow_sub_one_eq_mod x 8

/-- The type by the value of the first byte. -/
theorem getType_eq (log : LogEntry) :
    log.getType =
      if (log 0).toNat < 64 then .multibyte
      else if (log 0).toNat < 128 then .optimized64
      else if (log 0).toNat < 192 then .word01
      else .other := by
  have hlt : (log 0).toNat < 256 := (log 0).toNat_lt
  simp only [getType, and_three, Nat.shiftRight_eq_div_pow, Nat.reducePow]
  have hquot : (log 0).toNat / 64 % 4 = 0 ∨ (log 0).toNat / 64 % 4 = 1 ∨
      (log 0).toNat / 64 % 4 = 2 ∨ (log 0).toNat / 64 % 4 = 3 := by omega
  rcases hquot with h | h | h | h
  · rw [h, if_pos (by omega)]
    rfl
  · rw [h, if_neg (by omega), if_pos (by omega)]
    rfl
  · rw [h, if_neg (by omega), if_neg (by omega), if_pos (by omega)]
    rfl
  · rw [h, if_neg (by omega), if_neg (by omega), if_neg (by omega)]
    rfl

theorem multibyteGetLength_eq (log : LogEntry) :
    log.multibyteGetLength = (log 0).toNat / 8 % 8 := by
  simp only [multibyteGetLength, and_seven, Nat.shiftRight_eq_div_pow, Nat.reducePow]

theorem multibyteGetAddress_eq (log : LogEntry) :
    log.multibyteGetAddress =
      (log 0).toNat % 8 * 65536 + (log 1).toNat * 256 + (log 2).toNat := by
  have h1 : (log 1).toNat < 256 := (log 1).toNat_lt
  have h2 : (log 2).toNat < 256 := (log 2).toNat_lt
  have hlow : (log 1).toNat <<< 8 ||| (log 2).toNat = (log 1).toNat * 256 + (log 2).toNat :=
    shiftLeft_or_eq_add h2
  rw [multibyteGetAddress, and_seven, Nat.or_assoc, hlow, shiftLeft_or_eq_add (by omega)]
  omega

theorem word01GetAddress_eq (log : LogEntry) :
    log.word01GetAddress = (log 0).toNat % 32 * 512 + (log 1).toNat * 2 := by
  have h1 : (log 1).toNat < 256 := (log 1).toNat_lt
  have hlow : (log 1).toNat <<< 1 = (log 1).toNat * 2 := Nat.shiftLeft_eq _ _
  have hor : ((log 0).toNat % 32) <<< 9 ||| (log 1).toNat * 2 =
      (log 0).toNat % 32 * 512 + (log 1).toNat * 2 := shiftLeft_or_eq_add (by omega)
  rw [word01GetAddress, and_thirtyOne, hlow]
  exact hor

/-! ## Decoding what was encoded -/

/-- The bytes {lit}`LOG_ENTRY_MAKE_MULTIBYTE` computes. -/
theorem makeMultibyte_zero (address length : ℕ) :
    (makeMultibyte address length 0).toNat = length % 8 * 8 + address / 65536 % 8 := by
  have hor : (length % 256 &&& 7) <<< 3 ||| ((address >>> 16) % 256 &&& 7) =
      length % 8 * 8 + address / 65536 % 8 := by
    simp only [and_seven, Nat.shiftRight_eq_div_pow, Nat.reducePow]
    rw [shiftLeft_or_eq_add (by omega)]
    omega
  simp only [makeMultibyte, Memory.store]
  simp [hor]
  omega

theorem makeMultibyte_one (address length : ℕ) :
    (makeMultibyte address length 1).toNat = address / 256 % 256 := by
  simp [makeMultibyte, and_byte, Memory.store, Nat.shiftRight_eq_div_pow]

theorem makeMultibyte_two (address length : ℕ) :
    (makeMultibyte address length 2).toNat = address % 256 := by
  simp [makeMultibyte, and_byte, Memory.store]

/-- A multibyte entry with its data: the header bytes stay what they are. -/
def multibyteEntry (address : ℕ) (value : List UInt8) : LogEntry :=
  (makeMultibyte address value.length).store 3 value

theorem getType_multibyteEntry {address : ℕ} {value : List UInt8} :
    (multibyteEntry address value).getType = .multibyte := by
  rw [getType_eq, if_pos]
  rw [multibyteEntry, Memory.store_of_lt (by omega), makeMultibyte_zero]
  omega

theorem multibyteGetLength_multibyteEntry {address : ℕ} {value : List UInt8}
    (hlen : value.length < 8) :
    (multibyteEntry address value).multibyteGetLength = value.length := by
  rw [multibyteGetLength_eq, multibyteEntry, Memory.store_of_lt (by omega), makeMultibyte_zero]
  omega

theorem multibyteGetAddress_multibyteEntry {address : ℕ} {value : List UInt8}
    (haddr : address < 2 ^ 19) :
    (multibyteEntry address value).multibyteGetAddress = address := by
  rw [multibyteGetAddress_eq, multibyteEntry, Memory.store_of_lt (by omega),
    Memory.store_of_lt (by omega), Memory.store_of_lt (by omega), makeMultibyte_zero,
    makeMultibyte_one, makeMultibyte_two]
  omega

/-- Decoding inverts the multibyte encoding. -/
theorem decode_makeMultibyte {c : Config} {address : ℕ} {value : List UInt8}
    (haddr : address < 2 ^ 19) (hlen : value.length < 8) :
    decode c (multibyteEntry address value) =
      some ⟨c.multibyteSize value.length, address, value⟩ := by
  have hload : (multibyteEntry address value).load 3 value.length = value :=
    Memory.load_store_same _ 3 value
  simp only [decode, getType_multibyteEntry, multibyteGetLength_multibyteEntry hlen,
    multibyteGetAddress_multibyteEntry haddr, hload]

/-- The first byte {lit}`LOG_ENTRY_MAKE_OPTIMIZED_64` computes. -/
theorem makeOptimized64_zero {address : ℕ} (value : UInt8) (haddr : address < 64) :
    (makeOptimized64 address value 0).toNat = 64 + address := by
  have hor : (1 &&& 3) <<< 6 ||| (address % 256 &&& 63) = 64 + address := by
    rw [and_sixtyThree, shiftLeft_or_eq_add (by omega), and_three]
    omega
  simp only [makeOptimized64, hor]
  simp [Memory.store]
  omega

/-- Decoding inverts the encoding of one byte at an address below 64. -/
theorem decode_makeOptimized64 {c : Config} {address : ℕ} {value : UInt8}
    (hW : c.writeSize = 2) (haddr : address < 64) :
    decode c (makeOptimized64 address value) = some ⟨2, address, [value]⟩ := by
  have hzero := makeOptimized64_zero value haddr
  have htype : getType (makeOptimized64 address value) = .optimized64 := by
    rw [getType_eq, hzero, if_neg (by omega), if_pos (by omega)]
  have haddress : optimized64GetAddress (makeOptimized64 address value) = address := by
    rw [optimized64GetAddress, and_sixtyThree, hzero]
    omega
  simp only [decode, htype, hW, haddress]
  simp [optimized64GetValue, makeOptimized64, Memory.store]

/-- The first byte {lit}`LOG_ENTRY_MAKE_WORD_01` computes. -/
theorem makeWord01_zero {address value : ℕ} (haddr : address < 16384) (hvalue : value ≤ 1) :
    (makeWord01 address value 0).toNat = 128 + value * 32 + address / 512 := by
  have hbit : (if value ≠ 0 then 1 else 0) &&& 1 = value := by
    rcases Nat.le_one_iff_eq_zero_or_eq_one.mp hvalue with h | h <;> simp [h]
  have hlow : (address >>> 9) % 256 &&& 31 = address / 512 := by
    rw [and_thirtyOne, Nat.shiftRight_eq_div_pow]
    omega
  have hor : (2 &&& 3) <<< 6 ||| ((if value ≠ 0 then 1 else 0) &&& 1) <<< 5 |||
      ((address >>> 9) % 256 &&& 31) = 128 + value * 32 + address / 512 := by
    rw [hbit, hlow, Nat.or_assoc, shiftLeft_or_eq_add (y := address / 512) (by omega),
      shiftLeft_or_eq_add (by omega), and_three]
    omega
  simp only [makeWord01, hor]
  simp [Memory.store]
  omega

/-- Decoding inverts the encoding of a word that is 0 or 1. -/
theorem decode_makeWord01 {c : Config} {address value : ℕ} (hW : c.writeSize = 2)
    (hmod : address % 2 = 0) (haddr : address < 16384) (hvalue : value ≤ 1) :
    decode c (makeWord01 address value) = some ⟨2, address, [UInt8.ofNat value, 0]⟩ := by
  have hzero := makeWord01_zero haddr hvalue
  have hone : (makeWord01 address value 1).toNat = address / 2 % 256 := by
    simp [makeWord01, Memory.store, Nat.shiftRight_eq_div_pow]
  have htype : getType (makeWord01 address value) = .word01 := by
    rw [getType_eq, hzero, if_neg (by omega), if_neg (by omega), if_pos (by omega)]
  have haddress : word01GetAddress (makeWord01 address value) = address := by
    rw [word01GetAddress_eq, hzero, hone]
    omega
  have hval : word01GetValue (makeWord01 address value) = UInt8.ofNat value := by
    rw [word01GetValue, hzero, Nat.and_one_is_mod, Nat.shiftRight_eq_div_pow]
    congr 1
    omega
  simp only [decode, htype, hW, haddress, hval, if_true]

/-! ## Entries that are partly written -/

theorem add_le_multibyteSize {c : Config} {n : ℕ} (hn : n ≤ 5) : 3 + n ≤ c.multibyteSize n := by
  rcases c.writeSize_eq with h | h | h <;> simp only [Config.multibyteSize, h] <;>
    split_ifs <;> omega

/-- What {lit}`decode` reads of an entry that is not of the multibyte type. -/
theorem decode_congr_short {c : Config} {log log' : LogEntry} {e : Entry}
    (htype : log.getType ≠ .multibyte) (hdec : decode c log = some e)
    (h : ∀ i, i < e.size → log i = log' i) : decode c log' = some e := by
  have hsize : e.size = 2 := by
    cases ht : log.getType <;> simp only [decode, ht] at hdec
    · exact absurd ht htype
    · split_ifs at hdec
      rw [← Option.some.inj hdec]
    · split_ifs at hdec
      rw [← Option.some.inj hdec]
    · cases hdec
  have h0 : log 0 = log' 0 := h 0 (by omega)
  have h1 : log 1 = log' 1 := h 1 (by omega)
  have htype' : log'.getType = log.getType := by simp only [getType, h0]
  rw [← hdec]
  cases ht : log.getType with
  | multibyte => exact absurd ht htype
  | optimized64 =>
    simp only [decode, htype', ht, optimized64GetAddress, optimized64GetValue, h0, h1]
  | word01 => simp only [decode, htype', ht, word01GetAddress, word01GetValue, h0, h1]
  | other => simp only [decode, htype', ht]

/-- Only the bytes an entry takes matter to its meaning. -/
theorem decode_congr {c : Config} {log log' : LogEntry} {e : Entry}
    (hdec : decode c log = some e) (hlen : e.data.length ≤ 5)
    (h : ∀ i, i < e.size → log i = log' i) : decode c log' = some e := by
  by_cases htype : log.getType = .multibyte
  · have he : e = ⟨c.multibyteSize log.multibyteGetLength, log.multibyteGetAddress,
        log.load 3 log.multibyteGetLength⟩ := by
      simpa only [decode, htype, Option.some.injEq, eq_comm] using hdec
    have hlength : log.multibyteGetLength ≤ 5 := by simpa [he] using hlen
    have hsize : 3 + log.multibyteGetLength ≤ e.size := by
      rw [he]
      exact add_le_multibyteSize hlength
    have h0 : log 0 = log' 0 := h 0 (by omega)
    have h1 : log 1 = log' 1 := h 1 (by omega)
    have h2 : log 2 = log' 2 := h 2 (by omega)
    have htype' : log'.getType = .multibyte := by rw [← htype]; simp only [getType, h0]
    have hget : log'.multibyteGetLength = log.multibyteGetLength := by
      simp only [multibyteGetLength, h0]
    have hload : log'.load 3 log.multibyteGetLength = log.load 3 log.multibyteGetLength :=
      Memory.load_congr fun i _ hi => (h i (by omega)).symm
    rw [he]
    simp only [decode, htype', hget, hload, multibyteGetAddress, h0, h1, h2]
  · exact decode_congr_short htype hdec h

end LogEntry

end WearLeveling
end VialQmk
