import VialQmk.LegacyEeprom.EmulatedFlash
import Mathlib.Tactic.NormNum

/-!
# Legacy EEPROM - the entries of the write log

A byte below address 128 has an entry of one half word, and so has a word of 0 or 1; any other
word has two of them, and the first one alone is an entry that the boot skips.

Main results:

- Definitions {lit}`Entry` and {lit}`Entry.encode`: the entries and their half words.
- Theorem {lit}`replay_entries`: the replay of a log stores its entries one by one.
-/

namespace VialQmk
namespace LegacyEeprom

open Function (update)

/-! ## Bits of a half word -/

theorem byteEntry_mask (x : HalfWord) : x &&& feeWordEncoding = 0 ↔ x.toNat < 0x8000 := by
  have hmask : feeWordEncoding = BitVec.twoPow 16 15 := by decide
  rw [hmask, BitVec.and_twoPow, ← not_le]
  have hmsb : x.getLsbD 15 = decide (2 ^ 15 ≤ x.toNat) := by
    have h := BitVec.msb_eq_decide x
    rwa [BitVec.msb_eq_getLsbD_last] at h
  rw [hmsb]
  by_cases hle : 2 ^ 15 ≤ x.toNat
  · rw [decide_eq_true hle, if_pos rfl]
    exact iff_of_false (by decide) (not_not.mpr hle)
  · rw [decide_eq_false hle, if_neg (by decide)]
    exact iff_of_true rfl hle

/-- The three highest bits, and the mask of an address. -/
theorem append_and_top (hi mask : BitVec 3) (lo : BitVec 13) :
    (hi ++ lo : HalfWord) &&& (mask ++ 0#13 : HalfWord) = (hi &&& mask) ++ 0#13 := by
  rw [BitVec.and_append, BitVec.and_zero]

theorem append_and_address (hi : BitVec 3) (lo : BitVec 13) :
    (hi ++ lo : HalfWord) &&& 0x1FFF = 0#3 ++ lo := by
  have hmask : (0x1FFF : HalfWord) = 0#3 ++ BitVec.allOnes 13 := by decide
  rw [hmask, BitVec.and_append, BitVec.and_zero, BitVec.and_allOnes]

theorem toNat_append_thirteen (hi : BitVec 3) (lo : BitVec 13) :
    (hi ++ lo : HalfWord).toNat = hi.toNat * 8192 + lo.toNat := by
  rw [BitVec.toNat_append, ← Nat.shiftLeft_add_eq_or_of_lt lo.isLt, Nat.shiftLeft_eq]

theorem eq_zero_append {x : HalfWord} (h : x.toNat < 0x2000) : x = 0#3 ++ x.setWidth 13 := by
  apply BitVec.eq_of_toNat_eq
  rw [toNat_append_thirteen, BitVec.toNat_setWidth]
  simp
  omega

theorem wordAt_low (dataBuf : DataBuf) (address : ℕ) :
    (wordAt dataBuf address).setWidth 8 = dataBuf address :=
  BitVec.setWidth_append_eq_right

theorem wordAt_high (dataBuf : DataBuf) (address : ℕ) :
    (wordAt dataBuf address >>> 8).setWidth 8 = dataBuf (address + 1) := by
  have hlow := (dataBuf address).isLt
  have hhigh := (dataBuf (address + 1)).isLt
  apply BitVec.eq_of_toNat_eq
  rw [wordAt, BitVec.toNat_setWidth, BitVec.toNat_ushiftRight, BitVec.toNat_append,
    ← Nat.shiftLeft_add_eq_or_of_lt hlow, Nat.shiftLeft_eq, Nat.shiftRight_eq_div_pow]
  omega

/-! ## Entries -/

/-- An entry of the log, by the number of its byte or of its word. -/
inductive Entry
  | byte (address : ℕ) (value : Byte)
  | encoded (word : ℕ) (value : Bool)
  | next (word : ℕ) (value : HalfWord)
  | incomplete (word : ℕ)

/-- The byte of a word at an address. -/
def byteOf (word : ℕ) (value : HalfWord) (address : ℕ) : Option Byte :=
  if address = 2 * word then some (value.setWidth 8)
  else if address = 2 * word + 1 then some ((value >>> 8).setWidth 8)
  else none

theorem setWord_apply (dataBuf : DataBuf) (word : ℕ) (value : HalfWord) (address : ℕ) :
    setWord dataBuf (2 * word) value address =
      (byteOf word value address).getD (dataBuf address) := by
  simp only [setWord, byteOf, Function.update_apply]
  split_ifs <;> first | rfl | omega

namespace Entry

/-- The half words of an entry. -/
def encode : Entry → List HalfWord
  | byte address value => [BitVec.ofNat 16 (address * 256 + value.toNat)]
  | encoded word value =>
    [(if value then 0b101#3 else 0b100#3) ++ BitVec.ofNat 13 word]
  | next word value => [0b111#3 ++ BitVec.ofNat 13 (word - 64), ~~~value]
  | incomplete word => [0b111#3 ++ BitVec.ofNat 13 (word - 64), feeEmptyWord]

/-- The entries that the driver writes. -/
def WellFormed (c : Config) : Entry → Prop
  | byte address _ => address < 128 ∧ address < c.densityBytes
  | encoded word _ => word < c.writeLogBase
  | next word value => 64 ≤ word ∧ word < c.writeLogBase ∧ value ≠ 0
  | incomplete word => 64 ≤ word ∧ word < c.writeLogBase

/-- What an entry stores at an address. -/
def valueAt (address : ℕ) : Entry → Option Byte
  | byte address' value => if address = address' then some value else none
  | encoded word value => byteOf word (if value then 1 else 0) address
  | next word value => byteOf word value address
  | incomplete _ => none

/-- The memory after an entry. -/
def store (dataBuf : DataBuf) (e : Entry) : DataBuf := fun address =>
  (e.valueAt address).getD (dataBuf address)

end Entry

/-- The half words of a log. -/
def encodeAll (es : List Entry) : List HalfWord :=
  es.flatMap Entry.encode

@[simp]
theorem encodeAll_nil : encodeAll [] = [] :=
  rfl

@[simp]
theorem encodeAll_append (es es' : List Entry) :
    encodeAll (es ++ es') = encodeAll es ++ encodeAll es' :=
  List.flatMap_append

@[simp]
theorem encodeAll_singleton (e : Entry) : encodeAll [e] = e.encode :=
  List.append_nil _

/-! ## The replay of an entry -/

section Replay

variable {c : Config} (log : List HalfWord) (slot : ℕ) (dataBuf : DataBuf)

theorem replay_byte {address : ℕ} (haddress : address < 128) (value : Byte) :
    replay c ((Entry.byte address value).encode ++ log) slot dataBuf =
      replay c log (slot + 1) (Entry.store dataBuf (.byte address value)) := by
  have hvalue := value.isLt
  have htoNat : (BitVec.ofNat 16 (address * 256 + value.toNat)).toNat =
      address * 256 + value.toNat := by
    rw [BitVec.toNat_ofNat]
    omega
  have hne : BitVec.ofNat 16 (address * 256 + value.toNat) ≠ feeEmptyWord := by
    intro heq
    have heq' := congrArg BitVec.toNat heq
    rw [htoNat] at heq'
    simp [feeEmptyWord] at heq'
    omega
  have hmask : BitVec.ofNat 16 (address * 256 + value.toNat) &&& feeWordEncoding = 0 := by
    rw [byteEntry_mask, htoNat]
    omega
  have hshift : (BitVec.ofNat 16 (address * 256 + value.toNat) >>> 8).toNat = address := by
    rw [BitVec.toNat_ushiftRight, htoNat, Nat.shiftRight_eq_div_pow]
    omega
  have hlow : (BitVec.ofNat 16 (address * 256 + value.toNat)).setWidth 8 = value := by
    apply BitVec.eq_of_toNat_eq
    rw [BitVec.toNat_setWidth, htoNat]
    omega
  rw [Entry.encode, List.singleton_append, replay.eq_def]
  dsimp only
  rw [if_neg hne, if_pos hmask, hshift, hlow]
  congr 1
  funext a
  simp only [Entry.store, Entry.valueAt, Function.update_apply]
  split_ifs <;> rfl

theorem storeWord_eq {word : ℕ} (hword : word < c.writeLogBase) {address : HalfWord}
    (haddress : address.toNat = 2 * word) (value : HalfWord) :
    storeWord c dataBuf address value =
      fun a => (byteOf word value a).getD (dataBuf a) := by
  have hlt : address.toNat < c.densityBytes := by
    rw [Config.writeLogBase] at hword
    omega
  rw [storeWord, if_pos hlt, haddress]
  funext a
  exact setWord_apply dataBuf word value a

/-- The half word of an entry for a word is programmed, and it is not one for a byte. -/
theorem append_ne_empty {hi : BitVec 3} {word : ℕ} (hmax : word < 0x2000)
    (hlt : hi.toNat < 7 ∨ word < 0x1FFF) :
    (hi ++ BitVec.ofNat 13 word : HalfWord) ≠ feeEmptyWord := by
  intro heq
  have heq' := congrArg BitVec.toNat heq
  have hhi := hi.isLt
  rw [toNat_append_thirteen, BitVec.toNat_ofNat] at heq'
  simp [feeEmptyWord] at heq'
  omega

theorem append_not_byte {hi : BitVec 3} (hhi : 4 ≤ hi.toNat) (lo : BitVec 13) :
    ¬(hi ++ lo : HalfWord) &&& feeWordEncoding = 0 := by
  rw [byteEntry_mask, toNat_append_thirteen]
  omega

theorem append_and_valueNext (hi : BitVec 3) (lo : BitVec 13) :
    (hi ++ lo : HalfWord) &&& feeValueNext = feeValueNext ↔ hi &&& 0b011#3 = 0b011#3 := by
  have hmask : feeValueNext = 0b011#3 ++ 0#13 := by decide
  rw [hmask, append_and_top, BitVec.append_left_inj]

theorem append_and_valueReserved (hi : BitVec 3) (lo : BitVec 13) :
    (hi ++ lo : HalfWord) &&& feeValueReserved = 0 ↔ hi &&& 0b010#3 = 0#3 := by
  have hmask : feeValueReserved = 0b010#3 ++ 0#13 := by decide
  have hzero : (0 : HalfWord) = 0#3 ++ 0#13 := by decide
  rw [hmask, append_and_top, hzero, BitVec.append_left_inj]

theorem toNat_address {hi : BitVec 3} {word : ℕ} (hword : word < 0x2000) :
    (((hi ++ BitVec.ofNat 13 word : HalfWord) &&& 0x1FFF) <<< 1).toNat = 2 * word := by
  rw [append_and_address, BitVec.toNat_shiftLeft, toNat_append_thirteen, BitVec.toNat_ofNat,
    Nat.shiftLeft_eq]
  simp
  omega

theorem replay_encoded {word : ℕ} (hword : word < c.writeLogBase)
    (hmax : c.writeLogBase ≤ 0x2000) (value : Bool) :
    replay c ((Entry.encoded word value).encode ++ log) slot dataBuf =
      replay c log (slot + 1) (Entry.store dataBuf (.encoded word value)) := by
  have hi : ∀ value : Bool, 4 ≤ (if value then 0b101#3 else 0b100#3).toNat ∧
      (if value then 0b101#3 else 0b100#3).toNat < 7 := by decide
  have hne := @append_ne_empty (if value then 0b101#3 else 0b100#3) word (by omega)
    (.inl (hi value).2)
  have hbyte := append_not_byte (hi value).1 (BitVec.ofNat 13 word)
  have hnext : ∀ value : Bool, ¬(if value then 0b101#3 else 0b100#3) &&& 0b011#3 = 0b011#3 := by
    decide
  have hreserved : ∀ value : Bool, (if value then 0b101#3 else 0b100#3) &&& 0b010#3 = 0#3 := by
    decide
  have hencoded : ((if value then 0b101#3 else 0b100#3) ++ BitVec.ofNat 13 word &&&
      feeValueEncoded : HalfWord) >>> 13 = if value then 1 else 0 := by
    have hmask : feeValueEncoded = 0b001#3 ++ 0#13 := by decide
    rw [hmask, append_and_top]
    cases value <;> decide
  rw [Entry.encode, replay.eq_def]
  simp only [List.cons_append, List.nil_append]
  rw [if_neg hne, if_neg hbyte, if_neg (mt (append_and_valueNext _ _).mp (hnext value)),
    if_neg (not_not.mpr ((append_and_valueReserved _ _).mpr (hreserved value))), hencoded,
    storeWord_eq _ hword (toNat_address (by omega))]
  rfl

theorem replay_next {word : ℕ} (hlow : 64 ≤ word) (hword : word < c.writeLogBase)
    (hmax : c.writeLogBase ≤ 0x2000) {value : HalfWord} (hvalue : value ≠ 0) :
    replay c ((Entry.next word value).encode ++ log) slot dataBuf =
      replay c log (slot + 2) (Entry.store dataBuf (.next word value)) := by
  have hne : (0b111#3 ++ BitVec.ofNat 13 (word - 64) : HalfWord) ≠ feeEmptyWord :=
    append_ne_empty (by omega) (.inr (by omega))
  have hbyte := @append_not_byte 0b111#3 (by decide) (BitVec.ofNat 13 (word - 64))
  have hnext := (append_and_valueNext 0b111#3 (BitVec.ofNat 13 (word - 64))).mpr (by decide)
  have haddress : ((((0b111#3 ++ BitVec.ofNat 13 (word - 64) : HalfWord) &&& 0x1FFF) <<< 1) +
      feeByteRange).toNat = 2 * word := by
    rw [BitVec.toNat_add, toNat_address (by omega)]
    simp [feeByteRange]
    omega
  rw [Entry.encode, replay.eq_def]
  simp only [List.cons_append, List.nil_append]
  rw [if_neg hne, if_neg hbyte, if_pos hnext, BitVec.not_not, if_neg hvalue,
    storeWord_eq _ hword haddress]
  rfl

theorem replay_incomplete {word : ℕ} (hlow : 64 ≤ word) (hword : word < c.writeLogBase)
    (hmax : c.writeLogBase ≤ 0x2000) :
    replay c ((Entry.incomplete word).encode ++ log) slot dataBuf =
      replay c log (slot + 2) (Entry.store dataBuf (.incomplete word)) := by
  have hne : (0b111#3 ++ BitVec.ofNat 13 (word - 64) : HalfWord) ≠ feeEmptyWord :=
    append_ne_empty (by omega) (.inr (by omega))
  have hbyte := @append_not_byte 0b111#3 (by decide) (BitVec.ofNat 13 (word - 64))
  have hnext := (append_and_valueNext 0b111#3 (BitVec.ofNat 13 (word - 64))).mpr (by decide)
  rw [Entry.encode, replay.eq_def]
  simp only [List.cons_append, List.nil_append]
  rw [if_neg hne, if_neg hbyte, if_pos hnext, if_pos (by decide)]
  rfl

theorem replay_entry {e : Entry} (he : e.WellFormed c) (hmax : c.writeLogBase ≤ 0x2000) :
    replay c (e.encode ++ log) slot dataBuf =
      replay c log (slot + e.encode.length) (e.store dataBuf) := by
  cases e with
  | byte address value => exact replay_byte log slot dataBuf he.1 value
  | encoded word value => exact replay_encoded log slot dataBuf he hmax value
  | next word value => exact replay_next log slot dataBuf he.1 he.2.1 hmax he.2.2
  | incomplete word => exact replay_incomplete log slot dataBuf he.1 he.2 hmax

/-- The replay of a log: its entries are stored one by one, up to the first free slot. -/
theorem replay_entries (hmax : c.writeLogBase ≤ 0x2000) (es : List Entry)
    (hes : ∀ e ∈ es, e.WellFormed c) (free : ℕ) :
    replay c (encodeAll es ++ List.replicate free feeEmptyWord) slot dataBuf =
      (es.foldl Entry.store dataBuf, slot + (encodeAll es).length) := by
  induction es generalizing slot dataBuf with
  | nil =>
    cases free with
    | zero => rfl
    | succ free =>
      rw [encodeAll_nil, List.nil_append, List.replicate_succ, replay.eq_def]
      exact if_pos rfl
  | cons e es ih =>
    have hsplit : encodeAll (e :: es) = e.encode ++ encodeAll es := List.flatMap_cons
    rw [hsplit, List.append_assoc, replay_entry _ _ _ (hes e List.mem_cons_self) hmax,
      ih _ _ fun e' he' => hes e' (List.mem_cons_of_mem e he'), List.foldl_cons,
      List.length_append, Nat.add_assoc]

end Replay

/-! ## What a log stores -/

/-- The values that the entries store at an address, the latest one last. -/
def valuesAt (address : ℕ) (es : List Entry) : List Byte :=
  es.filterMap (Entry.valueAt address)

theorem valuesAt_append (address : ℕ) (es : List Entry) (e : Entry) :
    valuesAt address (es ++ [e]) = valuesAt address es ++ (e.valueAt address).toList := by
  rw [valuesAt, valuesAt, List.filterMap_append]
  congr 1

/-- The last value counts. -/
theorem foldl_store (dataBuf : DataBuf) (es : List Entry) (address : ℕ) :
    es.foldl Entry.store dataBuf address =
      ((valuesAt address es).getLast?).getD (dataBuf address) := by
  induction es using List.reverseRecOn with
  | nil => rfl
  | append_singleton es e ih =>
    rw [List.foldl_append, List.foldl_cons, List.foldl_nil, Entry.store, ih, valuesAt_append]
    cases e.valueAt address with
    | none => simp
    | some value => simp

end LegacyEeprom
end VialQmk
