import VialQmk.Library.Runs
import Mathlib.Logic.Function.Basic

/-!
# Legacy EEPROM - the emulation in flash

The memory of the EEPROM is kept in RAM.  The flash holds a compacted copy of it, as its one's
complement, and behind the copy a log of the writes since then.  A write goes into the copy
where that is still erased, else into the log, and when the log is full the flash is erased and
the copy is written anew.

Main results:

- Definitions {lit}`Config` and {lit}`FlashOperation`: the areas of the flash and what is done
  to it.
- Definition {lit}`State.eepromInit`: a boot.
- Definitions {lit}`State.writeDataByte` and {lit}`State.writeDataWord`: the writes.
-/

namespace VialQmk
namespace LegacyEeprom

open Function (update)

abbrev Byte := BitVec 8

abbrev HalfWord := BitVec 16

/-- {lit}`FEE_ADDRESS_MAX_SIZE` -/
def feeAddressMaxSize : ℕ := 0x4000

/-- The sizes that a keyboard configures, in bytes, as the checks of the header accept them. -/
structure Config where
  /-- {lit}`FEE_PAGE_SIZE` -/
  pageSize : ℕ
  /-- {lit}`FEE_PAGE_COUNT` -/
  pageCount : ℕ
  /-- {lit}`FEE_DENSITY_BYTES`, where it is defined -/
  density : Option ℕ
  /-- {lit}`FEE_WRITE_LOG_BYTES`, where it is defined -/
  writeLog : Option ℕ
  /-- A page is made of words. -/
  pageSize_dvd : 4 ∣ pageSize
  density_checks : ∀ bytes ∈ density,
    bytes ≤ pageCount * pageSize ∧ bytes ≤ feeAddressMaxSize ∧ bytes % 2 = 0
  writeLog_checks : ∀ bytes ∈ writeLog,
    density.getD (pageCount * pageSize / 2) + bytes ≤ pageCount * pageSize ∧ bytes % 2 = 0

namespace Config

variable (c : Config)

/-- {lit}`FEE_DENSITY_BYTES` -/
def densityBytes : ℕ :=
  c.density.getD (c.pageCount * c.pageSize / 2)

/-- {lit}`FEE_WRITE_LOG_BYTES` -/
def writeLogBytes : ℕ :=
  c.writeLog.getD (c.pageCount * c.pageSize - c.densityBytes)

/-- {lit}`FEE_COMPACTED_LAST_ADDRESS` and {lit}`FEE_WRITE_LOG_BASE_ADDRESS`, in half words from
the first page. -/
def writeLogBase : ℕ :=
  c.densityBytes / 2

/-- The half words of the write log. -/
def writeLogLength : ℕ :=
  c.writeLogBytes / 2

/-- {lit}`FEE_WRITE_LOG_LAST_ADDRESS` -/
def writeLogLast : ℕ :=
  c.writeLogBase + c.writeLogLength

end Config

/-! ## The flash -/

/-- {lit}`FEE_EMPTY_WORD` -/
def feeEmptyWord : HalfWord := 0xFFFF

/-- {lit}`FEE_WORD_ENCODING` -/
def feeWordEncoding : HalfWord := 0x8000

/-- {lit}`FEE_VALUE_NEXT` -/
def feeValueNext : HalfWord := 0x6000

/-- {lit}`FEE_VALUE_RESERVED` -/
def feeValueReserved : HalfWord := 0x4000

/-- {lit}`FEE_VALUE_ENCODED` -/
def feeValueEncoded : HalfWord := 0x2000

/-- {lit}`FEE_BYTE_RANGE` -/
def feeByteRange : HalfWord := 0x80

/-- The half words of the flash, from the first page of the EEPROM. -/
abbrev Flash := ℕ → HalfWord

/-- What is done to the flash. -/
inductive FlashOperation
  /-- {lit}`FLASH_ErasePage` -/
  | erasePage (page : ℕ)
  /-- {lit}`FLASH_ProgramHalfWord` -/
  | programHalfWord (slot : ℕ) (data : HalfWord)
deriving DecidableEq

namespace FlashOperation

/-- The flash after an operation.  A program clears bits. -/
def apply (c : Config) (flash : Flash) : FlashOperation → Flash
  | erasePage page => fun slot =>
    if page * c.pageSize ≤ 2 * slot ∧ 2 * slot < (page + 1) * c.pageSize then feeEmptyWord
    else flash slot
  | programHalfWord slot data => update flash slot (flash slot &&& data)

/-- A half word is programmed when it is erased or when the value only clears bits. -/
def Permitted (flash : Flash) : FlashOperation → Prop
  | erasePage _ => True
  | programHalfWord slot data => flash slot = feeEmptyWord ∨ flash slot &&& data = data

end FlashOperation

/-! ## The memory -/

/-- {lit}`DataBuf` -/
abbrev DataBuf := ℕ → Byte

/-- {lit}`*(uint16_t *)(&DataBuf[Address])` -/
def wordAt (dataBuf : DataBuf) (address : ℕ) : HalfWord :=
  dataBuf (address + 1) ++ dataBuf address

/-- {lit}`*(uint16_t *)(&DataBuf[Address]) = wvalue` -/
def setWord (dataBuf : DataBuf) (address : ℕ) (wvalue : HalfWord) : DataBuf :=
  update (update dataBuf address (wvalue.setWidth 8)) (address + 1) ((wvalue >>> 8).setWidth 8)

/-- The variables of the driver, the flash, and the operations that a call has issued. -/
structure State where
  flash : Flash
  dataBuf : DataBuf
  emptySlot : ℕ
  issued : List FlashOperation

/-- What the functions return when no operation of the flash fails. -/
inductive FlashStatus
  | zero
  | complete
  | badAddress
deriving DecidableEq

/-- The word of an entry, when its address is one. -/
def storeWord (c : Config) (dataBuf : DataBuf) (address wvalue : HalfWord) : DataBuf :=
  if address.toNat < c.densityBytes then setWord dataBuf address.toNat wvalue else dataBuf

/-- The replay of the write log, from a slot on: the memory and the first free slot. -/
def replay (c : Config) : List HalfWord → ℕ → DataBuf → DataBuf × ℕ
  | [], slot, dataBuf => (dataBuf, slot)
  | address :: log, slot, dataBuf =>
    if address = feeEmptyWord then (dataBuf, slot)
    -- Check for lowest 128-bytes optimization
    else if address &&& feeWordEncoding = 0 then
      replay c log (slot + 1) (update dataBuf (address >>> 8).toNat (address.setWidth 8))
    else if address &&& feeValueNext = feeValueNext then
      match log with
      | [] => (dataBuf, slot + 1)
      | next :: log =>
        let wvalue := ~~~next
        -- Possibly incomplete write.  Ignore and continue
        if wvalue = 0 then replay c log (slot + 2) dataBuf
        else replay c log (slot + 2)
          (storeWord c dataBuf (((address &&& 0x1FFF) <<< 1) + feeByteRange) wvalue)
    else if address &&& feeValueReserved ≠ 0 then replay c log (slot + 1) dataBuf
    else replay c log (slot + 1)
      (storeWord c dataBuf ((address &&& 0x1FFF) <<< 1) ((address &&& feeValueEncoded) >>> 13))

/-- The half words of the write log. -/
def logHalfWords (c : Config) (flash : Flash) : List HalfWord :=
  (List.range c.writeLogLength).map fun i => flash (c.writeLogBase + i)

namespace State

variable (c : Config)

/-- An operation of the flash. -/
def issue (op : FlashOperation) (s : State) : State :=
  { s with flash := op.apply c s.flash, issued := s.issued ++ [op] }

/-- {lit}`EEPROM_Init` -/
def eepromInit (s : State) : State :=
  let dataBuf := (List.range c.writeLogBase).foldl
    (fun dataBuf i => setWord dataBuf (2 * i) (~~~s.flash i)) s.dataBuf
  let r := replay c (logHalfWords c s.flash) c.writeLogBase dataBuf
  { s with dataBuf := r.1, emptySlot := r.2 }

/-- {lit}`eeprom_clear` -/
def eepromClear (s : State) : State :=
  let s := (List.range c.pageCount).foldl (fun s page => s.issue c (.erasePage page)) s
  { s with emptySlot := c.writeLogBase }

/-- {lit}`eeprom_compact` -/
def eepromCompact (s : State) : State × FlashStatus :=
  let s := (List.range c.writeLogBase).foldl
    (fun s i =>
      let value := wordAt s.dataBuf (2 * i)
      if value ≠ 0 then s.issue c (.programHalfWord i (~~~value)) else s)
    (s.eepromClear c)
  (s, .complete)

/-- {lit}`eeprom_write_direct_entry` -/
def eepromWriteDirectEntry (address : HalfWord) (s : State) : State × FlashStatus :=
  let directSlot := (address &&& 0xFFFE).toNat / 2
  if s.flash directSlot = feeEmptyWord then
    let value := ~~~wordAt s.dataBuf (address &&& 0xFFFE).toNat
    -- Early exit if a write isn't needed
    if value = feeEmptyWord then (s, .complete)
    else (s.issue c (.programHalfWord directSlot value), .complete)
  else (s, .zero)

/-- A half word at the first free slot. -/
def append (data : HalfWord) (s : State) : State :=
  let slot := s.emptySlot
  { s.issue c (.programHalfWord slot data) with emptySlot := slot + 1 }

/-- {lit}`eeprom_write_log_word_entry` -/
def eepromWriteLogWordEntry (address : HalfWord) (s : State) : State × FlashStatus :=
  let value := wordAt s.dataBuf address.toNat
  if value ≤ 1 then
    let encoding := feeWordEncoding ||| value <<< 13
    if c.writeLogLast < s.emptySlot + 1 then s.eepromCompact c
    else (s.append c (address >>> 1 ||| encoding), .complete)
  else
    let encoding := feeWordEncoding ||| feeValueNext
    let address := address - feeByteRange
    if c.writeLogLast < s.emptySlot + 2 then s.eepromCompact c
    else ((s.append c (address >>> 1 ||| encoding)).append c (~~~value), .complete)

/-- {lit}`eeprom_write_log_byte_entry` -/
def eepromWriteLogByteEntry (address : HalfWord) (s : State) : State × FlashStatus :=
  if c.writeLogLast ≤ s.emptySlot then s.eepromCompact c
  else (s.append c (address <<< 8 ||| (s.dataBuf address.toNat).setWidth 16), .complete)

/-- {lit}`EEPROM_WriteDataByte` -/
def writeDataByte (address : HalfWord) (dataByte : Byte) (s : State) : State × FlashStatus :=
  if c.densityBytes ≤ address.toNat then (s, .badAddress)
  else if s.dataBuf address.toNat = dataByte then (s, .zero)
  else
    let s := { s with dataBuf := update s.dataBuf address.toNat dataByte }
    match s.eepromWriteDirectEntry c address with
    | (s, .zero) =>
      if address < feeByteRange then s.eepromWriteLogByteEntry c address
      else s.eepromWriteLogWordEntry c (address &&& 0xFFFE)
    | r => r

/-- The second byte of a word that is written by byte entries, if it has changed. -/
def writeSecondByte (address oldValue dataWord : HalfWord) (r : State × FlashStatus) :
    State × FlashStatus :=
  let r' := if oldValue >>> 8 ≠ dataWord >>> 8 then
      r.1.eepromWriteLogByteEntry c (address + 1)
    else (r.1, .complete)
  (r'.1, if r'.2 ≠ .complete then r'.2 else r.2)

/-- {lit}`EEPROM_WriteDataWord` -/
def writeDataWord (address dataWord : HalfWord) (s : State) : State × FlashStatus :=
  if c.densityBytes ≤ address.toNat then (s, .badAddress)
  else if address.toNat % 2 ≠ 0 then
    let r := s.writeDataByte c address (dataWord.setWidth 8)
    let r' := r.1.writeDataByte c (address + 1) ((dataWord >>> 8).setWidth 8)
    (r'.1, if r'.2 ≠ .complete then r'.2 else r.2)
  else
    let oldValue := wordAt s.dataBuf address.toNat
    if oldValue = dataWord then (s, .zero)
    else
      let s := { s with dataBuf := setWord s.dataBuf address.toNat dataWord }
      match s.eepromWriteDirectEntry c address with
      | (s, .zero) =>
        if address < feeByteRange then
          -- Only write a byte if it has changed
          let r := if oldValue.setWidth 8 ≠ dataWord.setWidth 8 then
              s.eepromWriteLogByteEntry c address
            else (s, .complete)
          writeSecondByte c address oldValue dataWord r
        else s.eepromWriteLogWordEntry c address
      | r => r

/-- {lit}`EEPROM_ReadDataByte` -/
def readDataByte (address : HalfWord) (s : State) : Byte :=
  if address.toNat < c.densityBytes then s.dataBuf address.toNat else 0xFF

end State

end LegacyEeprom
end VialQmk
