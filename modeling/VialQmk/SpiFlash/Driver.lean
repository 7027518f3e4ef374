import VialQmk.Library.LittleEndian
import VialQmk.Library.Pages

/-!
# SPI flash - the driver

The driver sends a command with its address to the chip.  A block of bytes is programmed page by
page, and each program and each erasure has to be enabled before.

Main results:

- Definitions {lit}`Config` and {lit}`Device`: the chip, and what the commands do to it.
- Definitions {lit}`flashEraseBlock`, {lit}`flashReadBlock` and {lit}`flashWriteBlock`.
- Theorems {lit}`flashEraseBlock_eq`, {lit}`flashReadBlock_eq` and {lit}`flashWriteBlock_eq`: what
  they do when no transfer has more than 65535 bytes.
-/

namespace VialQmk
namespace SpiFlash

open Function (update)

/-- A chip and the region of the wear leveling in it, as they are configured: sizes in bytes, the
region in blocks, the words of {lit}`backing_store_int_t` and the words of a batch.  Addresses are
32 bits wide. -/
structure Config where
  /-- {lit}`EXTERNAL_FLASH_SIZE` -/
  flashSize : ℕ
  /-- {lit}`EXTERNAL_FLASH_BLOCK_SIZE` -/
  blockSize : ℕ
  /-- {lit}`EXTERNAL_FLASH_PAGE_SIZE` -/
  pageSize : ℕ
  /-- {lit}`EXTERNAL_FLASH_ADDRESS_SIZE` -/
  addressSize : ℕ
  /-- {lit}`WEAR_LEVELING_EXTERNAL_FLASH_BLOCK_OFFSET` -/
  blockOffset : ℕ
  /-- {lit}`WEAR_LEVELING_EXTERNAL_FLASH_BLOCK_COUNT` -/
  blockCount : ℕ
  /-- {lit}`WEAR_LEVELING_EXTERNAL_FLASH_BULK_COUNT` -/
  bulkCount : ℕ
  /-- {lit}`BACKING_STORE_WRITE_SIZE` -/
  writeSize : ℕ
  pageSize_pos : 0 < pageSize
  blockSize_pos : 0 < blockSize
  page_dvd : pageSize ∣ blockSize
  block_dvd : blockSize ∣ flashSize
  address_fits : flashSize ≤ 256 ^ addressSize
  address_width : addressSize ≤ 4
  region_fits : (blockOffset + blockCount) * blockSize ≤ flashSize
  bulkCount_pos : 0 < bulkCount
  writeSize_eq : writeSize = 2 ∨ writeSize = 4 ∨ writeSize = 8

/-! ## The chip -/

/-- The chip: its bytes and the write enable latch. -/
structure Device where
  memory : Memory UInt8
  writeEnabled : Bool

/-- {lit}`FLASH_CMD_READ`, {lit}`FLASH_CMD_PP` and {lit}`FLASH_CMD_BE` with their data. -/
inductive Command
  | read (len : ℕ)
  | pageProgram (data : List UInt8)
  | blockErase

/-- What the drivers return. -/
inductive FlashStatus
  | success
  | error
deriving DecidableEq

/-- The address that the chip gets, the highest byte first. -/
def addressOf (bytes : List UInt8) : ℕ :=
  bytes.foldl (fun n byte => n * 256 + byte.toNat) 0

namespace Device

/-- The bytes that a command reads. -/
def received (d : Device) (address : ℕ) : Command → List UInt8
  | .read len => d.memory.load address (UInt16.ofNat len).toNat
  | _ => []

/-- The chip after a command.  A program clears bits inside a page, an erasure sets those of a
block, and both need the latch and reset it. -/
def execute (c : Config) (d : Device) (address : ℕ) : Command → Device
  | .read _ => d
  | .pageProgram data =>
    if d.writeEnabled then
      { memory := Memory.writeInPage (· &&& ·) c.pageSize address 0
          (data.take (UInt16.ofNat data.length).toNat) d.memory
        writeEnabled := false }
    else d
  | .blockErase =>
    if d.writeEnabled then
      { memory := d.memory.fill (address - address % c.blockSize) c.blockSize 0xFF
        writeEnabled := false }
    else d

end Device

/-! ## The driver -/

/-- The buffer of {lit}`spi_flash_transaction` behind the command byte. -/
def addressBuffer (c : Config) (addr : ℕ) : Memory UInt8 :=
  ((List.range c.addressSize).foldl
    (fun (s : Memory UInt8 × ℕ) i =>
      (update s.1 (c.addressSize - i) (UInt8.ofNat (s.2 &&& 0xFF)), s.2 >>> 8))
    (fun _ => 0, addr)).1

/-- {lit}`spi_flash_transaction` -/
def spiFlashTransaction (c : Config) (cmd : Command) (addr : ℕ) (d : Device) :
    List UInt8 × Device :=
  let address := addressOf ((addressBuffer c addr).load 1 c.addressSize)
  (d.received address cmd, d.execute c address cmd)

/-- {lit}`spi_flash_write_enable` -/
def spiFlashWriteEnable (d : Device) : Device :=
  { d with writeEnabled := true }

/-- {lit}`spi_flash_write_disable` -/
def spiFlashWriteDisable (d : Device) : Device :=
  { d with writeEnabled := false }

/-- {lit}`flash_erase_block` -/
def flashEraseBlock (c : Config) (addr : ℕ) (d : Device) : Device × FlashStatus :=
  -- Check that the address exceeds the limit.
  if addr + c.blockSize ≥ c.flashSize ∨ addr % c.blockSize ≠ 0 then (d, .error)
  else ((spiFlashTransaction c .blockErase addr (spiFlashWriteEnable d)).2, .success)

/-- {lit}`flash_read_block` -/
def flashReadBlock (c : Config) (addr : ℕ) (buf : Memory UInt8) (len : ℕ) (d : Device) :
    Memory UInt8 × FlashStatus :=
  (buf.store 0 (spiFlashTransaction c (.read len) addr d).1, .success)

/-- {lit}`while (len > 0)` of {lit}`flash_write_block`, for a number of rounds -/
def writeLoop (c : Config) : ℕ → ℕ → List UInt8 → Device → Device
  | 0, _, _, d => d
  | n + 1, addr, writeBuf, d =>
    if writeBuf = [] then d
    else
      let pageOffset := addr % c.pageSize
      let writeLength := c.pageSize - pageOffset
      let writeLength := if writeLength > writeBuf.length then writeBuf.length else writeLength
      let d := (spiFlashTransaction c (.pageProgram (writeBuf.take writeLength)) addr
        (spiFlashWriteEnable d)).2
      writeLoop c n (addr + writeLength) (writeBuf.drop writeLength) d

/-- {lit}`flash_write_block`: each round writes a byte at least. -/
def flashWriteBlock (c : Config) (addr : ℕ) (buf : List UInt8) (d : Device) :
    Device × FlashStatus :=
  (spiFlashWriteDisable (writeLoop c buf.length addr buf d), .success)

/-! ## What the driver does -/

variable {c : Config}

/-- The chip gets the address. -/
theorem addressOf_buffer {addr : ℕ} (haddr : addr < c.flashSize) :
    addressOf ((addressBuffer c addr).load 1 c.addressSize) = addr := by
  have hfits : addr < 256 ^ c.addressSize := Nat.lt_of_lt_of_le haddr c.address_fits
  have hwidth := c.address_width
  obtain hsize | hsize | hsize | hsize | hsize : c.addressSize = 0 ∨ c.addressSize = 1 ∨
      c.addressSize = 2 ∨ c.addressSize = 3 ∨ c.addressSize = 4 := by omega
  all_goals
    rw [hsize] at hfits
    rw [addressBuffer, hsize]
    simp [addressOf, Memory.load, LittleEndian.and_low_byte, List.range_succ,
      Nat.shiftRight_eq_div_pow]
    omega

/-- A block of the chip, when it is not the last one. -/
theorem flashEraseBlock_eq {addr : ℕ} (d : Device) (hlast : addr + c.blockSize < c.flashSize)
    (haligned : addr % c.blockSize = 0) :
    flashEraseBlock c addr d = (⟨d.memory.fill addr c.blockSize 0xFF, false⟩, .success) := by
  have hcheck : ¬(addr + c.blockSize ≥ c.flashSize ∨ addr % c.blockSize ≠ 0) := by omega
  rw [flashEraseBlock, if_neg hcheck, spiFlashTransaction, addressOf_buffer (by omega)]
  simp only [Device.execute, spiFlashWriteEnable, if_true]
  rw [haligned, Nat.sub_zero]

/-- {lit}`flash_read_block`, of less than 65536 bytes -/
theorem flashReadBlock_eq {addr len : ℕ} (buf : Memory UInt8) (d : Device)
    (haddr : addr < c.flashSize) (hlen : len < 65536) :
    flashReadBlock c addr buf len d = (buf.store 0 (d.memory.load addr len), .success) := by
  have htoNat : (UInt16.ofNat len).toNat = len := by
    rw [UInt16.toNat_ofNat']
    omega
  rw [flashReadBlock, spiFlashTransaction, addressOf_buffer haddr]
  simp only [Device.received]
  rw [htoNat]

/-- A program of a page. -/
theorem pageProgram_eq {addr : ℕ} (data : List UInt8) (d : Device) (haddr : addr < c.flashSize)
    (hlen : data.length < 65536) (hpage : addr % c.pageSize + data.length ≤ c.pageSize) :
    (spiFlashTransaction c (.pageProgram data) addr (spiFlashWriteEnable d)).2 =
      ⟨d.memory.merge (· &&& ·) addr data, false⟩ := by
  have htoNat : (UInt16.ofNat data.length).toNat = data.length := by
    rw [UInt16.toNat_ofNat']
    omega
  rw [spiFlashTransaction, addressOf_buffer haddr]
  simp only [Device.execute, spiFlashWriteEnable, if_true]
  rw [htoNat, List.take_length, Memory.writeInPage_eq_merge _ _ (by omega), Nat.add_zero]

/-- The loop over the pages, when no program has more than 65535 bytes. -/
theorem writeLoop_eq {n addr : ℕ} (buf : List UInt8) (d : Device) (hn : buf.length ≤ n)
    (hfits : addr + buf.length ≤ c.flashSize) (hlen : min c.pageSize buf.length < 65536) :
    (writeLoop c n addr buf d).memory = d.memory.merge (· &&& ·) addr buf := by
  induction n generalizing addr buf d with
  | zero =>
    rw [List.eq_nil_of_length_eq_zero (Nat.le_zero.mp hn), Memory.merge_nil]
    rfl
  | succ n ih =>
    rw [writeLoop]
    by_cases hnil : buf = []
    · rw [if_pos hnil, hnil, Memory.merge_nil]
    rw [if_neg hnil]
    have hpos := List.length_pos_iff.mpr hnil
    have hmod := Nat.mod_lt addr c.pageSize_pos
    have hif : (if c.pageSize - addr % c.pageSize > buf.length then buf.length
        else c.pageSize - addr % c.pageSize) =
          min (c.pageSize - addr % c.pageSize) buf.length := by
      split_ifs <;> omega
    dsimp only
    rw [hif]
    obtain ⟨writeLength, hlength⟩ : ∃ writeLength, writeLength =
        min (c.pageSize - addr % c.pageSize) buf.length := ⟨_, rfl⟩
    have htake : (buf.take writeLength).length = writeLength := by
      rw [List.length_take]
      omega
    have hpage : addr % c.pageSize + (buf.take writeLength).length ≤ c.pageSize := by
      rw [htake, hlength]
      exact Memory.mod_add_min_le c.pageSize_pos _ _
    rw [← hlength, pageProgram_eq _ d (by omega) (by omega) hpage,
      ih _ _ (by rw [List.length_drop]; omega) (by rw [List.length_drop]; omega)
        (by rw [List.length_drop]; omega)]
    have hsplit := Memory.merge_append (· &&& ·) d.memory addr (buf.take writeLength)
      (buf.drop writeLength)
    rw [List.take_append_drop, htake] at hsplit
    exact hsplit.symm

/-- {lit}`flash_write_block`, when no program has more than 65535 bytes -/
theorem flashWriteBlock_eq {addr : ℕ} (buf : List UInt8) (d : Device)
    (hfits : addr + buf.length ≤ c.flashSize) (hlen : min c.pageSize buf.length < 65536) :
    ∃ d', flashWriteBlock c addr buf d = (d', .success) ∧
      d'.memory = d.memory.merge (· &&& ·) addr buf :=
  ⟨_, rfl, writeLoop_eq buf d (Nat.le_refl _) hfits hlen⟩

end SpiFlash
end VialQmk
