import Mathlib.Algebra.Group.Nat.Defs
import Mathlib.Data.List.GetD
import VialQmk.Library.BoundedLoop
import VialQmk.Library.LittleEndian
import VialQmk.Library.Pages

/-!
# External EEPROM - the I2C driver

A block is written in pieces that end with a page.  The location of a piece is sent before its
bytes, and its high bits are in the address of the device.

Main results:

- Definitions {lit}`Config` and {lit}`Device`: the chip, and what a transfer does to it.
- Definitions {lit}`eepromReadBlock`, {lit}`eepromWriteBlock` and {lit}`eepromDriverErase`.
- Theorem {lit}`transmit_packet`: a packet writes its bytes at its location.
-/

namespace VialQmk
namespace ExternalEeprom

open Function (update)

/-- A chip as it is configured: {lit}`EXTERNAL_EEPROM_BYTE_COUNT`,
{lit}`EXTERNAL_EEPROM_PAGE_SIZE`, {lit}`EXTERNAL_EEPROM_ADDRESS_SIZE` and
{lit}`EXTERNAL_EEPROM_I2C_ADDRESS`. -/
structure Config where
  byteCount : ℕ
  pageSize : ℕ
  addressSize : ℕ
  i2cAddress : ℕ → UInt8
  /-- The high location bits, as the chip takes them from its address. -/
  bank : UInt8 → ℕ
  pageSize_pow : ∃ k ≤ 8, pageSize = 2 ^ k
  addressSize_eq : addressSize = 1 ∨ addressSize = 2
  embeds : ∀ location < byteCount, bank (i2cAddress location) = location / 256 ^ addressSize

/-! ## The device -/

/-- The chip: its bytes, and the location that is read next. -/
structure Device where
  memory : Memory UInt8
  pointer : ℕ

/-- The location bytes of a packet, the highest one first. -/
def wordAddress (bytes : List UInt8) : ℕ :=
  bytes.foldl (fun n byte => n * 256 + byte.toNat) 0

/-- {lit}`i2c_transmit`: the bytes behind the location are written inside their page. -/
def Device.i2cTransmit (c : Config) (address : UInt8) (packet : Memory UInt8) (length : UInt16)
    (d : Device) : Device :=
  let bytes := packet.load 0 length.toNat
  let location := c.bank address * 256 ^ c.addressSize + wordAddress (bytes.take c.addressSize)
  { memory := Memory.writeInPage (fun _ byte => byte) c.pageSize location 0
      (bytes.drop c.addressSize) d.memory
    pointer := location }

/-- {lit}`i2c_receive`: the bytes from the pointer on, across pages and banks. -/
def Device.i2cReceive (buf : Memory UInt8) (length : UInt16) (d : Device) :
    Memory UInt8 × Device :=
  (buf.store 0 (d.memory.load d.pointer length.toNat),
    { d with pointer := d.pointer + length.toNat })

/-! ## The driver -/

/-- {lit}`fill_target_address` -/
def fillTargetAddress (c : Config) (buffer : Memory UInt8) (addr : ℕ) : Memory UInt8 :=
  ((List.range c.addressSize).foldl
    (fun (s : Memory UInt8 × ℕ) i =>
      (update s.1 (c.addressSize - 1 - i) (UInt8.ofNat (s.2 &&& 0xFF)), s.2 >>> 8))
    (buffer, addr)).1

/-- {lit}`eeprom_read_block` -/
def eepromReadBlock (c : Config) (buf : Memory UInt8) (addr len : ℕ) (d : Device) :
    Memory UInt8 × Device :=
  let completePacket := fillTargetAddress c (fun _ => 0) addr
  (d.i2cTransmit c (c.i2cAddress addr) completePacket (UInt16.ofNat c.addressSize)).i2cReceive
    buf (UInt16.ofNat len)

/-- The loop that copies the bytes of a piece, with its counter of eight bits. -/
structure Copy where
  i : UInt8
  completePacket : Memory UInt8

/-- {lit}`i < write_length` -/
def copyCond (writeLength : ℕ) (s : Copy) : Bool :=
  s.i.toNat < writeLength

/-- {lit}`complete_packet[EXTERNAL_EEPROM_ADDRESS_SIZE + i] = read_buf[i]` -/
def copyBody (c : Config) (readBuf : List UInt8) (s : Copy) : Copy where
  i := s.i + 1
  completePacket := update s.completePacket (c.addressSize + s.i.toNat)
    (readBuf.getD s.i.toNat 0)

/-- The loop over the pieces: the bytes that are left are those of {lit}`read_buf`. -/
structure Writing where
  device : Device
  completePacket : Memory UInt8
  readBuf : List UInt8
  targetAddr : ℕ

/-- A piece of the block, if the loop over its bytes ends. -/
def writePiece (c : Config) (addr fuel : ℕ) (w : Writing) : Option Writing :=
  let pageOffset := w.targetAddr % c.pageSize
  let writeLength := c.pageSize - pageOffset
  let writeLength := if writeLength > w.readBuf.length then w.readBuf.length else writeLength
  let completePacket := fillTargetAddress c w.completePacket w.targetAddr
  let s := BoundedLoop.run (copyCond writeLength) (copyBody c w.readBuf) fuel ⟨0, completePacket⟩
  if copyCond writeLength s then none
  else some
    { device := w.device.i2cTransmit c (c.i2cAddress addr) s.completePacket
        (UInt16.ofNat (c.addressSize + writeLength))
      completePacket := s.completePacket
      readBuf := w.readBuf.drop writeLength
      targetAddr := w.targetAddr + writeLength }

/-- {lit}`while (len > 0)`, for a number of rounds -/
def writeLoop (c : Config) (addr fuel : ℕ) : ℕ → Writing → Option Device
  | 0, w => if w.readBuf = [] then some w.device else none
  | n + 1, w =>
    if w.readBuf = [] then some w.device
    else (writePiece c addr fuel w).bind (writeLoop c addr fuel n)

/-- {lit}`eeprom_write_block`, if its loops end within a number of rounds -/
def eepromWriteBlock (c : Config) (fuel : ℕ) (buf : List UInt8) (addr : ℕ) (d : Device) :
    Option Device :=
  writeLoop c addr fuel fuel ⟨d, fun _ => 0, buf, addr⟩

/-- The loop of {lit}`eeprom_driver_erase`, for a number of rounds -/
def eraseLoop (c : Config) (fuel : ℕ) : ℕ → ℕ → Device → Option Device
  | 0, addr, d => if addr < c.byteCount then none else some d
  | n + 1, addr, d =>
    if addr < c.byteCount then
      (eepromWriteBlock c fuel (List.replicate c.pageSize 0) addr d).bind
        (eraseLoop c fuel n (addr + c.pageSize))
    else some d

/-- {lit}`eeprom_driver_erase`, if its loops end within a number of rounds -/
def eepromDriverErase (c : Config) (fuel : ℕ) (d : Device) : Option Device :=
  eraseLoop c fuel fuel 0 d

/-! ## A packet -/

variable {c : Config}

theorem Config.pageSize_pos (c : Config) : 0 < c.pageSize := by
  rcases c.pageSize_pow with ⟨k, -, hk⟩
  rw [hk]
  exact Nat.two_pow_pos k

theorem Config.pageSize_le (c : Config) : c.pageSize ≤ 256 := by
  rcases c.pageSize_pow with ⟨k, hle, hk⟩
  rw [hk]
  exact Nat.pow_le_pow_right (by decide) hle

/-- The location bytes of a packet. -/
theorem wordAddress_fill (buffer : Memory UInt8) (addr : ℕ) :
    wordAddress ((fillTargetAddress c buffer addr).load 0 c.addressSize) =
      addr % 256 ^ c.addressSize := by
  rcases c.addressSize_eq with hsize | hsize
  · rw [fillTargetAddress, hsize]
    simp [wordAddress, Memory.load, LittleEndian.and_low_byte, List.range_succ]
  · rw [fillTargetAddress, hsize]
    simp [wordAddress, Memory.load, LittleEndian.and_low_byte, List.range_succ,
      Nat.shiftRight_eq_div_pow]
    omega

/-- The loop over the bytes of a piece, after some rounds. -/
theorem run_copy (readBuf : List UInt8) (packet : Memory UInt8) {writeLength : ℕ}
    (hle : writeLength ≤ 255) (hlen : writeLength ≤ readBuf.length) {k : ℕ}
    (hk : k ≤ writeLength) :
    BoundedLoop.run (copyCond writeLength) (copyBody c readBuf) k ⟨0, packet⟩ =
      ⟨UInt8.ofNat k, packet.store c.addressSize (readBuf.take k)⟩ := by
  induction k with
  | zero => simp
  | succ k ih =>
    have htoNat : (UInt8.ofNat k).toNat = k := by
      rw [UInt8.toNat_ofNat']
      omega
    have hcond : copyCond writeLength ⟨UInt8.ofNat k,
        packet.store c.addressSize (readBuf.take k)⟩ = true := by
      rw [copyCond, htoNat]
      exact decide_eq_true (by omega)
    have hlt : k < readBuf.length := by omega
    rw [BoundedLoop.run_add, ih (by omega), BoundedLoop.run_succ_of_true hcond,
      BoundedLoop.run_zero, copyBody]
    dsimp only
    rw [htoNat]
    congr 1
    · exact (UInt8.ofNat_add k 1).symm
    · rw [List.take_succ_eq_append_getElem hlt, Memory.store_append, List.length_take,
        Nat.min_eq_left (by omega), List.getD_eq_getElem _ _ hlt, ← Memory.merge_eq_store _ _ [_],
        Memory.merge_cons, Memory.merge_nil]

/-- The loop over the bytes of a piece ends, unless there are 256 of them. -/
theorem run_copy_done (readBuf : List UInt8) (packet : Memory UInt8) {writeLength fuel : ℕ}
    (hle : writeLength ≤ 255) (hlen : writeLength ≤ readBuf.length) (hfuel : 255 ≤ fuel) :
    BoundedLoop.run (copyCond writeLength) (copyBody c readBuf) fuel ⟨0, packet⟩ =
      ⟨UInt8.ofNat writeLength, packet.store c.addressSize (readBuf.take writeLength)⟩ := by
  have hrun := run_copy (c := c) readBuf packet hle hlen (Nat.le_refl _)
  have hdone : copyCond writeLength (BoundedLoop.run (copyCond writeLength)
      (copyBody c readBuf) writeLength ⟨0, packet⟩) = false := by
    rw [hrun, copyCond, UInt8.toNat_ofNat']
    exact decide_eq_false (by omega)
  rw [BoundedLoop.run_eq_of_done (by omega) hdone, hrun]

/-- The location of a piece comes out right, if its high bits are those of the device. -/
theorem location_eq {address : UInt8} {target : ℕ}
    (hbank : c.bank address = target / 256 ^ c.addressSize) (buffer : Memory UInt8) :
    c.bank address * 256 ^ c.addressSize +
      wordAddress ((fillTargetAddress c buffer target).load 0 c.addressSize) = target := by
  rw [wordAddress_fill, hbank, Nat.mul_comm]
  exact Nat.div_add_mod _ _

/-- A packet writes its bytes at its location. -/
theorem transmit_packet {address : UInt8} {target : ℕ}
    (hbank : c.bank address = target / 256 ^ c.addressSize) (buffer : Memory UInt8)
    (bytes : List UInt8) (hpage : target % c.pageSize + bytes.length ≤ c.pageSize) (d : Device) :
    d.i2cTransmit c address ((fillTargetAddress c buffer target).store c.addressSize bytes)
        (UInt16.ofNat (c.addressSize + bytes.length)) =
      ⟨d.memory.store target bytes, target⟩ := by
  have hlength : (UInt16.ofNat (c.addressSize + bytes.length)).toNat =
      c.addressSize + bytes.length := by
    have hle := c.pageSize_le
    have hsize := c.addressSize_eq
    rw [UInt16.toNat_ofNat']
    omega
  have hload : ((fillTargetAddress c buffer target).store c.addressSize bytes).load 0
      (c.addressSize + bytes.length) =
        (fillTargetAddress c buffer target).load 0 c.addressSize ++ bytes := by
    rw [Memory.load_add, Nat.zero_add, Memory.load_store_same,
      Memory.load_store_disjoint (.inl (by omega))]
  have htake : ((fillTargetAddress c buffer target).load 0 c.addressSize ++ bytes).take
      c.addressSize = (fillTargetAddress c buffer target).load 0 c.addressSize :=
    List.take_left' (Memory.load_length _ _ _)
  have hdrop : ((fillTargetAddress c buffer target).load 0 c.addressSize ++ bytes).drop
      c.addressSize = bytes :=
    List.drop_left' (Memory.load_length _ _ _)
  rw [Device.i2cTransmit]
  rw [hlength, hload, htake, hdrop, location_eq hbank, Memory.writeInPage_eq_merge _ _ (by omega),
    Nat.add_zero, Memory.merge_eq_store]

/-! ## A block -/

/-- A piece of a block, when it has less than 256 bytes and the device has its high bits. -/
theorem writePiece_eq {addr fuel : ℕ} (w : Writing) (hfuel : 255 ≤ fuel)
    (hbank : c.bank (c.i2cAddress addr) = w.targetAddr / 256 ^ c.addressSize)
    {writeLength : ℕ} (hlength : writeLength =
      min (c.pageSize - w.targetAddr % c.pageSize) w.readBuf.length)
    (hle : writeLength ≤ 255) :
    ∃ packet, writePiece c addr fuel w = some
      ⟨⟨w.device.memory.store w.targetAddr (w.readBuf.take writeLength), w.targetAddr⟩, packet,
        w.readBuf.drop writeLength, w.targetAddr + writeLength⟩ := by
  have hif : (if c.pageSize - w.targetAddr % c.pageSize > w.readBuf.length then w.readBuf.length
      else c.pageSize - w.targetAddr % c.pageSize) = writeLength := by
    rw [hlength]
    split_ifs <;> omega
  have hlen : writeLength ≤ w.readBuf.length := by omega
  have htake : (w.readBuf.take writeLength).length = writeLength := by
    rw [List.length_take, Nat.min_eq_left hlen]
  have hpage : w.targetAddr % c.pageSize + (w.readBuf.take writeLength).length ≤ c.pageSize := by
    rw [htake, hlength]
    exact Memory.mod_add_min_le c.pageSize_pos _ _
  have hsent := transmit_packet hbank w.completePacket (w.readBuf.take writeLength) hpage w.device
  rw [htake] at hsent
  refine ⟨(fillTargetAddress c w.completePacket w.targetAddr).store c.addressSize
    (w.readBuf.take writeLength), ?_⟩
  unfold writePiece
  dsimp only
  rw [hif, run_copy_done _ _ hle hlen hfuel]
  dsimp only
  rw [hsent, if_neg]
  rw [copyCond, UInt8.toNat_ofNat']
  simp
  omega

/-- A block has no piece of 256 bytes. -/
def ShortPieces (c : Config) (addr len : ℕ) : Prop :=
  ∀ page, addr ≤ c.pageSize * page → c.pageSize * (page + 1) ≤ addr + len → c.pageSize < 256

/-- A piece that is not a whole page of 256 bytes. -/
theorem ShortPieces.piece_le {addr len : ℕ} (h : ShortPieces c addr len) :
    min (c.pageSize - addr % c.pageSize) len ≤ 255 := by
  have hle := c.pageSize_le
  by_contra hlong
  have hsize : c.pageSize = 256 := by omega
  have hdvd := Nat.div_add_mod addr 256
  have hshort := h (addr / 256)
  rw [hsize] at hshort hlong
  exact absurd (hshort (by omega) (by omega)) (by omega)

theorem ShortPieces.drop {addr len n : ℕ} (h : ShortPieces c addr len) (hn : n ≤ len) :
    ShortPieces c (addr + n) (len - n) :=
  fun page hlow hhigh => h page (by omega) (by omega)

/-- The loop over the pieces writes the block, when no piece has 256 bytes and all of them have
the high bits of the device. -/
theorem writeLoop_eq {addr fuel n : ℕ} (w : Writing) (hfuel : 255 ≤ fuel)
    (hn : w.readBuf.length ≤ n) (hshort : ShortPieces c w.targetAddr w.readBuf.length)
    (hbank : ∀ i < w.readBuf.length,
      (w.targetAddr + i) / 256 ^ c.addressSize = c.bank (c.i2cAddress addr)) :
    ∃ d, writeLoop c addr fuel n w = some d ∧
      d.memory = w.device.memory.store w.targetAddr w.readBuf := by
  induction n generalizing w with
  | zero =>
    have hnil : w.readBuf = [] := List.eq_nil_of_length_eq_zero (by omega)
    refine ⟨w.device, ?_, by rw [hnil, Memory.store_nil]⟩
    rw [writeLoop, if_pos hnil]
  | succ n ih =>
    rw [writeLoop]
    by_cases hnil : w.readBuf = []
    · exact ⟨w.device, if_pos hnil, by rw [hnil, Memory.store_nil]⟩
    rw [if_neg hnil]
    have hpos := List.length_pos_iff.mpr hnil
    have hsize := c.pageSize_pos
    have hmod := Nat.mod_lt w.targetAddr hsize
    obtain ⟨writeLength, hlength⟩ : ∃ writeLength, writeLength =
        min (c.pageSize - w.targetAddr % c.pageSize) w.readBuf.length := ⟨_, rfl⟩
    have hlen : writeLength ≤ w.readBuf.length := by omega
    rcases writePiece_eq w hfuel (hbank 0 hpos).symm hlength (hlength ▸ hshort.piece_le) with
      ⟨packet, hpiece⟩
    rw [hpiece, Option.bind_some]
    rcases ih ⟨⟨w.device.memory.store w.targetAddr (w.readBuf.take writeLength), w.targetAddr⟩,
      packet, w.readBuf.drop writeLength, w.targetAddr + writeLength⟩
      (by rw [List.length_drop]; omega)
      (by rw [List.length_drop]; exact hshort.drop hlen)
      (by
        intro i hi
        rw [List.length_drop] at hi
        have hrest := hbank (writeLength + i) (by omega)
        rwa [← Nat.add_assoc] at hrest) with ⟨d, hd, hmemory⟩
    refine ⟨d, hd, ?_⟩
    have hsplit := Memory.store_append w.device.memory w.targetAddr (w.readBuf.take writeLength)
      (w.readBuf.drop writeLength)
    rw [List.take_append_drop, List.length_take, Nat.min_eq_left hlen] at hsplit
    rw [hmemory, hsplit]

/-- {lit}`eeprom_write_block`, for a block inside a bank -/
theorem eepromWriteBlock_eq {buf : List UInt8} {addr fuel : ℕ} (d : Device)
    (hfuel : 255 ≤ fuel) (hlen : buf.length ≤ fuel) (haddr : addr < c.byteCount)
    (hshort : ShortPieces c addr buf.length)
    (hbank : ∀ i < buf.length,
      (addr + i) / 256 ^ c.addressSize = addr / 256 ^ c.addressSize) :
    ∃ d', eepromWriteBlock c fuel buf addr d = some d' ∧
      d'.memory = d.memory.store addr buf := by
  apply writeLoop_eq ⟨d, fun _ => 0, buf, addr⟩ hfuel hlen hshort
  intro i hi
  rw [c.embeds addr haddr]
  exact hbank i hi

/-- A page is inside a bank. -/
theorem page_div (c : Config) (page : ℕ) {i : ℕ} (hi : i < c.pageSize) :
    (c.pageSize * page + i) / 256 ^ c.addressSize =
      c.pageSize * page / 256 ^ c.addressSize := by
  have hdvd : c.pageSize ∣ 256 ^ c.addressSize := by
    rcases c.pageSize_pow with ⟨k, hle, hk⟩
    have hpage : c.pageSize ∣ 256 := by
      rw [hk]
      exact Nat.pow_dvd_pow 2 hle
    rcases c.addressSize_eq with hsize | hsize
    · rwa [hsize, Nat.pow_one]
    · rw [hsize]
      exact Nat.dvd_trans hpage (by decide)
  rcases hdvd with ⟨m, hm⟩
  have hsize := c.pageSize_pos
  rw [hm, ← Nat.div_div_eq_div_mul, ← Nat.div_div_eq_div_mul, Nat.mul_add_div hsize,
    Nat.div_eq_of_lt hi, Nat.add_zero, Nat.mul_div_cancel_left _ hsize]

/-- The loop of {lit}`eeprom_driver_erase`, when a page has less than 256 bytes. -/
theorem eraseLoop_eq {fuel n : ℕ} (page : ℕ) (d : Device) (hsize : c.pageSize < 256)
    (hfuel : 255 ≤ fuel) (hn : c.byteCount ≤ c.pageSize * page + n) :
    ∃ d', eraseLoop c fuel n (c.pageSize * page) d = some d' ∧
      (∀ i < c.pageSize * page, d'.memory i = d.memory i) ∧
      ∀ i, c.pageSize * page ≤ i → i < c.byteCount → d'.memory i = 0 := by
  induction n generalizing page d with
  | zero =>
    refine ⟨d, ?_, fun _ _ => rfl, fun i hle hlt => by omega⟩
    rw [eraseLoop, if_neg (by omega)]
  | succ n ih =>
    rw [eraseLoop]
    by_cases hend : c.pageSize * page < c.byteCount
    · have hpos := c.pageSize_pos
      rw [if_pos hend]
      rcases @eepromWriteBlock_eq _ (List.replicate c.pageSize 0) _ _ d hfuel
        (by rw [List.length_replicate]; omega) hend (fun _ _ _ => hsize)
        (fun i hi => page_div c page (by rwa [List.length_replicate] at hi)) with
        ⟨d', hd', hmemory⟩
      rw [hd', Option.bind_some]
      have hnext : c.pageSize * page + c.pageSize = c.pageSize * (page + 1) := rfl
      rw [hnext]
      rcases ih (page + 1) d' (by rw [← hnext]; omega) with ⟨d'', hd'', hbelow, habove⟩
      refine ⟨d'', hd'', ?_, ?_⟩
      · intro i hi
        rw [hbelow i (by omega), hmemory, Memory.store_of_lt hi]
      · intro i hle hlt
        by_cases hpage : i < c.pageSize * (page + 1)
        · rw [hbelow i hpage, hmemory,
            Memory.store_of_mem hle (by rw [List.length_replicate]; omega), List.getElem_replicate]
        · exact habove i (by omega) hlt
    · rw [if_neg hend]
      exact ⟨d, rfl, fun _ _ => rfl, fun i hle hlt => by omega⟩

/-- {lit}`eeprom_read_block`, of less than 65536 bytes -/
theorem eepromReadBlock_eq (buf : Memory UInt8) {addr len : ℕ} (d : Device)
    (haddr : addr < c.byteCount) (hlen : len < 65536) :
    (eepromReadBlock c buf addr len d).1 = buf.store 0 (d.memory.load addr len) ∧
      (eepromReadBlock c buf addr len d).2.memory = d.memory := by
  have hsent := transmit_packet (c.embeds addr haddr) (fun _ => 0) []
    (by rw [List.length_nil]; exact Nat.le_of_lt (Nat.mod_lt _ c.pageSize_pos)) d
  rw [Memory.store_nil, Memory.store_nil, List.length_nil, Nat.add_zero] at hsent
  have htoNat : (UInt16.ofNat len).toNat = len := by
    rw [UInt16.toNat_ofNat']
    omega
  rw [eepromReadBlock, hsent, Device.i2cReceive, htoNat]
  exact ⟨rfl, rfl⟩

end ExternalEeprom
end VialQmk
