import VialQmk.Library.LittleEndian
import VialQmk.Painter.Imaging

/-!
# Quantum Painter - the blocks of a graphics file

A graphics file is a row of blocks, each with a header that tells its kind and its length: the
graphics descriptor, the offsets of the frames, and for each frame a descriptor, the rectangle of
a delta frame, and the data.

Main results:

- Definition {lit}`GraphicsDescriptor.write`, {lit}`writeOffsets`, {lit}`FrameDescriptor.write`,
  {lit}`Rect.write`, {lit}`writeData`: the blocks as they are written.
- Definition {lit}`BlockHeader.read`, {lit}`validateBlockHeader`: a header as it is read.
- Definition {lit}`FrameBlock`, {lit}`layout`: what a whole file consists of.
-/

namespace VialQmk
namespace Painter

open LittleEndian

/-! ## Numbers -/

/-- {lit}`o16le`, which raises an error for a number that does not fit -/
def o16 (i : ℤ) : Option (List UInt8) :=
  if 0 ≤ i ∧ i < 65536 then some (bytes 2 i.toNat) else none

/-- {lit}`o32le` -/
def o32 (i : ℤ) : Option (List UInt8) :=
  if 0 ≤ i ∧ i < 4294967296 then some (bytes 4 i.toNat) else none

/-- {lit}`o24`, which drops what does not fit -/
def o24 (i : ℕ) : List UInt8 :=
  bytes 2 (i &&& 0xFFFF) ++ bytes 1 ((i &&& 0xFF0000) >>> 16)

theorem o16_natCast {n : ℕ} (hn : n < 65536) : o16 n = some (bytes 2 n) := by
  rw [o16, if_pos ⟨Int.natCast_nonneg n, by exact_mod_cast hn⟩, Int.toNat_natCast]

theorem o16_eq_none {n : ℕ} (hn : 65536 ≤ n) : o16 n = none :=
  if_neg fun h => by omega

theorem o32_natCast {n : ℕ} (hn : n < 4294967296) : o32 n = some (bytes 4 n) := by
  rw [o32, if_pos ⟨Int.natCast_nonneg n, by exact_mod_cast hn⟩, Int.toNat_natCast]

theorem o32_eq_none {n : ℕ} (hn : 4294967296 ≤ n) : o32 n = none :=
  if_neg fun h => by omega

theorem o24_eq (i : ℕ) : o24 i = bytes 3 i := by
  have hlow : i &&& 0xFFFF = i % 2 ^ 16 := Nat.and_two_pow_sub_one_eq_mod i 16
  have hhigh : (i &&& 0xFF0000) >>> 16 = (i / 2 ^ 16) % 2 ^ 8 := by
    rw [Nat.shiftRight_and_distrib, Nat.shiftRight_eq_div_pow]
    exact Nat.and_two_pow_sub_one_eq_mod _ 8
  have hbyte : ∀ m n : ℕ, m % 256 = n % 256 → m.toUInt8 = n.toUInt8 := by
    intro m n hmod
    apply UInt8.toNat_inj.mp
    simp only [Nat.toUInt8, UInt8.toNat_ofNat']
    exact hmod
  rw [o24, hlow, hhigh]
  simp only [bytes, List.cons_append, List.nil_append, List.cons.injEq, and_true]
  exact ⟨hbyte _ _ (by omega), hbyte _ _ (by omega), hbyte _ _ (by omega)⟩

@[simp]
theorem length_o24 (i : ℕ) : (o24 i).length = 3 :=
  rfl

/-! ## Blocks that are written -/

/-- {lit}`QGFBlockHeader.write` -/
def blockHeader (typeId : UInt8) (length : ℕ) : List UInt8 :=
  typeId :: ~~~typeId :: o24 length

/-- {lit}`QGFGraphicsDescriptor` -/
structure GraphicsDescriptor where
  totalFileSize : ℕ
  imageWidth : ℕ
  imageHeight : ℕ
  frameCount : ℕ

/-- {lit}`QGFGraphicsDescriptor.magic` -/
def magic : ℕ := 0x464751

/-- {lit}`QGFGraphicsDescriptor.write`.  The second size is the complement of the first one in 32
bits. -/
def GraphicsDescriptor.write (d : GraphicsDescriptor) : Option (List UInt8) := do
  let size ← o32 d.totalFileSize
  let negSize ← o32 ((0xFFFFFFFF - d.totalFileSize % 4294967296 : ℕ) : ℤ)
  let width ← o16 d.imageWidth
  let height ← o16 d.imageHeight
  let count ← o16 d.frameCount
  some (blockHeader 0x00 18 ++ (o24 magic ++ ([1] ++ (size ++ (negSize ++ (width ++ (height ++
    count)))))))

/-- {lit}`QGFFrameOffsetDescriptorV1.write` -/
def writeOffsets (offsets : List ℕ) : Option (List UInt8) := do
  let os ← offsets.mapM fun offset : ℕ => o32 offset
  some (blockHeader 0x01 (offsets.length * 4) ++ os.flatten)

/-- {lit}`QGFFrameDescriptorV1` -/
structure FrameDescriptor where
  format : UInt8
  flags : UInt8
  compression : UInt8
  transparencyIndex : UInt8
  delay : ℕ

/-- {lit}`QGFFrameDescriptorV1.write` -/
def FrameDescriptor.write (d : FrameDescriptor) : Option (List UInt8) := do
  let delay ← o16 d.delay
  some (blockHeader 0x02 6 ++
    ([d.format] ++ ([d.flags] ++ ([d.compression] ++ ([d.transparencyIndex] ++ delay)))))

/-- The edges of a rectangle. -/
structure Rect where
  left : ℤ
  top : ℤ
  right : ℤ
  bottom : ℤ

/-- {lit}`QGFFrameDeltaDescriptorV1.write` -/
def Rect.write (r : Rect) : Option (List UInt8) := do
  let left ← o16 r.left
  let top ← o16 r.top
  let right ← o16 r.right
  let bottom ← o16 r.bottom
  some (blockHeader 0x04 8 ++ (left ++ (top ++ (right ++ bottom))))

/-- {lit}`QGFFrameDataDescriptorV1.write` -/
def writeData (data : List UInt8) : List UInt8 :=
  blockHeader 0x05 data.length ++ data

@[simp]
theorem length_blockHeader (typeId : UInt8) (length : ℕ) : (blockHeader typeId length).length = 5 :=
  rfl

/-! ## Headers that are read -/

/-- {lit}`qgf_block_header_v1_t` -/
structure BlockHeader where
  typeId : UInt8
  negTypeId : UInt8
  length : ℕ

def BlockHeader.read (cs : List UInt8) : BlockHeader :=
  ⟨cs.getD 0 0, cs.getD 1 0, field 2 3 cs⟩

/-- {lit}`qgf_validate_block_header` -/
def validateBlockHeader (desc : BlockHeader) (expectedTypeid : UInt8) (expectedLength : ℤ) :
    Bool :=
  if desc.typeId ≠ expectedTypeid ∨ desc.negTypeId ≠ ~~~expectedTypeid then false
  else if 0 ≤ expectedLength ∧ (desc.length : ℤ) ≠ expectedLength then false
  else true

theorem BlockHeader.read_blockHeader (typeId : UInt8) (length : ℕ) (rest : List UInt8) :
    read (blockHeader typeId length ++ rest) = ⟨typeId, ~~~typeId, length % 16777216⟩ := by
  have hfield : field 2 3 (blockHeader typeId length ++ rest) = length % 256 ^ 3 := by
    have hsame : blockHeader typeId length ++ rest =
        [typeId, ~~~typeId] ++ (bytes 3 length ++ rest) := by
      rw [blockHeader, o24_eq]
      rfl
    rw [hsame, field_skip 0 (by rfl), field, List.drop_zero, List.take_left' (length_bytes 3 length),
      value_bytes_mod]
  rw [read, hfield]
  rfl

/-- A header that has been written for a block of this length, or of any. -/
theorem validateBlockHeader_blockHeader {typeId : UInt8} {length : ℕ} {expectedLength : ℤ}
    (h : expectedLength = -1 ∨ expectedLength = length ∧ length < 16777216) (rest : List UInt8) :
    validateBlockHeader (.read (blockHeader typeId length ++ rest)) typeId expectedLength =
      true := by
  rw [BlockHeader.read_blockHeader, validateBlockHeader, if_neg (by simp), if_neg]
  rcases h with rfl | ⟨rfl, hlt⟩
  · simp
  · simp [Nat.mod_eq_of_lt hlt]

/-! ## Whole files -/

/-- The descriptor of a file whose numbers fit. -/
def GraphicsDescriptor.bytes (d : GraphicsDescriptor) : List UInt8 :=
  blockHeader 0x00 18 ++ (LittleEndian.bytes 3 magic ++ ([1] ++
    (LittleEndian.bytes 4 d.totalFileSize ++
      (LittleEndian.bytes 4 (0xFFFFFFFF - d.totalFileSize) ++
        (LittleEndian.bytes 2 d.imageWidth ++ (LittleEndian.bytes 2 d.imageHeight ++
          LittleEndian.bytes 2 d.frameCount))))))

@[simp]
theorem GraphicsDescriptor.length_bytes (d : GraphicsDescriptor) : d.bytes.length = 23 := by
  simp [bytes]

theorem GraphicsDescriptor.write_eq (d : GraphicsDescriptor) :
    d.write = if d.totalFileSize < 4294967296 ∧ d.imageWidth < 65536 ∧ d.imageHeight < 65536 ∧
      d.frameCount < 65536 then some d.bytes else none := by
  by_cases hsize : d.totalFileSize < 4294967296
  · by_cases hwidth : d.imageWidth < 65536
    · by_cases hheight : d.imageHeight < 65536
      · by_cases hcount : d.frameCount < 65536
        · rw [if_pos ⟨hsize, hwidth, hheight, hcount⟩, write, Nat.mod_eq_of_lt hsize,
            o32_natCast hsize, o32_natCast (by omega), o16_natCast hwidth, o16_natCast hheight,
            o16_natCast hcount, o24_eq]
          rfl
        · rw [if_neg (by tauto), write, o16_eq_none (Nat.le_of_not_lt hcount)]
          simp
      · rw [if_neg (by tauto), write, o16_eq_none (Nat.le_of_not_lt hheight)]
        simp
    · rw [if_neg (by tauto), write, o16_eq_none (Nat.le_of_not_lt hwidth)]
      simp
  · rw [if_neg (by tauto), write, o32_eq_none (Nat.le_of_not_lt hsize)]
    simp

/-- A frame of a file: its delay, the rectangle of a delta frame with its last column and row, and
its data. -/
structure FrameBlock where
  delay : ℕ
  box : Option Box
  compression : UInt8
  data : List UInt8

/-- The block of the rectangle. -/
def Box.bytes (box : Box) : List UInt8 :=
  blockHeader 0x04 8 ++ (LittleEndian.bytes 2 box.left ++ (LittleEndian.bytes 2 box.top ++
    (LittleEndian.bytes 2 box.right ++ LittleEndian.bytes 2 box.bottom)))

@[simp]
theorem Box.length_bytes (box : Box) : box.bytes.length = 13 := by
  simp [bytes]

/-- The block of the frame. -/
def FrameBlock.descriptor (b : FrameBlock) : List UInt8 :=
  blockHeader 0x02 6 ++ ([rgb888.imageFormatByte] ++ ([if b.box.isSome then 0x02 else 0x00] ++
    ([b.compression] ++ ([0xFF] ++ LittleEndian.bytes 2 b.delay))))

@[simp]
theorem FrameBlock.length_descriptor (b : FrameBlock) : b.descriptor.length = 11 := by
  simp [descriptor]

/-- All blocks of a frame. -/
def FrameBlock.bytes (b : FrameBlock) : List UInt8 :=
  b.descriptor ++ ((b.box.map Box.bytes).getD [] ++ writeData b.data)

/-- Where the frames start. -/
def offsetsFrom : ℕ → List FrameBlock → List ℕ
  | _, [] => []
  | start, b :: bs => start :: offsetsFrom (start + b.bytes.length) bs

/-- The block of the offsets. -/
def offsetTable (blocks : List FrameBlock) : List UInt8 :=
  blockHeader 0x01 (blocks.length * 4) ++
    (offsetsFrom (28 + 4 * blocks.length) blocks).flatMap (LittleEndian.bytes 4)

/-- A file of some frames. -/
def layout (width height : ℕ) (blocks : List FrameBlock) : List UInt8 :=
  GraphicsDescriptor.bytes ⟨28 + 4 * blocks.length + (blocks.flatMap FrameBlock.bytes).length,
    width, height, blocks.length⟩ ++ (offsetTable blocks ++ blocks.flatMap FrameBlock.bytes)

@[simp]
theorem length_offsetsFrom (start : ℕ) (blocks : List FrameBlock) :
    (offsetsFrom start blocks).length = blocks.length := by
  induction blocks generalizing start with
  | nil => rfl
  | cons b bs ih => rw [offsetsFrom, List.length_cons, ih, List.length_cons]

@[simp]
theorem length_offsetTable (blocks : List FrameBlock) :
    (offsetTable blocks).length = 5 + 4 * blocks.length := by
  have hflat : ∀ offsets : List ℕ,
      (offsets.flatMap (LittleEndian.bytes 4)).length = 4 * offsets.length := by
    intro offsets
    induction offsets with
    | nil => rfl
    | cons offset offsets ih =>
      rw [List.flatMap_cons, List.length_append, ih, LittleEndian.length_bytes, List.length_cons]
      omega
  rw [offsetTable, List.length_append, hflat, length_blockHeader, length_offsetsFrom]

theorem length_layout (width height : ℕ) (blocks : List FrameBlock) :
    (layout width height blocks).length =
      28 + 4 * blocks.length + (blocks.flatMap FrameBlock.bytes).length := by
  rw [layout, List.length_append, List.length_append, GraphicsDescriptor.length_bytes,
    length_offsetTable]
  omega

end Painter
end VialQmk
