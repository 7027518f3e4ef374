import VialQmk.Painter.QgfFormat

/-!
# Quantum Painter - the reader of graphics files

The firmware reads a graphics file from a stream.  To get to a frame it starts from the beginning
of the file, and looks up where the frame starts.

Main results:

- Definition {lit}`validateStream`, {lit}`prepareFrame`: the functions of the reader.
- Theorem {lit}`seekToFrameDescriptor_layout`: the reader finds each frame of a file.
- Theorem {lit}`validateStream_layout`, {lit}`prepareFrame_layout`: it accepts the file, and
  gets to the data of a frame.
-/

namespace VialQmk
namespace Painter

open LittleEndian

/-! ## Streams -/

/-- The origins of {lit}`fseek` -/
inductive Origin
  | seekSet
  | seekCur
  | seekEnd

/-- {lit}`mem_seek` -/
def memSeek (s : MemStream) (offset : ℤ) (origin : Origin) : MemStream :=
  let position : ℤ := match origin with
    | .seekSet => offset
    | .seekCur => s.position + offset
    | .seekEnd => s.buffer.length + offset
  if position < 0 then s
  else if (s.buffer.length : ℤ) < position then s
  else { s with position := position.toNat, isEof := false }

/-- A number of 32 bits as a signed one. -/
def toInt32 (n : ℕ) : ℤ :=
  (BitVec.ofNat 32 n).toInt

/-- {lit}`qp_stream_setpos` -/
def setpos (s : MemStream) (offset : ℕ) : MemStream :=
  memSeek s (toInt32 offset) .seekSet

/-- {lit}`qp_stream_read` of one member, with the bytes that have been read -/
def streamRead : ℕ → MemStream → MemStream × List UInt8
  | 0, s => (s, [])
  | n + 1, s =>
    let c := memGet s
    if c.2 < 0 then (c.1, [])
    else
      let later := streamRead n c.1
      (later.1, UInt8.ofInt c.2 :: later.2)

/-! ## The first two blocks -/

/-- {lit}`qgf_read_graphics_descriptor` -/
def readGraphicsDescriptor (s : MemStream) : MemStream × Option GraphicsDescriptor :=
  let data := streamRead 23 (setpos s 0)
  if data.2.length ≠ 23 then (data.1, none)
  else if validateBlockHeader (.read data.2) 0x00 18 = false then (data.1, none)
  else if field 5 3 data.2 ≠ magic ∨ field 8 1 data.2 ≠ 0x01 then (data.1, none)
  else if field 13 4 data.2 ≠ 0xFFFFFFFF - field 9 4 data.2 then (data.1, none)
  else (data.1, some ⟨field 9 4 data.2, field 17 2 data.2, field 19 2 data.2, field 21 2 data.2⟩)

/-- {lit}`qgf_read_frame_offset` -/
def readFrameOffset (s : MemStream) (frameNumber : ℕ) : MemStream × Option ℕ :=
  match readGraphicsDescriptor s with
  | (s, none) => (s, none)
  | (s, some descriptor) =>
    let data := streamRead 5 s
    if data.2.length ≠ 5 then (data.1, none)
    else if validateBlockHeader (.read data.2) 0x01 (descriptor.frameCount * 4 : ℕ) = false then
      (data.1, none)
    else if descriptor.frameCount ≤ frameNumber then (data.1, none)
    else
      let offset := streamRead 4 (memSeek data.1 (frameNumber * 4 : ℕ) .seekCur)
      if offset.2.length ≠ 4 then (offset.1, none)
      else (offset.1, some (field 0 4 offset.2))

/-- {lit}`qgf_seek_to_frame_descriptor`, which seeks to the start if there is no offset -/
def seekToFrameDescriptor (s : MemStream) (frameNumber : ℕ) : MemStream :=
  let offset := readFrameOffset s frameNumber
  setpos offset.1 (offset.2.getD 0)

/-! ## The blocks of a frame -/

/-- {lit}`qgf_frame_info_t` -/
structure FrameInfo where
  compressionScheme : UInt8
  bpp : ℕ
  hasPalette : Bool
  isPanelNative : Bool
  isDelta : Bool
  left : ℕ
  top : ℕ
  right : ℕ
  bottom : ℕ
  delay : ℕ

/-- The table of {lit}`qgf_parse_format`: bits for a pixel, and whether there is a palette, and
whether the pixels are in the format of the panel -/
def parseFormat (format : UInt8) : Option (ℕ × Bool × Bool) :=
  [(1, false, false), (2, false, false), (4, false, false), (8, false, false), (1, true, false),
    (2, true, false), (4, true, false), (8, true, false), (16, false, true),
    (24, false, true)][format.toNat]?

/-- {lit}`qgf_parse_frame_descriptor`.  An unknown format leaves the variables at zero. -/
def parseFrameDescriptor (data : List UInt8) : FrameInfo :=
  let format := (parseFormat (data.getD 5 0)).getD (0, false, false)
  { compressionScheme := data.getD 7 0
    bpp := format.1
    hasPalette := format.2.1
    isPanelNative := format.2.2
    isDelta := data.getD 6 0 &&& 0x02 == 0x02
    left := 0
    top := 0
    right := 0
    bottom := 0
    delay := field 9 2 data }

/-- {lit}`qgf_validate_frame_descriptor` -/
def validateFrameDescriptor (s : MemStream) (frameNumber : ℕ) : MemStream × Option FrameInfo :=
  let data := streamRead 11 (seekToFrameDescriptor s frameNumber)
  if data.2.length ≠ 11 then (data.1, none)
  else if validateBlockHeader (.read data.2) 0x02 6 = false then (data.1, none)
  else (data.1, some (parseFrameDescriptor data.2))

/-- A block of which {lit}`size` bytes are read: {lit}`qgf_validate_delta_descriptor`,
{lit}`qgf_validate_frame_data_descriptor`. -/
def validateBlock (size : ℕ) (typeId : UInt8) (expectedLength : ℤ) (s : MemStream) :
    MemStream × Bool :=
  let data := streamRead size s
  if data.2.length ≠ size then (data.1, false)
  else (data.1, validateBlockHeader (.read data.2) typeId expectedLength)

/-- {lit}`qgf_validate_palette_descriptor` -/
def validatePaletteDescriptor (s : MemStream) (bpp : ℕ) : MemStream × Bool :=
  let expectedLength := (1 <<< bpp) * 3
  let block := validateBlock 5 0x03 (expectedLength : ℕ) s
  if block.2 = false then block
  else (memSeek block.1 (expectedLength : ℕ) .seekCur, true)

/-- {lit}`qgf_validate_delta_descriptor` -/
def validateDeltaDescriptor (s : MemStream) : MemStream × Bool :=
  validateBlock 13 0x04 8 s

/-- {lit}`qgf_validate_frame_data_descriptor` -/
def validateFrameDataDescriptor (s : MemStream) : MemStream × Bool :=
  validateBlock 5 0x05 (-1) s

/-- A check that is made if something is there. -/
def checkIf (there : Bool) (check : MemStream → MemStream × Bool) (s : MemStream) :
    MemStream × Bool :=
  if there = true then check s else (s, true)

theorem checkIf_true (check : MemStream → MemStream × Bool) (s : MemStream) :
    checkIf true check s = check s :=
  rfl

theorem checkIf_false (check : MemStream → MemStream × Bool) (s : MemStream) :
    checkIf false check s = (s, true) :=
  rfl

/-- The body of the loop in {lit}`qgf_validate_stream` -/
def validateFrame (s : MemStream) (i : ℕ) : MemStream × Bool :=
  match validateFrameDescriptor s i with
  | (s, none) => (s, false)
  | (s, some info) =>
    let palette := checkIf info.hasPalette (validatePaletteDescriptor · info.bpp) s
    if palette.2 = false then palette
    else
      let delta := checkIf info.isDelta validateDeltaDescriptor palette.1
      if delta.2 = false then delta
      else validateFrameDataDescriptor delta.1

/-- The loop in {lit}`qgf_validate_stream` -/
def validateFrames : ℕ → ℕ → MemStream → MemStream × Bool
  | 0, _, s => (s, true)
  | n + 1, i, s =>
    let frame := validateFrame s i
    if frame.2 = false then frame else validateFrames n (i + 1) frame.1

/-- {lit}`qgf_validate_stream` -/
def validateStream (s : MemStream) : MemStream × Bool :=
  match readGraphicsDescriptor s with
  | (s, none) => (s, false)
  | (s, some descriptor) => validateFrames descriptor.frameCount 0 s

/-- {lit}`qgf_get_total_size` -/
def getTotalSize (s : MemStream) : MemStream × ℕ :=
  match readGraphicsDescriptor s with
  | (t, none) => (t, 0)
  | (t, some descriptor) => (setpos t s.position, descriptor.totalFileSize)

/-- The part of {lit}`qp_drawimage_prepare_frame_for_stream_read` for a delta frame -/
def readDelta (s : MemStream) (info : FrameInfo) : MemStream × Option FrameInfo :=
  if info.isDelta = true then
    let delta := streamRead 13 s
    if delta.2.length ≠ 13 then (delta.1, none)
    else
      (delta.1, some { info with
        left := field 5 2 delta.2
        top := field 7 2 delta.2
        right := field 9 2 delta.2
        bottom := field 11 2 delta.2 })
  else (s, some info)

/-- {lit}`qp_drawimage_prepare_frame_for_stream_read` for a build that can draw native colors, and
for images that have them -/
def prepareFrame (s : MemStream) (frameNumber : ℕ) : MemStream × Option FrameInfo :=
  let data := streamRead 11 (seekToFrameDescriptor s frameNumber)
  if data.2.length ≠ 11 then (data.1, none)
  else
    let info := parseFrameDescriptor data.2
    if info.hasPalette = true ∨ info.bpp ≤ 8 then (data.1, none)
    else
      match readDelta data.1 info with
      | (s, none) => (s, none)
      | (s, some info) =>
        let descriptor := streamRead 5 s
        if descriptor.2.length ≠ 5 then (descriptor.1, none) else (descriptor.1, some info)

/-- {lit}`qgf_image_handle_t` -/
structure ImageHandle where
  stream : MemStream
  width : ℕ
  height : ℕ
  frameCount : ℕ

/-- {lit}`qp_load_image_mem` with a free slot.  A stream whose length is negative gives nothing, as
one without bytes. -/
def loadImageMem (buffer : List UInt8) : Option ImageHandle :=
  let length := toInt32 (getTotalSize (makeMemoryStream (buffer.take 23))).2
  let valid := validateStream (makeMemoryStream (buffer.take length.toNat))
  if valid.2 = false then none
  else
    let descriptor := readGraphicsDescriptor valid.1
    let d := descriptor.2.getD ⟨0, 0, 0, 0⟩
    some ⟨descriptor.1, d.imageWidth, d.imageHeight, d.frameCount⟩

/-! ## Where a stream is -/

section Streams

variable {s : MemStream} {cs rest : List UInt8} {n p : ℕ}

theorem memSeek_of_le {offset : ℤ} {origin : Origin}
    (hposition : (match origin with
      | .seekSet => offset
      | .seekCur => s.position + offset
      | .seekEnd => s.buffer.length + offset) = (p : ℤ)) (hp : p ≤ s.buffer.length) :
    memSeek s offset origin = ⟨s.buffer, p, false⟩ := by
  unfold memSeek
  dsimp only
  rw [hposition, if_neg (by omega), if_neg (by omega), Int.toNat_natCast]

theorem toInt32_of_lt (hn : n < 2147483648) : toInt32 n = n := by
  rw [toInt32, BitVec.toInt_eq_toNat_of_lt]
  · rw [BitVec.toNat_ofNat, Nat.mod_eq_of_lt (by omega)]
  · rw [BitVec.toNat_ofNat, Nat.mod_eq_of_lt (by omega)]
    omega

theorem toInt32_of_le (hn : 2147483648 ≤ n) (hlt : n < 4294967296) : toInt32 n < 0 := by
  rw [toInt32, BitVec.toInt_eq_toNat_bmod, BitVec.toNat_ofNat, Nat.mod_eq_of_lt (by omega),
    Int.bmod_def]
  omega

theorem setpos_of_le (hp : p ≤ s.buffer.length) (hlength : s.buffer.length < 2147483648) :
    setpos s p = ⟨s.buffer, p, false⟩ :=
  memSeek_of_le (toInt32_of_lt (hp.trans_lt hlength)) hp

/-- As many bytes as there are. -/
theorem streamRead_ahead (h : s.ahead = cs ++ rest) :
    streamRead cs.length s = (s.advance cs.length, cs) := by
  induction cs generalizing s with
  | nil => rfl
  | cons c cs ih =>
    have hget := memGet_of_ahead h
    have hnext := ih (MemStream.ahead_advance [c] h)
    rw [List.length_cons, streamRead, hget]
    dsimp only
    rw [if_neg (by omega), List.length_singleton] at *
    rw [hnext, ofInt_toNat, MemStream.advance_advance, Nat.add_comm]

/-- Too few bytes. -/
theorem length_streamRead_lt (h : s.ahead.length < n) : (streamRead n s).2.length < n := by
  induction n generalizing s with
  | zero => omega
  | succ n ih =>
    cases hahead : s.ahead with
    | nil =>
      have hnone : s.buffer[s.position]? = none := by
        rw [← List.head?_drop]
        exact congrArg List.head? hahead
      rw [streamRead, memGet, hnone]
      simp [STREAM_EOF]
    | cons c rest =>
      have hget := memGet_of_ahead hahead
      have hnext := MemStream.ahead_advance [c] hahead
      rw [hahead, List.length_cons] at h
      rw [streamRead, hget]
      dsimp only
      rw [if_neg (by omega), List.length_cons]
      have hlater := ih (s := s.advance 1) (by
        rw [List.length_singleton] at hnext
        rw [hnext]
        omega)
      omega

end Streams

/-! ## The descriptor of a file -/

/-- The numbers of a descriptor fit. -/
structure GraphicsDescriptor.Fits (d : GraphicsDescriptor) : Prop where
  size : d.totalFileSize < 4294967296
  width : d.imageWidth < 65536
  height : d.imageHeight < 65536
  count : d.frameCount < 65536

theorem GraphicsDescriptor.Fits.fields {d : GraphicsDescriptor} (h : d.Fits) :
    field 5 3 d.bytes = magic ∧ field 8 1 d.bytes = 1 ∧ field 9 4 d.bytes = d.totalFileSize ∧
      field 13 4 d.bytes = 0xFFFFFFFF - d.totalFileSize ∧ field 17 2 d.bytes = d.imageWidth ∧
      field 19 2 d.bytes = d.imageHeight ∧ field 21 2 d.bytes = d.frameCount := by
  have hone : ([1] : List UInt8) = LittleEndian.bytes 1 1 := rfl
  rw [GraphicsDescriptor.bytes, hone]
  refine ⟨?_, ?_, ?_, ?_, ?_, ?_, ?_⟩
  · rw [field_skip 0 (by rfl), field_first (by decide)]
  · rw [field_skip 3 (by rfl), field_skip 0 (by rfl), field_first (by decide)]
  · rw [field_skip 4 (by rfl), field_skip 1 (by rfl), field_skip 0 (by rfl), field_first h.size]
  · rw [field_skip 8 (by rfl), field_skip 5 (by rfl), field_skip 4 (by rfl), field_skip 0 (by rfl),
      field_first (Nat.lt_of_le_of_lt (Nat.sub_le _ _) (by decide))]
  · rw [field_skip 12 (by rfl), field_skip 9 (by rfl), field_skip 8 (by rfl), field_skip 4 (by rfl),
      field_skip 0 (by rfl), field_first h.width]
  · rw [field_skip 14 (by rfl), field_skip 11 (by rfl), field_skip 10 (by rfl), field_skip 6 (by rfl),
      field_skip 2 (by rfl), field_skip 0 (by rfl), field_first h.height]
  · rw [field_skip 16 (by rfl), field_skip 13 (by rfl), field_skip 12 (by rfl), field_skip 8 (by rfl),
      field_skip 4 (by rfl), field_skip 2 (by rfl), field_skip 0 (by rfl), field_last h.count]

/-- The descriptor of a file is read back. -/
theorem readGraphicsDescriptor_bytes {d : GraphicsDescriptor} (hd : d.Fits) {s : MemStream}
    {rest : List UInt8} (hs : s.buffer = d.bytes ++ rest) (hlength : s.buffer.length < 2147483648) :
    readGraphicsDescriptor s = (⟨s.buffer, 23, false⟩, some d) := by
  rcases hd.fields with ⟨hmagic, hversion, hsize, hneg, hwidth, hheight, hcount⟩
  have hahead : (setpos s 0).ahead = d.bytes ++ rest := by
    rw [setpos_of_le (Nat.zero_le _) hlength, MemStream.ahead, List.drop_zero, hs]
  have hread := streamRead_ahead hahead
  have hheader : validateBlockHeader (.read d.bytes) 0x00 18 = true := by
    rw [GraphicsDescriptor.bytes]
    exact validateBlockHeader_blockHeader (Or.inr ⟨rfl, by decide⟩) _
  rw [GraphicsDescriptor.length_bytes, setpos_of_le (Nat.zero_le _) hlength] at hread
  unfold readGraphicsDescriptor
  dsimp only
  rw [setpos_of_le (Nat.zero_le _) hlength, hread]
  dsimp only
  rw [if_neg (not_not_intro d.length_bytes), if_neg (by rw [hheader]; decide),
    if_neg (by rw [hmagic, hversion]; simp), if_neg (by rw [hneg, hsize]; simp), hsize, hwidth,
    hheight, hcount]
  rfl

/-! ## Where the frames are -/

theorem drop_flatMap_take {α β : Type} (f : α → List β) (l : List α) (i : ℕ) :
    (l.flatMap f).drop ((l.take i).flatMap f).length = (l.drop i).flatMap f := by
  conv_lhs => rw [← List.take_append_drop i l, List.flatMap_append]
  rw [List.take_append_drop, List.drop_left]

theorem drop_flatMap_bytes {offsets : List ℕ} (k i : ℕ) :
    (offsets.flatMap (LittleEndian.bytes k)).drop (i * k) =
      (offsets.drop i).flatMap (LittleEndian.bytes k) := by
  induction offsets generalizing i with
  | nil => simp
  | cons offset offsets ih =>
    cases i with
    | zero => rw [Nat.zero_mul]; rfl
    | succ i =>
      rw [List.flatMap_cons, Nat.succ_mul, Nat.add_comm, ← List.drop_drop,
        List.drop_left' (length_bytes k offset), ih, List.drop_succ_cons]

theorem offsetsFrom_drop (start : ℕ) {i : ℕ} {blocks : List FrameBlock}
    (hi : i < blocks.length) :
    ∃ rest, (offsetsFrom start blocks).drop i =
      (start + ((blocks.take i).flatMap FrameBlock.bytes).length) :: rest := by
  induction blocks generalizing start i with
  | nil => exact absurd hi (Nat.not_lt_zero i)
  | cons b bs ih =>
    cases i with
    | zero => exact ⟨_, rfl⟩
    | succ i =>
      rcases ih (start + b.bytes.length) (Nat.lt_of_succ_lt_succ hi) with ⟨rest, hrest⟩
      refine ⟨rest, ?_⟩
      rw [offsetsFrom, List.drop_succ_cons, hrest, List.take_succ_cons, List.flatMap_cons,
        List.length_append, Nat.add_assoc]

/-- The numbers of a file fit, and its size is one that a stream can have. -/
structure LayoutFits (width height : ℕ) (blocks : List FrameBlock) : Prop where
  size : (layout width height blocks).length < 2147483648
  width : width < 65536
  height : height < 65536
  count : blocks.length < 65536

section Layout

variable {width height i : ℕ} {blocks : List FrameBlock} {s : MemStream}

/-- The descriptor of a file. -/
def layoutDescriptor (width height : ℕ) (blocks : List FrameBlock) : GraphicsDescriptor :=
  ⟨28 + 4 * blocks.length + (blocks.flatMap FrameBlock.bytes).length, width, height,
    blocks.length⟩

/-- Where a frame starts. -/
def frameStart (blocks : List FrameBlock) (i : ℕ) : ℕ :=
  28 + 4 * blocks.length + ((blocks.take i).flatMap FrameBlock.bytes).length

theorem frameStart_le (width height i : ℕ) (blocks : List FrameBlock) :
    frameStart blocks i ≤ (layout width height blocks).length := by
  have hsplit : (blocks.flatMap FrameBlock.bytes).length =
      ((blocks.take i).flatMap FrameBlock.bytes).length +
        ((blocks.drop i).flatMap FrameBlock.bytes).length := by
    rw [← List.length_append, ← List.flatMap_append, List.take_append_drop]
  rw [length_layout, hsplit, frameStart]
  omega

theorem LayoutFits.descriptor (h : LayoutFits width height blocks) :
    (layoutDescriptor width height blocks).Fits := by
  have hsize := h.size
  rw [length_layout] at hsize
  exact ⟨hsize.trans (by decide), h.width, h.height, h.count⟩

theorem LayoutFits.readGraphicsDescriptor (h : LayoutFits width height blocks)
    (hs : s.buffer = layout width height blocks) :
    readGraphicsDescriptor s = (⟨s.buffer, 23, false⟩, some (layoutDescriptor width height blocks)) :=
  readGraphicsDescriptor_bytes h.descriptor hs (hs ▸ h.size)

theorem ahead_table (width height : ℕ) (blocks : List FrameBlock) :
    MemStream.ahead ⟨layout width height blocks, 23, false⟩ =
      blockHeader 0x01 (blocks.length * 4) ++
        ((offsetsFrom (28 + 4 * blocks.length) blocks).flatMap (LittleEndian.bytes 4) ++
          blocks.flatMap FrameBlock.bytes) := by
  rw [MemStream.ahead, layout, List.drop_left' (GraphicsDescriptor.length_bytes _), offsetTable,
    List.append_assoc]

/-- The offset of a frame is read. -/
theorem LayoutFits.readFrameOffset (h : LayoutFits width height blocks)
    (hs : s.buffer = layout width height blocks) (hi : i < blocks.length) :
    readFrameOffset s i = (⟨s.buffer, 28 + i * 4 + 4, false⟩, some (frameStart blocks i)) := by
  have hcount := h.count
  have hlength := length_layout width height blocks
  have hread : streamRead 5 ⟨s.buffer, 23, false⟩ =
      (⟨s.buffer, 28, false⟩, blockHeader 0x01 (blocks.length * 4)) := by
    have hread := streamRead_ahead (ahead_table width height blocks)
    rw [length_blockHeader] at hread
    rw [hs]
    exact hread
  have hseek : memSeek ⟨s.buffer, 28, false⟩ (i * 4 : ℕ) .seekCur =
      ⟨s.buffer, 28 + i * 4, false⟩ := by
    apply memSeek_of_le
    · push_cast
      ring
    · rw [hs, hlength]
      omega
  have hahead : ∃ rest, MemStream.ahead ⟨s.buffer, 28 + i * 4, false⟩ =
      LittleEndian.bytes 4 (frameStart blocks i) ++ rest := by
    have htable := ahead_table width height blocks
    rw [MemStream.ahead] at htable
    rcases offsetsFrom_drop (28 + 4 * blocks.length) hi with ⟨rest, hrest⟩
    have hdrop : (layout width height blocks).drop (28 + i * 4) =
        (((offsetsFrom (28 + 4 * blocks.length) blocks).flatMap (LittleEndian.bytes 4)) ++
          blocks.flatMap FrameBlock.bytes).drop (i * 4) := by
      rw [show 28 + i * 4 = 23 + (5 + i * 4) by omega, ← List.drop_drop, htable,
        ← List.drop_drop, List.drop_left' (length_blockHeader _ _)]
    rw [MemStream.ahead, hs, hdrop, List.drop_append_of_le_length, drop_flatMap_bytes, hrest,
      List.flatMap_cons, List.append_assoc]
    · exact ⟨_, rfl⟩
    · rw [List.length_flatMap]
      simp
      omega
  have hstart : frameStart blocks i < 256 ^ 4 :=
    (frameStart_le width height i blocks).trans_lt (h.size.trans (by decide))
  rcases hahead with ⟨rest, hahead⟩
  have hoffset : streamRead 4 ⟨s.buffer, 28 + i * 4, false⟩ =
      (⟨s.buffer, 28 + i * 4 + 4, false⟩, LittleEndian.bytes 4 (frameStart blocks i)) := by
    have hread' := streamRead_ahead hahead
    rw [length_bytes] at hread'
    exact hread'
  have hheader : validateBlockHeader (.read (blockHeader 0x01 (blocks.length * 4))) 0x01
      ((blocks.length * 4 : ℕ) : ℤ) = true := by
    rw [← List.append_nil (blockHeader 0x01 (blocks.length * 4))]
    exact validateBlockHeader_blockHeader (Or.inr ⟨rfl, by omega⟩) []
  unfold Painter.readFrameOffset
  rw [h.readGraphicsDescriptor hs]
  dsimp only [layoutDescriptor]
  rw [hread]
  dsimp only
  rw [if_neg (by simp), hheader, if_neg (by simp), if_neg (Nat.not_le_of_lt hi), hseek, hoffset,
    if_neg (by simp), field_last hstart]

/-- The reader finds each frame of a file. -/
theorem LayoutFits.seekToFrameDescriptor (h : LayoutFits width height blocks)
    (hs : s.buffer = layout width height blocks) (hi : i < blocks.length) :
    seekToFrameDescriptor s i = ⟨s.buffer, frameStart blocks i, false⟩ := by
  unfold Painter.seekToFrameDescriptor
  rw [h.readFrameOffset hs hi]
  apply setpos_of_le
  · rw [Option.getD_some]
    exact hs ▸ frameStart_le width height i blocks
  · exact hs ▸ h.size

/-- What is there. -/
theorem ahead_frameStart (width height : ℕ) (hi : i < blocks.length) :
    MemStream.ahead ⟨layout width height blocks, frameStart blocks i, false⟩ =
      blocks[i].bytes ++ (blocks.drop (i + 1)).flatMap FrameBlock.bytes := by
  have hfirst : (GraphicsDescriptor.bytes (layoutDescriptor width height blocks) ++
      offsetTable blocks).length = 28 + 4 * blocks.length := by
    rw [List.length_append, GraphicsDescriptor.length_bytes, length_offsetTable]
    omega
  have hlayout : layout width height blocks =
      GraphicsDescriptor.bytes (layoutDescriptor width height blocks) ++ offsetTable blocks ++
        blocks.flatMap FrameBlock.bytes := by
    rw [List.append_assoc]
    rfl
  rw [MemStream.ahead, hlayout, frameStart, ← List.drop_drop, List.drop_left' hfirst,
    drop_flatMap_take, List.drop_eq_getElem_cons hi, List.flatMap_cons]

end Layout

/-! ## The blocks of a frame -/

/-- The numbers of a frame fit. -/
structure FrameBlock.Fits (b : FrameBlock) : Prop where
  delay : b.delay < 65536
  box : ∀ box ∈ b.box, box.left < 65536 ∧ box.top < 65536 ∧ box.right < 65536 ∧
    box.bottom < 65536

/-- What the reader knows about a frame. -/
def FrameBlock.info (b : FrameBlock) : FrameInfo where
  compressionScheme := b.compression
  bpp := 24
  hasPalette := false
  isPanelNative := true
  isDelta := b.box.isSome
  left := (b.box.map Box.left).getD 0
  top := (b.box.map Box.top).getD 0
  right := (b.box.map Box.right).getD 0
  bottom := (b.box.map Box.bottom).getD 0
  delay := b.delay

theorem FrameBlock.Fits.parseFrameDescriptor {b : FrameBlock} (h : b.Fits) :
    parseFrameDescriptor b.descriptor =
      { b.info with left := 0, top := 0, right := 0, bottom := 0 } := by
  have hdelay : field 9 2 b.descriptor = b.delay := by
    rw [FrameBlock.descriptor, field_skip 4 (by rfl), field_skip 3 (by rfl),
      field_skip 2 (by rfl), field_skip 1 (by rfl), field_skip 0 (by rfl), field_last h.delay]
  have hdelta : ((if b.box.isSome = true then 0x02 else 0x00 : UInt8) &&& 0x02 == 0x02) =
      b.box.isSome := by
    cases b.box.isSome <;> rfl
  rw [Painter.parseFrameDescriptor, hdelay]
  change FrameInfo.mk b.compression 24 false true
    ((if b.box.isSome = true then 0x02 else 0x00 : UInt8) &&& 0x02 == 0x02) 0 0 0 0 b.delay = _
  rw [hdelta]
  rfl

/-- The rectangle is read back. -/
theorem FrameBlock.Fits.fields {b : FrameBlock} (h : b.Fits) {box : Box} (hbox : box ∈ b.box) :
    field 5 2 box.bytes = box.left ∧ field 7 2 box.bytes = box.top ∧
      field 9 2 box.bytes = box.right ∧ field 11 2 box.bytes = box.bottom := by
  rcases h.box box hbox with ⟨hleft, htop, hright, hbottom⟩
  rw [Box.bytes]
  refine ⟨?_, ?_, ?_, ?_⟩
  · rw [field_skip 0 (by rfl), field_first hleft]
  · rw [field_skip 2 (by rfl), field_skip 0 (by rfl), field_first htop]
  · rw [field_skip 4 (by rfl), field_skip 2 (by rfl), field_skip 0 (by rfl), field_first hright]
  · rw [field_skip 6 (by rfl), field_skip 4 (by rfl), field_skip 2 (by rfl),
      field_skip 0 (by rfl), field_last hbottom]

theorem validateBlock_ahead {s : MemStream} {cs rest : List UInt8} {size : ℕ} {typeId : UInt8}
    {expectedLength : ℤ} (hs : s.ahead = cs ++ rest) (hsize : cs.length = size)
    (hheader : validateBlockHeader (.read cs) typeId expectedLength = true) :
    validateBlock size typeId expectedLength s = (s.advance size, true) := by
  have hread := streamRead_ahead hs
  rw [hsize] at hread
  rw [validateBlock, hread]
  dsimp only
  rw [if_neg (not_not_intro hsize), hheader]

section Frames

variable {width height i : ℕ} {blocks : List FrameBlock} {s : MemStream}

/-- The descriptor of a frame is read. -/
theorem LayoutFits.read_descriptor (h : LayoutFits width height blocks)
    (hs : s.buffer = layout width height blocks) (hi : i < blocks.length) :
    streamRead 11 (Painter.seekToFrameDescriptor s i) =
      (⟨s.buffer, frameStart blocks i + 11, false⟩, blocks[i].descriptor) ∧
    MemStream.ahead ⟨s.buffer, frameStart blocks i + 11, false⟩ =
      (blocks[i].box.map Box.bytes).getD [] ++ (blockHeader 0x05 blocks[i].data.length ++
        (blocks[i].data ++ (blocks.drop (i + 1)).flatMap FrameBlock.bytes)) := by
  have hahead := ahead_frameStart width height hi
  rw [FrameBlock.bytes, List.append_assoc] at hahead
  have hread := streamRead_ahead hahead
  have hnext := MemStream.ahead_advance _ hahead
  rw [FrameBlock.length_descriptor, ← hs] at hread hnext
  constructor
  · rw [h.seekToFrameDescriptor hs hi]
    exact hread
  · rw [writeData, List.append_assoc, List.append_assoc] at hnext
    exact hnext

theorem LayoutFits.validateFrame (h : LayoutFits width height blocks)
    (hs : s.buffer = layout width height blocks) (hi : i < blocks.length)
    (hb : blocks[i].Fits) :
    ∃ p, Painter.validateFrame s i = (⟨s.buffer, p, false⟩, true) := by
  rcases h.read_descriptor hs hi with ⟨hread, hahead⟩
  have hheader : validateBlockHeader (.read blocks[i].descriptor) 0x02 6 = true :=
    validateBlockHeader_blockHeader (Or.inr ⟨rfl, by decide⟩) _
  have hdescriptor : validateFrameDescriptor s i =
      (⟨s.buffer, frameStart blocks i + 11, false⟩,
        some { blocks[i].info with left := 0, top := 0, right := 0, bottom := 0 }) := by
    rw [validateFrameDescriptor, hread]
    dsimp only
    rw [if_neg (not_not_intro blocks[i].length_descriptor), hheader, if_neg (by decide),
      hb.parseFrameDescriptor]
  have hdata : ∀ {t : MemStream} {rest : List UInt8},
      t.ahead = blockHeader 0x05 blocks[i].data.length ++ rest →
      validateFrameDataDescriptor t = (t.advance 5, true) := by
    intro t rest ht
    apply validateBlock_ahead ht (length_blockHeader _ _)
    rw [← List.append_nil (blockHeader 0x05 blocks[i].data.length)]
    exact validateBlockHeader_blockHeader (Or.inl rfl) []
  unfold Painter.validateFrame
  rw [hdescriptor]
  dsimp only [FrameBlock.info]
  rw [checkIf_false, if_neg (by simp)]
  cases hbox : blocks[i].box with
  | none =>
    rw [hbox] at hahead
    rw [Option.isSome_none, checkIf_false, if_neg (by simp), hdata hahead]
    exact ⟨_, rfl⟩
  | some box =>
    rw [hbox] at hahead
    have hdelta : validateDeltaDescriptor ⟨s.buffer, frameStart blocks i + 11, false⟩ =
        (⟨s.buffer, frameStart blocks i + 11 + 13, false⟩, true) :=
      validateBlock_ahead hahead box.length_bytes
        (validateBlockHeader_blockHeader (Or.inr ⟨rfl, by decide⟩) _)
    have hnext := MemStream.ahead_advance _ hahead
    rw [Option.map_some, Option.getD_some, box.length_bytes] at hnext
    rw [Option.isSome_some, checkIf_true, hdelta, if_neg (by simp)]
    exact ⟨_, hdata hnext⟩

theorem LayoutFits.validateFrames (h : LayoutFits width height blocks)
    (hb : ∀ b ∈ blocks, b.Fits) {n : ℕ} (hs : s.buffer = layout width height blocks)
    (hn : i + n = blocks.length) :
    ∃ t, Painter.validateFrames n i s = (t, true) ∧ t.buffer = s.buffer := by
  induction n generalizing i s with
  | zero => exact ⟨s, rfl, rfl⟩
  | succ n ih =>
    have hi : i < blocks.length := by omega
    rcases h.validateFrame hs hi (hb _ (List.getElem_mem hi)) with ⟨p, hframe⟩
    rcases ih (i := i + 1) (s := ⟨s.buffer, p, false⟩) hs (by omega) with ⟨t, hframes, hbuffer⟩
    refine ⟨t, ?_, hbuffer⟩
    rw [Painter.validateFrames, hframe]
    dsimp only
    rw [if_neg (by decide), hframes]

/-- The reader accepts the file. -/
theorem LayoutFits.validateStream (h : LayoutFits width height blocks)
    (hb : ∀ b ∈ blocks, b.Fits) (hs : s.buffer = layout width height blocks) :
    ∃ t, Painter.validateStream s = (t, true) ∧ t.buffer = s.buffer := by
  unfold Painter.validateStream
  rw [h.readGraphicsDescriptor hs]
  exact h.validateFrames hb hs (Nat.zero_add _)

/-- The size in the descriptor of a file. -/
theorem getTotalSize_layout (h : (layoutDescriptor width height blocks).Fits) :
    (getTotalSize (makeMemoryStream ((layout width height blocks).take 23))).2 =
      (layout width height blocks).length := by
  have htake : (layout width height blocks).take 23 =
      (layoutDescriptor width height blocks).bytes := by
    rw [layout]
    exact List.take_left' (GraphicsDescriptor.length_bytes _)
  unfold getTotalSize
  rw [htake, readGraphicsDescriptor_bytes h (List.append_nil _).symm, length_layout]
  · rfl
  · change (GraphicsDescriptor.bytes _).length < _
    rw [GraphicsDescriptor.length_bytes]
    decide

/-- The file is loaded. -/
theorem LayoutFits.loadImageMem (h : LayoutFits width height blocks)
    (hb : ∀ b ∈ blocks, b.Fits) :
    ∃ t, Painter.loadImageMem (layout width height blocks) =
      some ⟨t, width, height, blocks.length⟩ ∧ t.buffer = layout width height blocks := by
  rcases h.validateStream (s := makeMemoryStream (layout width height blocks)) hb rfl with
    ⟨t, hvalid, hbuffer⟩
  refine ⟨⟨t.buffer, 23, false⟩, ?_, hbuffer⟩
  unfold Painter.loadImageMem
  rw [getTotalSize_layout h.descriptor, toInt32_of_lt h.size]
  dsimp only
  rw [Int.toNat_natCast, List.take_length, hvalid, if_neg (by simp), h.readGraphicsDescriptor hbuffer]
  rfl

/-- A file too long for a stream. -/
theorem loadImageMem_large (h : (layoutDescriptor width height blocks).Fits)
    (hsize : 2147483648 ≤ (layout width height blocks).length) :
    loadImageMem (layout width height blocks) = none := by
  have hneg : toInt32 (layout width height blocks).length < 0 := by
    apply toInt32_of_le hsize
    rw [length_layout]
    exact h.size
  have hempty : (validateStream (makeMemoryStream [])).2 = false := by
    have hshort := length_streamRead_lt (s := setpos (makeMemoryStream []) 0) (n := 23) (by decide)
    unfold validateStream readGraphicsDescriptor
    dsimp only
    rw [if_pos hshort.ne]
  unfold loadImageMem
  rw [getTotalSize_layout h]
  dsimp only
  rw [Int.toNat_of_nonpos hneg.le, List.take_zero, if_pos hempty]

/-- The reader gets to the data of a frame. -/
theorem LayoutFits.prepareFrame (h : LayoutFits width height blocks)
    (hs : s.buffer = layout width height blocks) (hi : i < blocks.length)
    (hb : blocks[i].Fits) :
    ∃ t rest, Painter.prepareFrame s i = (t, some blocks[i].info) ∧
      t.ahead = blocks[i].data ++ rest ∧ t.buffer = s.buffer := by
  rcases h.read_descriptor hs hi with ⟨hread, hahead⟩
  have hdata : ∀ {t : MemStream} {rest : List UInt8},
      t.ahead = blockHeader 0x05 blocks[i].data.length ++ rest →
      streamRead 5 t = (t.advance 5, blockHeader 0x05 blocks[i].data.length) := by
    intro t rest ht
    have hread := streamRead_ahead ht
    rwa [length_blockHeader] at hread
  have hdelta : ∃ t, readDelta ⟨s.buffer, frameStart blocks i + 11, false⟩
      { blocks[i].info with left := 0, top := 0, right := 0, bottom := 0 } =
        (t, some blocks[i].info) ∧ t.buffer = s.buffer ∧
      t.ahead = blockHeader 0x05 blocks[i].data.length ++
        (blocks[i].data ++ (blocks.drop (i + 1)).flatMap FrameBlock.bytes) := by
    cases hbox : blocks[i].box with
    | none =>
      rw [hbox] at hahead
      refine ⟨⟨s.buffer, frameStart blocks i + 11, false⟩, ?_, rfl, hahead⟩
      simp [readDelta, FrameBlock.info, hbox]
    | some box =>
      rw [hbox, Option.map_some, Option.getD_some] at hahead
      have hread := streamRead_ahead hahead
      have hnext := MemStream.ahead_advance _ hahead
      rw [box.length_bytes] at hread hnext
      rcases hb.fields hbox with ⟨hleft, htop, hright, hbottom⟩
      refine ⟨MemStream.advance ⟨s.buffer, frameStart blocks i + 11, false⟩ 13, ?_, rfl, hnext⟩
      simp [readDelta, FrameBlock.info, hbox, hread, hleft, htop, hright, hbottom]
  rcases hdelta with ⟨t, hdelta, hbuffer, ht⟩
  have hnext := MemStream.ahead_advance _ ht
  rw [length_blockHeader] at hnext
  refine ⟨t.advance 5, _, ?_, hnext, hbuffer⟩
  unfold Painter.prepareFrame
  rw [hread]
  dsimp only
  rw [if_neg (not_not_intro blocks[i].length_descriptor), hb.parseFrameDescriptor, hdelta,
    if_neg (by simp [FrameBlock.info])]
  dsimp only
  rw [hdata ht, if_neg (not_not_intro (length_blockHeader _ _))]

end Frames

end Painter
end VialQmk
