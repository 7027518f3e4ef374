import VialQmk.Painter.QgfPlayer
import VialQmk.Painter.QffWriter

/-!
# Quantum Painter - the reader of font files

The firmware looks up each glyph in a font file before it draws it: a printable ASCII character by
its place in a table, if there is one, and any other character by a search.

Main results:

- Definitions {lit}`loadFontMem`, {lit}`prepareGlyphForRender` and {lit}`decodeGlyph`: the
  functions of the reader.
- Theorem {lit}`loadFontMem_handle`: what is known of a font that has been loaded.
- Theorem {lit}`loadFontMem_layout`: a font with less than 65536 glyphs that are not in the table
  of ASCII glyphs is loaded.
-/

namespace VialQmk
namespace Painter

open LittleEndian

/-! ## Loading a font -/

/-- {lit}`qff_read_font_descriptor` -/
def readFontDescriptor (s : MemStream) : MemStream × Option FontDescriptor :=
  let data := streamRead 25 (setpos s 0)
  if data.2.length ≠ 25 then (data.1, none)
  else if validateBlockHeader (.read data.2) 0x00 20 = false then (data.1, none)
  else if field 5 3 data.2 ≠ fontMagic ∨ field 8 1 data.2 ≠ 0x01 then (data.1, none)
  else if field 13 4 data.2 ≠ 0xFFFFFFFF - field 9 4 data.2 then (data.1, none)
  else (data.1, some
    { totalFileSize := field 9 4 data.2
      lineHeight := field 17 1 data.2
      hasAsciiTable := data.2.getD 18 0 != 0
      unicodeGlyphCount := field 19 2 data.2
      format := data.2.getD 21 0
      compression := data.2.getD 23 0 })

/-- {lit}`qff_validate_ascii_descriptor` -/
def validateAsciiDescriptor (s : MemStream) : MemStream × Bool :=
  validateBlock 290 0x01 285 s

/-- {lit}`qff_validate_unicode_descriptor` -/
def validateUnicodeDescriptor (numUnicodeGlyphs : ℕ) (s : MemStream) : MemStream × Bool :=
  let block := validateBlock 5 0x02 (numUnicodeGlyphs * 6 : ℕ) s
  if block.2 = false then block
  else (memSeek block.1 (numUnicodeGlyphs * 6 : ℕ) .seekCur, true)

/-- {lit}`qff_validate_stream` -/
def validateFontStream (s : MemStream) : MemStream × Bool :=
  match readFontDescriptor s with
  | (s, none) => (s, false)
  | (s, some descriptor) =>
    let ascii := checkIf descriptor.hasAsciiTable validateAsciiDescriptor s
    if ascii.2 = false then ascii
    else
      checkIf (decide (descriptor.unicodeGlyphCount > 0))
        (validateUnicodeDescriptor descriptor.unicodeGlyphCount) ascii.1

/-- {lit}`qff_get_total_size` -/
def getFontTotalSize (s : MemStream) : MemStream × ℕ :=
  match readFontDescriptor s with
  | (t, none) => (t, 0)
  | (t, some descriptor) => (setpos t s.position, descriptor.totalFileSize)

/-- {lit}`qff_font_handle_t` -/
structure FontHandle where
  stream : MemStream
  lineHeight : ℕ
  hasAsciiTable : Bool
  numUnicodeGlyphs : ℕ
  bpp : ℕ
  hasPalette : Bool
  isPanelNative : Bool
  compressionScheme : UInt8

/-- The handle with the info that {lit}`qp_load_font_internal` reads.  An unknown format leaves
the variables at zero. -/
def FontHandle.readInfo (s : MemStream) : FontHandle :=
  let descriptor := readFontDescriptor s
  let d := descriptor.2.getD ⟨0, 0, false, 0, 0, 0⟩
  let format := (parseFormat d.format).getD (0, false, false)
  { stream := descriptor.1
    lineHeight := d.lineHeight
    hasAsciiTable := d.hasAsciiTable
    numUnicodeGlyphs := d.unicodeGlyphCount
    bpp := format.1
    hasPalette := format.2.1
    isPanelNative := format.2.2
    compressionScheme := d.compression }

/-- {lit}`qp_load_font_mem` with a free slot, for a build that can draw native colors.  A stream
whose length is negative gives nothing, as one without bytes. -/
def loadFontMem (buffer : List UInt8) : Option FontHandle :=
  let length := toInt32 (getFontTotalSize (makeMemoryStream (buffer.take 25))).2
  let valid := validateFontStream (makeMemoryStream (buffer.take length.toNat))
  if valid.2 = false then none else some (.readInfo valid.1)

/-! ## Looking up a glyph -/

namespace FontHandle

variable (h : FontHandle)

/-- The offset of the table of other glyphs. -/
def unicodeStart : ℕ :=
  25 + (if h.hasAsciiTable = true then 290 else 0)

/-- The offset of the data of the glyphs. -/
def dataStart : ℕ :=
  h.unicodeStart
    + (if h.numUnicodeGlyphs > 0 then 5 + h.numUnicodeGlyphs * 6 else 0)
    + (if h.hasPalette = true then 5 + (1 <<< h.bpp) * 3 else 0)
    + 5

end FontHandle

/-- {lit}`qp_stream_setpos` returns a number below zero. -/
def SetposFails (s : MemStream) (offset : ℕ) : Prop :=
  toInt32 offset < 0 ∨ (s.buffer.length : ℤ) < toInt32 offset

instance (s : MemStream) (offset : ℕ) : Decidable (SetposFails s offset) :=
  inferInstanceAs (Decidable (_ ∨ _))

/-- The end of both branches of {lit}`qp_drawtext_prepare_glyph_for_render`, with the width if
there is one -/
def seekToGlyph (h : FontHandle) (value : ℕ) (s : MemStream) : MemStream × Option ℕ :=
  let glyphWidth := value &&& 0x3F
  let glyphOffset := (value &&& 0xFFFFC0) >>> 6
  let dataOffset := h.dataStart + glyphOffset
  if SetposFails s dataOffset then (s, none) else (setpos s dataOffset, some glyphWidth)

/-- The loop in {lit}`qp_drawtext_prepare_glyph_for_render` -/
def searchGlyph (h : FontHandle) (codePoint : ℕ) : ℕ → MemStream → MemStream × Option ℕ
  | 0, s => (s, none)
  | n + 1, s =>
    let glyphInfo := streamRead 6 s
    if glyphInfo.2.length ≠ 6 then (glyphInfo.1, none)
    else if field 0 3 glyphInfo.2 = codePoint then
      seekToGlyph h (field 3 3 glyphInfo.2) glyphInfo.1
    else searchGlyph h codePoint n glyphInfo.1

/-- {lit}`qp_drawtext_prepare_glyph_for_render`: the stream, and the width of the glyph -/
def prepareGlyphForRender (h : FontHandle) (codePoint : ℕ) : MemStream × Option ℕ :=
  if codePoint ≥ 0x20 ∧ codePoint < 0x7F ∧ h.hasAsciiTable = true then
    let glyphInfoOffset := 25 + 5 + (codePoint - 0x20) * 3
    if SetposFails h.stream glyphInfoOffset then (h.stream, none)
    else
      let glyphInfo := streamRead 3 (setpos h.stream glyphInfoOffset)
      if glyphInfo.2.length ≠ 3 then (glyphInfo.1, none)
      else seekToGlyph h (field 0 3 glyphInfo.2) glyphInfo.1
  else
    let glyphInfoOffset := h.unicodeStart + 5
    if SetposFails h.stream glyphInfoOffset then (h.stream, none)
    else searchGlyph h codePoint h.numUnicodeGlyphs (setpos h.stream glyphInfoOffset)

/-- {lit}`qp_font_code_point_handler_drawglyph` with {lit}`qp_internal_appender`, up to the output
callbacks: the palette indices of the pixels, or the bytes of native pixels -/
def decodeGlyph (h : FontHandle) (stream : MemStream) (width : ℕ) : Option (List UInt8) :=
  match prepareInputState (inputState stream) h.compressionScheme with
  | none => none
  | some (next, input) =>
    let pixelCount := width * h.lineHeight
    let decoded :=
      if h.bpp ≤ 8 then decodePalette pixelCount h.bpp next record input []
      else some (sendBytes next record (pixelCount * h.bpp / 8) input [])
    decoded.bind fun res => if res.2.2 = true then some res.2.1 else none

/-! ## The descriptor -/

/-- What is read of a descriptor: the numbers in the bits that they have. -/
def FontDescriptor.read (d : FontDescriptor) : FontDescriptor :=
  { d with
    lineHeight := d.lineHeight % 256
    unicodeGlyphCount := d.unicodeGlyphCount % 65536 }

theorem FontDescriptor.fields {d : FontDescriptor} (hd : d.totalFileSize < 4294967296) :
    field 5 3 d.bytes = fontMagic ∧ field 8 1 d.bytes = 1 ∧
      field 9 4 d.bytes = d.totalFileSize ∧ field 13 4 d.bytes = 0xFFFFFFFF - d.totalFileSize ∧
      field 17 1 d.bytes = d.lineHeight % 256 ∧ field 19 2 d.bytes = d.unicodeGlyphCount % 65536 := by
  have hone : ([1] : List UInt8) = LittleEndian.bytes 1 1 := rfl
  have hheight : [d.lineHeight.toUInt8] = LittleEndian.bytes 1 d.lineHeight := rfl
  have hbyte : d.lineHeight % 256 < 256 ^ 1 := Nat.mod_lt _ (by decide)
  rw [FontDescriptor.bytes, hone, hheight]
  refine ⟨?_, ?_, ?_, ?_, ?_, ?_⟩
  · rw [field_skip 0 (by rfl), field_first (by decide)]
  · rw [field_skip 3 (by rfl), field_skip 0 (by rfl), field_first (by decide)]
  · rw [field_skip 4 (by rfl), field_skip 1 (by rfl), field_skip 0 (by rfl), field_first hd]
  · rw [field_skip 8 (by rfl), field_skip 5 (by rfl), field_skip 4 (by rfl), field_skip 0 (by rfl),
      field_first (Nat.lt_of_le_of_lt (Nat.sub_le _ _) (by decide))]
  · rw [field_skip 12 (by rfl), field_skip 9 (by rfl), field_skip 8 (by rfl), field_skip 4 (by rfl),
      field_skip 0 (by rfl), field, List.drop_zero, List.take_left' (LittleEndian.length_bytes 1 _)]
    exact value_bytes_mod 1 d.lineHeight
  · rw [field_skip 14 (by rfl), field_skip 11 (by rfl), field_skip 10 (by rfl),
      field_skip 6 (by rfl), field_skip 2 (by rfl), field_skip 1 (by rfl), field_skip 0 (by rfl)]
    have hcount : d.unicodeGlyphCount % 65536 < 256 ^ 2 := Nat.mod_lt _ (by decide)
    exact field_first hcount _

/-- The descriptor of a file is read back. -/
theorem readFontDescriptor_bytes {d : FontDescriptor} (hd : d.totalFileSize < 4294967296)
    {s : MemStream} {rest : List UInt8} (hs : s.buffer = d.bytes ++ rest)
    (hlength : s.buffer.length < 2147483648) :
    readFontDescriptor s = (⟨s.buffer, 25, false⟩, some d.read) := by
  rcases FontDescriptor.fields hd with ⟨hmagic, hversion, hsize, hneg, hheight, hcount⟩
  have hahead : (setpos s 0).ahead = d.bytes ++ rest := by
    rw [setpos_of_le (Nat.zero_le _) hlength, MemStream.ahead, List.drop_zero, hs]
  have hread := streamRead_ahead hahead
  have hheader : validateBlockHeader (.read d.bytes) 0x00 20 = true := by
    rw [FontDescriptor.bytes]
    exact validateBlockHeader_blockHeader (Or.inr ⟨rfl, by decide⟩) _
  have hascii : (d.bytes.getD 18 0 != 0) = d.hasAsciiTable := by
    change ((if d.hasAsciiTable = true then (1 : UInt8) else 0) != 0) = _
    cases d.hasAsciiTable <;> rfl
  have hformat : d.bytes.getD 21 0 = d.format := rfl
  have hcompression : d.bytes.getD 23 0 = d.compression := rfl
  rw [FontDescriptor.length_bytes, setpos_of_le (Nat.zero_le _) hlength] at hread
  unfold readFontDescriptor
  dsimp only
  rw [setpos_of_le (Nat.zero_le _) hlength, hread]
  dsimp only
  rw [if_neg (not_not_intro d.length_bytes), if_neg (by rw [hheader]; decide),
    if_neg (by rw [hmagic, hversion]; simp), if_neg (by rw [hneg, hsize]; simp), hsize, hheight,
    hascii, hcount, hformat, hcompression]
  rfl

/-! ## The sizes of the blocks -/

/-- What is known of the format and of the palette. -/
structure FontLayout.Valid (l : FontLayout) : Prop where
  format : l.format ∈ validFormats
  palette : l.format.hasPalette = true → l.palette.length = 2 ^ l.format.bpp
  size : l.bytes.length < 4294967296

theorem parseFormat_valid {format : Format} (h : format ∈ validFormats) :
    ∃ native, parseFormat format.imageFormatByte = some (format.bpp, format.hasPalette, native) := by
  simp only [validFormats, List.mem_cons, List.not_mem_nil, or_false] at h
  rcases h with rfl | rfl | rfl | rfl | rfl | rfl | rfl | rfl | rfl | rfl <;> exact ⟨_, rfl⟩

theorem length_flatMap_of_length {α β : Type} {f : α → List β} {k : ℕ} {xs : List α}
    (h : ∀ x ∈ xs, (f x).length = k) : (xs.flatMap f).length = xs.length * k := by
  rw [List.length_flatMap, List.map_congr_left h, List.map_const', List.sum_replicate_nat]

theorem PlacedGlyph.length_write (g : PlacedGlyph) : (g.write true).length = 6 :=
  rfl

namespace FontLayout

variable (l : FontLayout)

theorem length_asciiTable :
    l.asciiTable.length = if includeAscii l.glyphs = true then 290 else 0 := by
  have hvalues : l.asciiValues.length = 95 := by
    rw [asciiValues, List.length_map, asciiRange, List.length_map, List.length_range']
  unfold asciiTable
  split_ifs
  · rw [List.length_append, length_blockHeader,
      length_flatMap_of_length fun n _ => LittleEndian.length_bytes 3 n, hvalues]
  · rfl

theorem length_unicodeTable : l.unicodeTable.length =
    if l.unicodeGlyphs.length > 0 then 5 + l.unicodeGlyphs.length * 6 else 0 := by
  unfold unicodeTable
  split_ifs
  · rw [List.length_append, length_blockHeader,
      length_flatMap_of_length fun g _ => g.length_write]
  · rfl

variable {l} in
theorem Valid.length_paletteBlock (h : l.Valid) : l.paletteBlock.length =
    if l.format.hasPalette = true then 5 + (1 <<< l.format.bpp) * 3 else 0 := by
  unfold paletteBlock
  split_ifs with hpalette
  · rw [writePalette, List.length_append, length_blockHeader, length_flatMap_rgbBytes,
      h.palette hpalette, Nat.one_shiftLeft, Nat.mul_comm]
  · rfl

theorem length_tables : l.tables.length =
    l.asciiTable.length + (l.unicodeTable.length + (l.paletteBlock.length +
      (5 + l.data.length))) := by
  rw [tables, List.length_append, List.length_append, List.length_append, writeFontData,
    List.length_append, length_blockHeader]

/-- The handle of a font that has been loaded. -/
def handle (stream : MemStream) : FontHandle where
  stream := stream
  lineHeight := l.lineHeight % 256
  hasAsciiTable := includeAscii l.glyphs
  numUnicodeGlyphs := l.unicodeGlyphs.length % 65536
  bpp := l.format.bpp
  hasPalette := l.format.hasPalette
  isPanelNative := ((parseFormat l.format.imageFormatByte).getD (0, false, false)).2.2
  compressionScheme := if l.compressed = true then 0x01 else 0x00

/-- The data are at the end of the file. -/
theorem Valid.dataStart {l : FontLayout} (h : l.Valid) (hcount : l.unicodeGlyphs.length < 65536)
    (stream : MemStream) : (l.handle stream).dataStart + l.data.length = l.bytes.length := by
  rw [length_bytes, length_tables, length_asciiTable, length_unicodeTable, h.length_paletteBlock]
  simp only [FontHandle.dataStart, FontHandle.unicodeStart, handle, Nat.mod_eq_of_lt hcount]
  omega

end FontLayout

/-! ## The file is loaded -/

@[simp]
theorem readFontDescriptor_buffer (s : MemStream) :
    (readFontDescriptor s).1.buffer = s.buffer := by
  unfold readFontDescriptor
  dsimp only
  split_ifs <;> simp

theorem validateUnicodeDescriptor_buffer (n : ℕ) (s : MemStream) :
    (validateUnicodeDescriptor n s).1.buffer = s.buffer := by
  unfold validateUnicodeDescriptor
  dsimp only
  split_ifs
  · exact validateBlock_buffer _ _ _ s
  · rw [memSeek_buffer]
    exact validateBlock_buffer _ _ _ s

/-- The checks do not change what is in the stream. -/
theorem validateFontStream_buffer (s : MemStream) :
    (validateFontStream s).1.buffer = s.buffer := by
  have hdescriptor := readFontDescriptor_buffer s
  unfold validateFontStream
  split
  · rename_i t heq
    rw [heq] at hdescriptor
    exact hdescriptor
  · rename_i t descriptor heq
    rw [heq] at hdescriptor
    have hascii := @checkIf_buffer validateAsciiDescriptor
      (fun s => validateBlock_buffer _ _ _ s) descriptor.hasAsciiTable t
    dsimp only at hdescriptor ⊢
    split_ifs
    · rw [hascii, hdescriptor]
    · rw [checkIf_buffer (validateUnicodeDescriptor_buffer _), hascii, hdescriptor]

section Loading

variable {l : FontLayout} {h : FontHandle} {s : MemStream}

theorem FontLayout.Valid.totalFileSize_lt (hl : l.Valid) :
    l.descriptor.totalFileSize < 4294967296 := by
  have hsize := hl.size
  rwa [FontLayout.length_bytes] at hsize

/-- The size in the descriptor of a file. -/
theorem getFontTotalSize_layout (hl : l.Valid) :
    (getFontTotalSize (makeMemoryStream (l.bytes.take 25))).2 = l.bytes.length := by
  have htake : l.bytes.take 25 = l.descriptor.bytes :=
    List.take_left' (FontDescriptor.length_bytes _)
  unfold getFontTotalSize
  rw [htake, readFontDescriptor_bytes hl.totalFileSize_lt (List.append_nil _).symm,
    FontLayout.length_bytes]
  · rfl
  · change l.descriptor.bytes.length < _
    rw [FontDescriptor.length_bytes]
    decide

/-- No font is in a stream without bytes. -/
theorem validateFontStream_nil : (validateFontStream (makeMemoryStream [])).2 = false := by
  have hshort := length_streamRead_lt (s := setpos (makeMemoryStream []) 0) (n := 25) (by decide)
  unfold validateFontStream readFontDescriptor
  dsimp only
  rw [if_pos hshort.ne]

/-- The handle of a font. -/
theorem readInfo_layout (hl : l.Valid) (hs : s.buffer = l.bytes)
    (hsize : l.bytes.length < 2147483648) :
    FontHandle.readInfo s = l.handle ⟨l.bytes, 25, false⟩ := by
  rcases parseFormat_valid hl.format with ⟨native, hnative⟩
  have hread := @readFontDescriptor_bytes _ hl.totalFileSize_lt s l.tables hs (by rwa [hs])
  have hformat : l.descriptor.read.format = l.format.imageFormatByte := rfl
  unfold FontHandle.readInfo
  rw [hread]
  dsimp only [Option.getD_some]
  rw [hformat, FontLayout.handle, hnative, hs]
  rfl

/-- What is known of a font that has been loaded. -/
theorem loadFontMem_handle (hl : l.Valid) (hload : loadFontMem l.bytes = some h) :
    l.bytes.length < 2147483648 ∧ h = l.handle ⟨l.bytes, 25, false⟩ := by
  unfold loadFontMem at hload
  rw [getFontTotalSize_layout hl] at hload
  have hsize : l.bytes.length < 2147483648 := by
    by_contra hlarge
    have hneg := toInt32_of_le (Nat.le_of_not_lt hlarge) hl.size
    dsimp only at hload
    rw [Int.toNat_of_nonpos hneg.le, List.take_zero, if_pos validateFontStream_nil] at hload
    cases hload
  have hbuffer := validateFontStream_buffer (makeMemoryStream l.bytes)
  dsimp only at hload
  rw [toInt32_of_lt hsize, Int.toNat_natCast, List.take_length, Option.ite_none_left_eq_some,
    Option.some.injEq, readInfo_layout hl hbuffer hsize] at hload
  exact ⟨hsize, hload.2.symm⟩

/-- The bytes that come after the descriptor. -/
theorem FontLayout.ahead_tables (l : FontLayout) :
    MemStream.ahead ⟨l.bytes, 25, false⟩ = l.tables := by
  rw [MemStream.ahead, FontLayout.bytes]
  exact List.drop_left' (FontDescriptor.length_bytes _)

/-- The table of ASCII glyphs is accepted. -/
theorem FontLayout.validateAscii (l : FontLayout) :
    checkIf (includeAscii l.glyphs) validateAsciiDescriptor ⟨l.bytes, 25, false⟩ =
      (⟨l.bytes, 25 + l.asciiTable.length, false⟩, true) := by
  have hahead := l.ahead_tables
  rw [FontLayout.tables] at hahead
  rw [l.length_asciiTable]
  cases hascii : includeAscii l.glyphs with
  | false => rfl
  | true =>
    have hlength := l.length_asciiTable
    rw [hascii, if_pos rfl] at hlength
    rw [checkIf_true, if_pos rfl]
    refine validateBlock_ahead hahead hlength ?_
    rw [FontLayout.asciiTable, if_pos hascii]
    exact validateBlockHeader_blockHeader (Or.inr ⟨rfl, by decide⟩) _

/-- The other table is accepted. -/
theorem FontLayout.validateUnicode {l : FontLayout} (hcount : l.unicodeGlyphs.length < 65536) :
    (checkIf (decide (l.unicodeGlyphs.length > 0))
      (validateUnicodeDescriptor l.unicodeGlyphs.length)
        ⟨l.bytes, 25 + l.asciiTable.length, false⟩).2 = true := by
  have hahead := MemStream.ahead_advance _ (l.ahead_tables)
  rcases Nat.eq_zero_or_pos l.unicodeGlyphs.length with hzero | hpos
  · rw [decide_eq_false (by omega), checkIf_false]
  · rw [decide_eq_true hpos, checkIf_true]
    rw [FontLayout.unicodeTable, if_pos hpos, List.append_assoc] at hahead
    have hblock := @validateBlock_ahead _ _ _ _ 0x02 (l.unicodeGlyphs.length * 6 : ℕ) hahead
      (length_blockHeader _ _) ?_
    · unfold validateUnicodeDescriptor
      change (if (validateBlock 5 0x02 _ (MemStream.advance ⟨l.bytes, 25, false⟩
        l.asciiTable.length)).2 = false then _ else _ : MemStream × Bool).2 = true
      rw [hblock, if_neg (by simp)]
    · have hheader := @validateBlockHeader_blockHeader 0x02 _ (l.unicodeGlyphs.length * 6 : ℕ)
        (Or.inr ⟨rfl, by omega⟩) []
      rwa [List.append_nil] at hheader

/-- A font with less than 65536 glyphs that are not in the table of ASCII glyphs is loaded. -/
theorem loadFontMem_layout (hl : l.Valid) (hcount : l.unicodeGlyphs.length < 65536)
    (hsize : l.bytes.length < 2147483648) :
    loadFontMem l.bytes = some (l.handle ⟨l.bytes, 25, false⟩) := by
  have hread := @readFontDescriptor_bytes _ hl.totalFileSize_lt (makeMemoryStream l.bytes)
    l.tables rfl hsize
  have hvalid : (validateFontStream (makeMemoryStream l.bytes)).2 = true := by
    have hcount' : l.descriptor.read.unicodeGlyphCount = l.unicodeGlyphs.length :=
      Nat.mod_eq_of_lt hcount
    have hascii : l.descriptor.read.hasAsciiTable = includeAscii l.glyphs := rfl
    have hbuffer : (makeMemoryStream l.bytes).buffer = l.bytes := rfl
    unfold validateFontStream
    rw [hread]
    dsimp only
    rw [hascii, hbuffer, l.validateAscii, hcount', if_neg (by simp)]
    exact FontLayout.validateUnicode hcount
  have hbuffer := validateFontStream_buffer (makeMemoryStream l.bytes)
  unfold loadFontMem
  rw [getFontTotalSize_layout hl, toInt32_of_lt hsize]
  dsimp only
  rw [Int.toNat_natCast, List.take_length, hvalid, if_neg (by simp),
    readInfo_layout hl hbuffer hsize]

end Loading

end Painter
end VialQmk
