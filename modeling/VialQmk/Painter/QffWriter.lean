import VialQmk.Painter.QgfWriter
import Mathlib.Data.List.Sort

/-!
# Quantum Painter - the writer of font files

A font is an image with the glyphs side by side, below a row whose first color marks where each
glyph starts.  A font file has a table of the printable ASCII glyphs, which is left out unless all
of them are there, and one of all other glyphs; each entry has the width of a glyph in 6 bits and
the offset of its data in 18 bits.

Main results:

- Definition {lit}`FontImaging`: what is used of the imaging library.
- Definitions {lit}`parseImage` and {lit}`saveToQff`: the functions of the writer.
- Definition {lit}`FontLayout.bytes`: what a font file consists of.
- Theorem {lit}`saveToQff_eq`: the file that is written.
-/

namespace VialQmk
namespace Painter

/-! ## Formats -/

def rgb565 : Format := ⟨.rgb565, 16, false, 65536, 0x08⟩
def mono256 : Format := ⟨.grayscale, 8, false, 256, 0x03⟩
def mono16 : Format := ⟨.grayscale, 4, false, 16, 0x02⟩
def mono4 : Format := ⟨.grayscale, 2, false, 4, 0x01⟩
def mono2 : Format := ⟨.grayscale, 1, false, 2, 0x00⟩

/-- {lit}`valid_formats` -/
def validFormats : List Format :=
  [rgb888, rgb565, pal256, pal16, pal4, pal2, mono256, mono16, mono4, mono2]

/-! ## The imaging library -/

/-- {lit}`PIL`, and what it does to images: an image of a file may have any mode, with colors of
its own. -/
structure FontImaging where
  /-- An image file. -/
  Source : Type
  /-- {lit}`pixels[x, y]` -/
  Color : Type
  decidableEq : DecidableEq Color
  width : Source → ℕ
  height : Source → ℕ
  load : Source → ℕ → ℕ → Color
  /-- {lit}`ImageOps.grayscale(im).convert("RGB")` -/
  grayscale : Source → Image
  /-- {lit}`im.convert("RGB")` -/
  convertRgb : Source → Image
  /-- {lit}`im.convert("P", palette=Image.ADAPTIVE, colors=ncolors)` -/
  convertPalette : Image → ℕ → Image
  crop : Image → Box → Image
  /-- {lit}`rgb_to_hsv` inside {lit}`rgb888_to_qmk_hsv888` -/
  hsv888 : Rgb → Rgb
  size_grayscale : ∀ im, (grayscale im).width = width im ∧ (grayscale im).height = height im
  size_convertRgb : ∀ im, (convertRgb im).width = width im ∧ (convertRgb im).height = height im
  size_convertPalette : ∀ im ncolors, (convertPalette im ncolors).width = im.width ∧
    (convertPalette im ncolors).height = im.height
  palette_lt : ∀ im ncolors, 0 < ncolors →
    ∀ p ∈ (convertPalette im ncolors).tobytes .palette, p.toNat < ncolors
  size_crop : ∀ im box, box.left ≤ box.right → box.right ≤ im.width → box.top ≤ box.bottom →
    box.bottom ≤ im.height → (crop im box).width = box.right - box.left ∧
      (crop im box).height = box.bottom - box.top
  byteAt_crop : ∀ im box, box.left ≤ box.right → box.right ≤ im.width → box.top ≤ box.bottom →
    box.bottom ≤ im.height → ∀ band x y, x < box.right - box.left → y < box.bottom - box.top →
      (crop im box).byteAt band x y = im.byteAt band (box.left + x) (box.top + y)

instance (lib : FontImaging) : DecidableEq lib.Color :=
  lib.decidableEq

/-- {lit}`convert_requested_format`, with {lit}`none` for an error -/
def convertRequestedFormat (lib : FontImaging) (im : lib.Source) (format : Format) :
    Option Image :=
  let valid := match format.imageFormat with
    | .grayscale | .palette => [2, 4, 8, 16, 256]
    | .rgb565 => [65536]
    | .rgb888 => [16777216]
  if format.numColors ∉ valid then none
  else match format.imageFormat with
    | .grayscale => some (lib.grayscale im)
    | .palette => some (lib.convertPalette (lib.convertRgb im) format.numColors)
    | .rgb565 | .rgb888 => some (lib.convertRgb im)

/-! ## The glyphs of an image -/

/-- A character of a string. -/
abbrev CodePoint := Fin 0x110000

/-- {lit}`range(0x20, 0x7F)` -/
def asciiRange : List CodePoint :=
  (List.range' 0x20 95).map (Fin.ofNat 0x110000)

/-- {lit}`_generate_font_glyphs_list` -/
def generateFontGlyphsList (useAscii : Bool) (unicodeGlyphs : List CodePoint) : List CodePoint :=
  ((if useAscii = true then asciiRange else []) ++ unicodeGlyphs).dedup.insertionSort (· ≤ ·)

/-- {lit}`QFFGlyphInfo`, when the image has been parsed -/
structure GlyphInfo where
  codePoint : CodePoint
  x : ℕ
  w : ℕ

/-- {lit}`QFFFont` with an image -/
structure Font (lib : FontImaging) where
  image : lib.Source
  glyphData : List GlyphInfo
  glyphHeight : ℕ

/-- The variables of the loop in {lit}`_parse_image` -/
structure Markers where
  glyphPixelOffsets : List ℕ
  glyphPixelWidths : List ℕ
  lastOffset : ℕ

/-- The body of the loop in {lit}`_parse_image` -/
def Markers.next (isMarker : ℕ → Bool) (s : Markers) (x : ℕ) : Markers :=
  if isMarker x = true then
    ⟨s.glyphPixelOffsets ++ [x], s.glyphPixelWidths ++ [x - s.lastOffset], x⟩
  else s

/-- {lit}`_parse_image`, with {lit}`none` for an error -/
def parseImage (lib : FontImaging) (img : lib.Source) (includeAsciiGlyphs : Bool)
    (unicodeGlyphs : List CodePoint) : Option (Font lib) :=
  let glyphs := generateFontGlyphsList includeAsciiGlyphs unicodeGlyphs
  let width := lib.width img
  -- there is no pixel at the top left
  if width = 0 ∨ lib.height img = 0 then none
  else
    let s := (List.range' 1 (width - 1)).foldl
      (Markers.next fun x => lib.load img x 0 = lib.load img 0 0) ⟨[0], [], 0⟩
    let glyphPixelWidths := s.glyphPixelWidths ++ [width - s.lastOffset]
    if s.glyphPixelOffsets.length ≠ glyphs.length then none
    else some
      { image := img
        glyphData := (glyphs.zip (s.glyphPixelOffsets.zip glyphPixelWidths)).map
          fun g => ⟨g.1, g.2.1, g.2.2⟩
        glyphHeight := lib.height img - 1 }

/-! ## The data of the glyphs -/

/-- {lit}`image_uncompressed_bytes` and {lit}`image_compressed_bytes` of a glyph -/
structure GlyphBytes where
  glyph : GlyphInfo
  uncompressed : List UInt8
  compressed : List UInt8

/-- The image of a glyph. -/
def glyphImage (lib : FontImaging) (convertedImg : Image) (glyphHeight : ℕ) (g : GlyphInfo) :
    Image :=
  lib.crop convertedImg ⟨g.x, 1, g.x + g.w, 1 + glyphHeight⟩

/-- {lit}`_extract_glyphs`: the palette, and the bytes of all glyphs -/
def extractGlyphs (lib : FontImaging) (font : Font lib) (format : Format) :
    Option (Option (List Rgb) × List GlyphBytes) := do
  let convertedImg ← convertRequestedFormat lib font.image format
  let image ← convertImageBytes convertedImg format
  let glyphs ← font.glyphData.mapM fun g => do
    let imageBytes ← convertImageBytes (glyphImage lib convertedImg font.glyphHeight g) format
    let rleBytes ← compressBytesQmkRle imageBytes.2
    some (⟨g, imageBytes.2, rleBytes⟩ : GlyphBytes)
  some (image.1, glyphs)

/-- A glyph with its {lit}`data_offset`. -/
structure PlacedGlyph where
  codePoint : CodePoint
  w : ℕ
  dataOffset : ℕ

/-- The image data that are used of a glyph. -/
def GlyphBytes.used (useRle : Bool) (g : GlyphBytes) : List UInt8 :=
  if useRle = true then g.compressed else g.uncompressed

/-- The loop in {lit}`save_to_qff` that fills {lit}`img_buffer` -/
def fillImgBuffer (useRle : Bool) (glyphs : List GlyphBytes) : List PlacedGlyph × List UInt8 :=
  glyphs.foldl
    (fun s g => (s.1 ++ [⟨g.glyph.codePoint, g.glyph.w, s.2.length⟩], s.2 ++ g.used useRle))
    ([], [])

/-! ## The blocks -/

/-- {lit}`QFFFontDescriptor` -/
structure FontDescriptor where
  totalFileSize : ℕ
  lineHeight : ℕ
  hasAsciiTable : Bool
  unicodeGlyphCount : ℕ
  format : UInt8
  compression : UInt8

/-- {lit}`QFFFontDescriptor.magic` -/
def fontMagic : ℕ := 0x464651

/-- {lit}`QFFFontDescriptor.write`, without flags and with a transparency index of 255.
{lit}`o8` takes the lowest 8 bits of a number. -/
def FontDescriptor.write (d : FontDescriptor) : Option (List UInt8) := do
  let size ← o32 d.totalFileSize
  let negSize ← o32 ((0xFFFFFFFF - d.totalFileSize % 4294967296 : ℕ) : ℤ)
  let count ← o16 ((d.unicodeGlyphCount &&& 0xFFFF : ℕ) : ℤ)
  some (blockHeader 0x00 20 ++ (o24 fontMagic ++ ([1] ++ (size ++ (negSize ++
    ([d.lineHeight.toUInt8] ++ ([if d.hasAsciiTable = true then 1 else 0] ++ (count ++
      ([d.format] ++ ([0x00] ++ ([d.compression] ++ [0xFF])))))))))))

/-- The width and the offset of a glyph as they are written. -/
def PlacedGlyph.value (g : PlacedGlyph) : ℕ :=
  ((g.dataOffset <<< 6) &&& 0xFFFFC0) ||| (g.w &&& 0x3F)

/-- {lit}`QFFGlyphInfo.write` -/
def PlacedGlyph.write (g : PlacedGlyph) (includeCodePoint : Bool) : List UInt8 :=
  (if includeCodePoint = true then o24 g.codePoint else []) ++ o24 g.value

/-- {lit}`QFFAsciiGlyphTableV1.write`, with {lit}`none` if there is no such key -/
def writeAsciiTable (glyphs : List PlacedGlyph) : Option (List UInt8) := do
  let entries ← asciiRange.mapM fun n => glyphs.find? (·.codePoint = n)
  some (blockHeader 0x01 285 ++ entries.flatMap (·.write false))

/-- {lit}`QFFUnicodeGlyphTableV1.write` -/
def writeUnicodeTable (glyphs : List PlacedGlyph) : List UInt8 :=
  blockHeader 0x02 (glyphs.length * 6) ++
    (glyphs.insertionSort (·.codePoint ≤ ·.codePoint)).flatMap (·.write true)

/-- {lit}`QGFFramePaletteDescriptorV1.write` -/
def writePalette (entries : List Rgb) : List UInt8 :=
  blockHeader 0x03 (entries.length * 3) ++ entries.flatMap rgbBytes

/-- {lit}`QFFFontDataDescriptorV1.write` -/
def writeFontData (data : List UInt8) : List UInt8 :=
  blockHeader 0x04 data.length ++ data

/-! ## The file -/

/-- {lit}`include_ascii_glyphs` -/
def includeAscii (glyphs : List PlacedGlyph) : Bool :=
  asciiRange.all fun n => glyphs.any (·.codePoint = n)

/-- The glyphs of the table of ASCII glyphs: all in the range, if they are included. -/
def inAsciiTable (ascii : Bool) (g : PlacedGlyph) : Bool :=
  decide (0x20 ≤ g.codePoint.val ∧ g.codePoint.val ≤ 0x7E) && ascii

/-- {lit}`ascii_table.write`, if required -/
def File.writeAscii (fp : File) (glyphs : List PlacedGlyph) : Option File :=
  if includeAscii glyphs = true then
    (writeAsciiTable (glyphs.filter (inAsciiTable (includeAscii glyphs)))).map fp.write
  else some fp

/-- The glyphs of {lit}`unicode_table` -/
def notInAsciiTable (glyphs : List PlacedGlyph) : List PlacedGlyph :=
  glyphs.filter fun g => !inAsciiTable (includeAscii glyphs) g

/-- {lit}`unicode_table.write`, if required -/
def File.writeUnicode (fp : File) (glyphs : List PlacedGlyph) : File :=
  if 0 < (notInAsciiTable glyphs).length then fp.write (writeUnicodeTable (notInAsciiTable glyphs))
  else fp

/-- {lit}`palette_descriptor.write`, if required -/
def File.writePalette (fp : File) (lib : FontImaging) (format : Format)
    (palette : Option (List Rgb)) : Option File :=
  if format.hasPalette = true then
    palette.map fun entries => fp.write (Painter.writePalette (entries.map lib.hsv888))
  else some fp

/-- What is written after the font descriptor. -/
def writeTables (lib : FontImaging) (format : Format) (palette : Option (List Rgb))
    (glyphs : List PlacedGlyph) (imgBuffer : List UInt8) (fp : File) : Option File := do
  let fp ← fp.writeAscii glyphs
  let fp ← (fp.writeUnicode glyphs).writePalette lib format palette
  some (fp.write (writeFontData imgBuffer))

/-- {lit}`save_to_qff`, with {lit}`none` for an error -/
def saveToQff (lib : FontImaging) (font : Font lib) (format : Format) (useRle : Bool) :
    Option (List UInt8) := do
  let extracted ← extractGlyphs lib font format
  let totalDataSize : ℕ := (extracted.2.map fun g => g.uncompressed.length).sum
  let totalRleDataSize : ℕ := (extracted.2.map fun g => g.compressed.length).sum
  let useRle := if useRle = true then decide (totalRleDataSize < totalDataSize) else useRle
  let placed := fillImgBuffer useRle extracted.2
  let fontDescriptor : FontDescriptor :=
    { totalFileSize := 0
      lineHeight := font.glyphHeight
      hasAsciiTable := includeAscii placed.1
      unicodeGlyphCount := (notInAsciiTable placed.1).length
      format := format.imageFormatByte
      compression := if useRle = true then 0x01 else 0x00 }
  -- a dummy font descriptor, which is written again once the size is known
  let dummy ← fontDescriptor.write
  let fp ← writeTables lib format extracted.1 placed.1 placed.2 ((File.ofContents []).write dummy)
  let descriptor ← { fontDescriptor with totalFileSize := fp.position }.write
  some ((fp.seek 0).write descriptor).contents

/-! ## What a font file consists of -/

/-- The descriptor of a font whose size fits. -/
def FontDescriptor.bytes (d : FontDescriptor) : List UInt8 :=
  blockHeader 0x00 20 ++ (LittleEndian.bytes 3 fontMagic ++ ([1] ++
    (LittleEndian.bytes 4 d.totalFileSize ++ (LittleEndian.bytes 4 (0xFFFFFFFF - d.totalFileSize) ++
      ([d.lineHeight.toUInt8] ++ ([if d.hasAsciiTable = true then 1 else 0] ++
        (LittleEndian.bytes 2 (d.unicodeGlyphCount % 65536) ++ ([d.format] ++ ([0x00] ++
          ([d.compression] ++ [0xFF]))))))))))

@[simp]
theorem FontDescriptor.length_bytes (d : FontDescriptor) : d.bytes.length = 25 := by
  simp [bytes]

theorem FontDescriptor.write_eq (d : FontDescriptor) :
    d.write = if d.totalFileSize < 4294967296 then some d.bytes else none := by
  have hcount : d.unicodeGlyphCount &&& 0xFFFF = d.unicodeGlyphCount % 65536 :=
    Nat.and_two_pow_sub_one_eq_mod _ 16
  by_cases hsize : d.totalFileSize < 4294967296
  · rw [if_pos hsize, write, hcount, Nat.mod_eq_of_lt hsize, o32_natCast hsize,
      o32_natCast (by omega), o16_natCast (Nat.mod_lt _ (by decide)), o24_eq]
    rfl
  · rw [if_neg hsize, write, o32_eq_none (Nat.le_of_not_lt hsize)]
    rfl

/-- A font file. -/
structure FontLayout where
  lineHeight : ℕ
  glyphs : List PlacedGlyph
  format : Format
  palette : List Rgb
  compressed : Bool
  data : List UInt8

namespace FontLayout

variable (l : FontLayout)

/-- The values in the table of ASCII glyphs. -/
def asciiValues : List ℕ :=
  asciiRange.map fun n => ((l.glyphs.find? (·.codePoint = n)).map (·.value)).getD 0

/-- The glyphs of the other table. -/
def unicodeGlyphs : List PlacedGlyph :=
  (notInAsciiTable l.glyphs).insertionSort (·.codePoint ≤ ·.codePoint)

def asciiTable : List UInt8 :=
  if includeAscii l.glyphs = true then
    blockHeader 0x01 285 ++ l.asciiValues.flatMap (LittleEndian.bytes 3)
  else []

def unicodeTable : List UInt8 :=
  if 0 < l.unicodeGlyphs.length then
    blockHeader 0x02 (l.unicodeGlyphs.length * 6) ++ l.unicodeGlyphs.flatMap (·.write true)
  else []

def paletteBlock : List UInt8 :=
  if l.format.hasPalette = true then writePalette l.palette else []

/-- Everything after the descriptor. -/
def tables : List UInt8 :=
  l.asciiTable ++ (l.unicodeTable ++ (l.paletteBlock ++ writeFontData l.data))

def descriptor : FontDescriptor where
  totalFileSize := 25 + l.tables.length
  lineHeight := l.lineHeight
  hasAsciiTable := includeAscii l.glyphs
  unicodeGlyphCount := l.unicodeGlyphs.length
  format := l.format.imageFormatByte
  compression := if l.compressed = true then 0x01 else 0x00

def bytes : List UInt8 :=
  l.descriptor.bytes ++ l.tables

theorem length_bytes : l.bytes.length = 25 + l.tables.length := by
  rw [bytes, List.length_append, FontDescriptor.length_bytes]

end FontLayout

/-! ## The offsets of the glyphs -/

/-- The glyphs with their offsets from some place on. -/
def placeFrom (useRle : Bool) : ℕ → List GlyphBytes → List PlacedGlyph
  | _, [] => []
  | start, g :: gs =>
    ⟨g.glyph.codePoint, g.glyph.w, start⟩ :: placeFrom useRle (start + (g.used useRle).length) gs

theorem fillImgBuffer_eq (useRle : Bool) (glyphs : List GlyphBytes) :
    fillImgBuffer useRle glyphs =
      (placeFrom useRle 0 glyphs, glyphs.flatMap (GlyphBytes.used useRle)) := by
  have hloop : ∀ (glyphs : List GlyphBytes) (placed : List PlacedGlyph) (buffer : List UInt8),
      glyphs.foldl (fun s g => (s.1 ++ [⟨g.glyph.codePoint, g.glyph.w, s.2.length⟩],
        s.2 ++ g.used useRle)) (placed, buffer) =
        (placed ++ placeFrom useRle buffer.length glyphs,
          buffer ++ glyphs.flatMap (GlyphBytes.used useRle)) := by
    intro glyphs
    induction glyphs with
    | nil =>
      intro placed buffer
      rw [placeFrom, List.flatMap_nil, List.append_nil, List.append_nil]
      rfl
    | cons g gs ih =>
      intro placed buffer
      rw [List.foldl_cons, ih, placeFrom, List.flatMap_cons, List.length_append,
        List.append_assoc, List.append_assoc]
      rfl
  exact hloop glyphs [] []

/-- A glyph comes with all bytes from its offset on. -/
theorem placeFrom_getElem? {useRle : Bool} {start i : ℕ} {glyphs : List GlyphBytes} {g : GlyphBytes}
    (hg : glyphs[i]? = some g) : (placeFrom useRle start glyphs)[i]? =
      some ⟨g.glyph.codePoint, g.glyph.w,
        start + ((glyphs.take i).flatMap (GlyphBytes.used useRle)).length⟩ := by
  induction glyphs generalizing start i with
  | nil => cases hg
  | cons g' gs ih =>
    cases i with
    | zero =>
      rw [List.getElem?_cons_zero, Option.some.injEq] at hg
      rw [placeFrom, List.getElem?_cons_zero, hg]
      rfl
    | succ i =>
      rw [List.getElem?_cons_succ] at hg
      rw [placeFrom, List.getElem?_cons_succ, ih hg, List.take_succ_cons, List.flatMap_cons,
        List.length_append, Nat.add_assoc]

theorem map_codePoint_placeFrom (useRle : Bool) (start : ℕ) (glyphs : List GlyphBytes) :
    (placeFrom useRle start glyphs).map PlacedGlyph.codePoint =
      glyphs.map fun g => g.glyph.codePoint := by
  induction glyphs generalizing start with
  | nil => rfl
  | cons g gs ih => rw [placeFrom, List.map_cons, ih, List.map_cons]

/-! ## The file that is written -/

theorem mem_asciiRange {n : CodePoint} : n ∈ asciiRange ↔ 0x20 ≤ n.val ∧ n.val ≤ 0x7E := by
  have hn := n.isLt
  unfold asciiRange
  rw [List.mem_map]
  constructor
  · rintro ⟨m, hm, rfl⟩
    rw [List.mem_range'_1] at hm
    rw [Fin.val_ofNat, Nat.mod_eq_of_lt (by omega)]
    omega
  · intro h
    refine ⟨n.val, List.mem_range'_1.mpr (by omega), Fin.ext ?_⟩
    rw [Fin.val_ofNat, Nat.mod_eq_of_lt hn]

section Writing

variable {lib : FontImaging} {font : Font lib} {format : Format} {useRle : Bool}

/-- The table of the ASCII glyphs. -/
theorem writeAsciiTable_eq {l : FontLayout} {table : List UInt8}
    (hascii : includeAscii l.glyphs = true)
    (h : writeAsciiTable (l.glyphs.filter (inAsciiTable true)) = some table) :
    table = l.asciiTable := by
  unfold writeAsciiTable at h
  rw [Option.bind_eq_bind, Option.bind_eq_some_iff] at h
  rcases h with ⟨entries, hentries, htable⟩
  have hfind : ∀ n ∈ asciiRange, (l.glyphs.filter (inAsciiTable true)).find? (·.codePoint = n) =
      l.glyphs.find? (·.codePoint = n) := by
    intro n hn
    rw [List.find?_filter]
    congr 1
    funext g
    by_cases heq : g.codePoint = n
    · subst heq
      simp [inAsciiTable, mem_asciiRange.mp hn]
    · simp [heq]
  have hvalues : l.asciiValues = entries.map (·.value) := by
    have hmap := mapM_eq_some_iff.mp hentries
    rw [List.map_congr_left hfind] at hmap
    have hval := congrArg (List.map fun g : Option PlacedGlyph => (g.map (·.value)).getD 0) hmap
    rw [List.map_map, List.map_map] at hval
    exact hval
  have hwrite : entries.flatMap (·.write false) =
      (entries.map (·.value)).flatMap (LittleEndian.bytes 3) := by
    rw [List.flatMap_map]
    congr 1
    funext g
    exact o24_eq g.value
  rw [Option.some.injEq] at htable
  rw [← htable, hwrite, FontLayout.asciiTable, if_pos hascii, hvalues]

theorem length_unicodeGlyphs (l : FontLayout) :
    l.unicodeGlyphs.length = (notInAsciiTable l.glyphs).length :=
  List.length_insertionSort _ _

/-- What comes after the descriptor. -/
theorem writeTables_eq {l : FontLayout} {palette : Option (List Rgb)} {fp : File}
    {before : List UInt8} (hpalette : l.palette = (palette.getD []).map lib.hsv888)
    (h : writeTables lib l.format palette l.glyphs l.data (.ofContents before) = some fp) :
    fp = .ofContents (before ++ l.tables) := by
  unfold writeTables at h
  simp only [Option.bind_eq_bind, Option.bind_eq_some_iff] at h
  rcases h with ⟨fp₁, hfp₁, fp₂, hfp₂, hfp⟩
  have hascii : fp₁ = .ofContents (before ++ l.asciiTable) := by
    rw [File.writeAscii] at hfp₁
    by_cases htable : includeAscii l.glyphs = true
    · rw [if_pos htable, Option.map_eq_some_iff] at hfp₁
      rcases hfp₁ with ⟨table, hwrite, rfl⟩
      rw [htable] at hwrite
      rw [writeAsciiTable_eq htable hwrite, File.write_ofContents]
    · rw [if_neg htable, Option.some.injEq] at hfp₁
      rw [← hfp₁, FontLayout.asciiTable, if_neg htable, List.append_nil]
  have hunicode : fp₁.writeUnicode l.glyphs =
      .ofContents (before ++ l.asciiTable ++ l.unicodeTable) := by
    rw [File.writeUnicode, FontLayout.unicodeTable, length_unicodeGlyphs]
    split_ifs
    · rw [hascii, File.write_ofContents]
      rfl
    · rw [hascii, List.append_nil]
  rw [hunicode, File.writePalette] at hfp₂
  have hblock : fp₂ =
      .ofContents (before ++ l.asciiTable ++ l.unicodeTable ++ l.paletteBlock) := by
    by_cases hhas : l.format.hasPalette = true
    · rw [if_pos hhas, Option.map_eq_some_iff] at hfp₂
      rcases hfp₂ with ⟨entries, rfl, rfl⟩
      rw [File.write_ofContents, FontLayout.paletteBlock, if_pos hhas, hpalette]
      rfl
    · rw [if_neg hhas, Option.some.injEq] at hfp₂
      rw [← hfp₂, FontLayout.paletteBlock, if_neg hhas, List.append_nil]
  rw [Option.some.injEq] at hfp
  rw [← hfp, hblock, File.write_ofContents, FontLayout.tables]
  simp only [List.append_assoc]

/-- {lit}`use_rle` after the sizes have been compared -/
def chosenRle (useRle : Bool) (glyphs : List GlyphBytes) : Bool :=
  if useRle = true then
    decide ((glyphs.map fun g => g.compressed.length).sum <
      (glyphs.map fun g => g.uncompressed.length).sum)
  else useRle

/-- The file of a font whose glyphs have been extracted. -/
def layoutOf (lib : FontImaging) (lineHeight : ℕ) (format : Format) (useRle : Bool)
    (extracted : Option (List Rgb) × List GlyphBytes) : FontLayout where
  lineHeight := lineHeight
  glyphs := placeFrom (chosenRle useRle extracted.2) 0 extracted.2
  format := format
  palette := (extracted.1.getD []).map lib.hsv888
  compressed := chosenRle useRle extracted.2
  data := extracted.2.flatMap (GlyphBytes.used (chosenRle useRle extracted.2))

/-- The file that is written. -/
theorem saveToQff_eq {file : List UInt8} (h : saveToQff lib font format useRle = some file) :
    ∃ extracted, extractGlyphs lib font format = some extracted ∧
      file = (layoutOf lib font.glyphHeight format useRle extracted).bytes ∧
      file.length < 4294967296 := by
  unfold saveToQff at h
  simp only [Option.bind_eq_bind, Option.bind_eq_some_iff] at h
  rcases h with ⟨extracted, hextracted, dummy, hdummy, fp, hfp, descriptor, hdescriptor, hfile⟩
  change (FontDescriptor.write _) = some dummy at hdummy
  change writeTables lib format extracted.1
    (fillImgBuffer (chosenRle useRle extracted.2) extracted.2).1
    (fillImgBuffer (chosenRle useRle extracted.2) extracted.2).2 _ = some fp at hfp
  rw [fillImgBuffer_eq] at hdummy hdescriptor hfp
  refine ⟨extracted, hextracted, ?_⟩
  obtain ⟨l, hl⟩ : ∃ l, l = layoutOf lib font.glyphHeight format useRle extracted := ⟨_, rfl⟩
  rw [FontDescriptor.write_eq, Option.ite_none_right_eq_some, Option.some.injEq] at hdummy
  rw [FontDescriptor.write_eq, Option.ite_none_right_eq_some, Option.some.injEq] at hdescriptor
  have hlength : dummy.length = 25 := by rw [← hdummy.2, FontDescriptor.length_bytes]
  rw [File.write_ofContents, List.nil_append] at hfp
  have htables : fp = .ofContents (dummy ++ l.tables) :=
    writeTables_eq (by rw [hl]; rfl) (by rw [hl]; exact hfp)
  have hposition : fp.position = 25 + l.tables.length := by
    rw [htables, File.ofContents, List.length_append, hlength]
  rw [hposition] at hdescriptor
  have hdescriptor' : descriptor = l.descriptor.bytes := by
    rw [← hdescriptor.2, FontLayout.descriptor, length_unicodeGlyphs, hl]
    rfl
  have hover := @File.write_over [] dummy l.tables descriptor
    (by rw [hdescriptor', FontDescriptor.length_bytes, hlength])
  have hcontents : file = l.bytes := by
    rw [Option.some.injEq] at hfile
    rw [← hfile, htables]
    rw [hdescriptor'] at hover ⊢
    exact congrArg File.contents hover
  rw [← hl, hcontents, FontLayout.length_bytes]
  exact ⟨rfl, hdescriptor.1⟩

end Writing

/-! ## What is known of an image with glyphs -/

/-- The glyphs lie side by side below the markers, and no two have the same code point. -/
structure Font.WellFormed {lib : FontImaging} (font : Font lib) : Prop where
  nonempty : font.glyphData ≠ []
  nodup : (font.glyphData.map GlyphInfo.codePoint).Nodup
  width_pos : ∀ g ∈ font.glyphData, 0 < g.w
  inside : ∀ g ∈ font.glyphData, g.x + g.w ≤ lib.width font.image
  height : 1 + font.glyphHeight = lib.height font.image

/-- The glyphs that start before the last marker end there, and it comes before {lit}`x`. -/
structure Markers.Inv (s : Markers) (x : ℕ) : Prop where
  starts : ∃ starts, s.glyphPixelOffsets = starts ++ [s.lastOffset] ∧
    starts.length = s.glyphPixelWidths.length ∧
    ∀ p ∈ starts.zip s.glyphPixelWidths, 0 < p.2 ∧ p.1 + p.2 ≤ s.lastOffset
  lastOffset_lt : s.lastOffset < x

theorem Markers.Inv.next {s : Markers} {x : ℕ} (h : s.Inv x) (isMarker : ℕ → Bool) :
    (s.next isMarker x).Inv (x + 1) := by
  rcases h.starts with ⟨starts, hoffsets, hlength, hstarts⟩
  have hlt := h.lastOffset_lt
  unfold Markers.next
  split_ifs with hmarker
  · refine ⟨⟨s.glyphPixelOffsets, rfl, ?_, ?_⟩, Nat.lt_succ_self x⟩
    · rw [hoffsets, List.length_append, List.length_append, hlength]
      rfl
    · intro p hp
      rw [hoffsets, List.zip_append hlength] at hp
      rcases List.mem_append.mp hp with hold | hnew
      · have hp' := hstarts p hold
        exact ⟨hp'.1, by dsimp only; omega⟩
      · rw [List.zip_cons_cons, List.zip_nil_left, List.mem_singleton] at hnew
        subst hnew
        dsimp only
        omega
  · exact ⟨⟨starts, hoffsets, hlength, hstarts⟩, Nat.lt_succ_of_lt hlt⟩

theorem Markers.Inv.loop {s : Markers} {x : ℕ} (h : s.Inv x) (isMarker : ℕ → Bool) (n : ℕ) :
    ((List.range' x n).foldl (Markers.next isMarker) s).Inv (x + n) := by
  induction n generalizing s x with
  | zero => exact h
  | succ n ih =>
    rw [List.range'_succ, List.foldl_cons, Nat.add_comm n, ← Nat.add_assoc]
    exact ih (h.next isMarker)

theorem markers_init : Markers.Inv ⟨[0], [], 0⟩ 1 :=
  ⟨⟨[], rfl, rfl, nofun⟩, Nat.one_pos⟩

theorem nodup_generateFontGlyphsList (useAscii : Bool) (unicodeGlyphs : List CodePoint) :
    (generateFontGlyphsList useAscii unicodeGlyphs).Nodup :=
  (List.perm_insertionSort _ _).nodup_iff.mpr (List.nodup_dedup _)

/-- An image that has been parsed. -/
theorem parseImage_wellFormed {lib : FontImaging} {img : lib.Source} {includeAsciiGlyphs : Bool}
    {unicodeGlyphs : List CodePoint} {font : Font lib}
    (h : parseImage lib img includeAsciiGlyphs unicodeGlyphs = some font) : font.WellFormed := by
  unfold parseImage at h
  dsimp only at h
  rw [Option.ite_none_left_eq_some, Option.ite_none_left_eq_some, Option.some.injEq] at h
  rcases h with ⟨hsize, hcount, rfl⟩
  rw [not_or] at hsize
  rw [not_not] at hcount
  obtain ⟨s, hs⟩ : ∃ s, s = (List.range' 1 (lib.width img - 1)).foldl
    (Markers.next fun x => lib.load img x 0 = lib.load img 0 0) ⟨[0], [], 0⟩ := ⟨_, rfl⟩
  have hinv : s.Inv (1 + (lib.width img - 1)) := hs ▸ markers_init.loop _ _
  rw [← hs] at hcount
  rcases hinv.starts with ⟨starts, hoffsets, hlength, hstarts⟩
  have hlast := hinv.lastOffset_lt
  have hpairs : ∀ p ∈ s.glyphPixelOffsets.zip (s.glyphPixelWidths ++
      [lib.width img - s.lastOffset]), 0 < p.2 ∧ p.1 + p.2 ≤ lib.width img := by
    intro p hp
    rw [hoffsets, List.zip_append hlength] at hp
    rcases List.mem_append.mp hp with hold | hnew
    · have hp' := hstarts p hold
      omega
    · rw [List.zip_cons_cons, List.zip_nil_left, List.mem_singleton] at hnew
      subst hnew
      dsimp only
      omega
  have hzip : (s.glyphPixelOffsets.zip (s.glyphPixelWidths ++
      [lib.width img - s.lastOffset])).length =
      (generateFontGlyphsList includeAsciiGlyphs unicodeGlyphs).length := by
    rw [List.length_zip, ← hcount, hoffsets, List.length_append, List.length_append, hlength]
    exact Nat.min_self _
  have hmem : ∀ g ∈ ((generateFontGlyphsList includeAsciiGlyphs unicodeGlyphs).zip
      (s.glyphPixelOffsets.zip (s.glyphPixelWidths ++ [lib.width img - s.lastOffset]))).map
        (fun g => (⟨g.1, g.2.1, g.2.2⟩ : GlyphInfo)), 0 < g.w ∧ g.x + g.w ≤ lib.width img := by
    intro g hg
    rcases List.mem_map.mp hg with ⟨p, hp, rfl⟩
    exact hpairs p.2 (List.of_mem_zip hp).2
  rw [← hs]
  refine ⟨?_, ?_, fun g hg => (hmem g hg).1, fun g hg => (hmem g hg).2, ?_⟩
  · intro hnil
    have hlen := congrArg List.length hnil
    rw [List.length_map, List.length_zip, hzip, Nat.min_self, ← hcount, hoffsets,
      List.length_append] at hlen
    exact absurd hlen (Nat.succ_ne_zero _)
  · dsimp only
    rw [List.map_map]
    have hfst : GlyphInfo.codePoint ∘ (fun g : CodePoint × ℕ × ℕ =>
        (⟨g.1, g.2.1, g.2.2⟩ : GlyphInfo)) = Prod.fst := rfl
    rw [hfst, List.map_fst_zip (Nat.le_of_eq hzip.symm)]
    exact nodup_generateFontGlyphsList _ _
  · dsimp only
    omega

end Painter
end VialQmk
