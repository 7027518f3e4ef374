import Mathlib.Tactic.Common
import VialQmk.Painter.QffPixels

/-!
# Quantum Painter - the glyphs of a font file

Each glyph that the writer has put into a file is found by the reader, with its width and its
pixels, as long as the width has 6 bits, the offset of the data 18 bits, the line height 8 bits and
the number of glyphs in the second table 16 bits.  The writer drops the other bits.

Main results:

- Definition {lit}`GlyphsAgree`: the reader finds each glyph of a font, and no other one.
- Definition {lit}`GlyphsFit`: the numbers of a font have the bits that are stored.
- Theorem {lit}`glyphsAgree_iff`: a file that has been written can be read exactly when they fit.
-/

namespace VialQmk
namespace Painter

open LittleEndian

/-! ## Entries -/

namespace PlacedGlyph

variable (g : PlacedGlyph)

/-- An entry keeps 18 bits of the offset and 6 bits of the width. -/
theorem value_eq : g.value = (g.dataOffset % 262144) <<< 6 + g.w % 64 := by
  have hmask : 0xFFFFC0 = 0x3FFFF <<< 6 := rfl
  have hoffset : g.dataOffset &&& 0x3FFFF = g.dataOffset % 262144 :=
    Nat.and_two_pow_sub_one_eq_mod _ 18
  have hwidth : g.w &&& 0x3F = g.w % 64 := Nat.and_two_pow_sub_one_eq_mod _ 6
  rw [value, hmask, ← Nat.shiftLeft_and_distrib, hoffset, hwidth,
    Nat.shiftLeft_add_eq_or_of_lt (Nat.mod_lt _ (by decide))]

theorem value_lt : g.value < 256 ^ 3 := by
  rw [value_eq, Nat.shiftLeft_eq]
  omega

theorem width_of_value : g.value &&& 0x3F = g.w % 64 := by
  have hmask : g.value &&& 0x3F = g.value % 64 := Nat.and_two_pow_sub_one_eq_mod _ 6
  rw [hmask, value_eq, Nat.shiftLeft_eq]
  omega

theorem offset_of_value : (g.value &&& 0xFFFFC0) >>> 6 = g.dataOffset % 262144 := by
  have hmask : g.value >>> 6 &&& 0x3FFFF = g.value >>> 6 % 262144 :=
    Nat.and_two_pow_sub_one_eq_mod _ 18
  have hshift : 0xFFFFC0 >>> 6 = 0x3FFFF := rfl
  rw [Nat.shiftRight_and_distrib, hshift, hmask, Nat.shiftRight_eq_div_pow, value_eq,
    Nat.shiftLeft_eq]
  omega

theorem write_fields (rest : List UInt8) :
    field 0 3 (g.write true ++ rest) = g.codePoint.val ∧
      field 3 3 (g.write true ++ rest) = g.value := by
  have hcode : g.codePoint.val < 256 ^ 3 := Nat.lt_of_lt_of_le g.codePoint.isLt (by decide)
  rw [write, if_pos rfl, o24_eq, o24_eq, List.append_assoc]
  exact ⟨field_first hcode _, by rw [field_skip 0 (by rfl), field_first g.value_lt]⟩

end PlacedGlyph

/-! ## Seeking -/

section Seeking

variable {h : FontHandle} {s : MemStream} {p : ℕ}

theorem not_setposFails (hp : p ≤ s.buffer.length) (hlength : s.buffer.length < 2147483648) :
    ¬SetposFails s p := by
  rw [SetposFails, toInt32_of_lt (Nat.lt_of_le_of_lt hp hlength)]
  omega

/-- The stream and the width for an entry. -/
theorem seekToGlyph_value (g : PlacedGlyph) (hlength : s.buffer.length < 2147483648)
    (hp : h.dataStart + g.dataOffset % 262144 ≤ s.buffer.length) :
    seekToGlyph h g.value s =
      (⟨s.buffer, h.dataStart + g.dataOffset % 262144, false⟩, some (g.w % 64)) := by
  unfold seekToGlyph
  rw [g.width_of_value, g.offset_of_value]
  dsimp only
  rw [if_neg (not_setposFails hp hlength), setpos_of_le hp hlength]

/-- An entry is read. -/
theorem streamRead_entry {g : PlacedGlyph} {rest : List UInt8}
    (hs : s.ahead = g.write true ++ rest) :
    streamRead 6 s = (s.advance 6, g.write true) ∧ (s.advance 6).ahead = rest := by
  have hread := streamRead_ahead hs
  have hnext := MemStream.ahead_advance _ hs
  rw [PlacedGlyph.length_write] at hread hnext
  exact ⟨hread, hnext⟩

/-- One round of the search. -/
theorem searchGlyph_cons {g : PlacedGlyph} {rest : List UInt8} (codePoint n : ℕ)
    (hs : s.ahead = g.write true ++ rest) :
    searchGlyph h codePoint (n + 1) s =
      if g.codePoint.val = codePoint then seekToGlyph h g.value (s.advance 6)
      else searchGlyph h codePoint n (s.advance 6) := by
  have hfields := g.write_fields []
  rw [List.append_nil] at hfields
  rw [searchGlyph, (streamRead_entry hs).1]
  dsimp only
  rw [if_neg (not_not_intro g.length_write), hfields.1, hfields.2]

/-- A search among entries without the code point. -/
theorem searchGlyph_none {gs : List PlacedGlyph} {rest : List UInt8} {codePoint m : ℕ}
    (hs : s.ahead = gs.flatMap (·.write true) ++ rest) (hm : m ≤ gs.length)
    (hne : ∀ g ∈ gs.take m, g.codePoint.val ≠ codePoint) :
    (searchGlyph h codePoint m s).2 = none := by
  induction m generalizing gs s with
  | zero => rfl
  | succ m ih =>
    cases gs with
    | nil => exact absurd hm (Nat.not_succ_le_zero m)
    | cons g gs =>
      rw [List.flatMap_cons, List.append_assoc] at hs
      rw [searchGlyph_cons codePoint m hs, if_neg (hne g List.mem_cons_self)]
      exact ih (streamRead_entry hs).2 (Nat.le_of_succ_le_succ hm)
        fun g' hg' => hne g' (List.mem_cons_of_mem g hg')

/-- A search for an entry. -/
theorem searchGlyph_some {gs : List PlacedGlyph} {rest : List UInt8} {g : PlacedGlyph} {m : ℕ}
    (hs : s.ahead = gs.flatMap (·.write true) ++ rest) (hg : g ∈ gs.take m)
    (hnodup : (gs.map PlacedGlyph.codePoint).Nodup) :
    ∃ t, t.buffer = s.buffer ∧ searchGlyph h g.codePoint m s = seekToGlyph h g.value t := by
  induction m generalizing gs s with
  | zero => exact absurd hg (by simp)
  | succ m ih =>
    cases gs with
    | nil => exact absurd hg (by simp)
    | cons g' gs =>
      rw [List.flatMap_cons, List.append_assoc] at hs
      rw [List.map_cons, List.nodup_cons] at hnodup
      rw [searchGlyph_cons _ m hs]
      rcases List.mem_cons.mp hg with rfl | hmem
      · rw [if_pos rfl]
        exact ⟨s.advance 6, rfl, rfl⟩
      · have hne : g'.codePoint.val ≠ g.codePoint.val := by
          intro heq
          apply hnodup.1
          rw [Fin.ext heq]
          exact List.mem_map_of_mem (List.mem_of_mem_take hmem)
        rw [if_neg hne]
        exact ih (streamRead_entry hs).2 hmem hnodup.2

end Seeking

/-! ## Looking up a glyph -/

section Lookup

variable {l : FontLayout} {stream : MemStream}

theorem asciiRange_getElem? {k : ℕ} (hk : k < 95) :
    asciiRange[k]? = some (Fin.ofNat 0x110000 (0x20 + k)) := by
  rw [asciiRange, List.getElem?_map, List.getElem?_range' hk, Option.map_some, Nat.one_mul]

/-- What is ahead of an entry in the table of ASCII glyphs. -/
theorem FontLayout.ahead_ascii (hascii : includeAscii l.glyphs = true) {k : ℕ}
    (hk : k ≤ l.asciiValues.length) :
    ∃ rest, MemStream.ahead ⟨l.bytes, 25 + 5 + k * 3, false⟩ =
      (l.asciiValues.drop k).flatMap (LittleEndian.bytes 3) ++ rest := by
  have htables := l.ahead_tables
  rw [FontLayout.tables, FontLayout.asciiTable, if_pos hascii, List.append_assoc] at htables
  have hvalues := MemStream.ahead_advance _ htables
  rw [length_blockHeader] at hvalues
  have hlength : (l.asciiValues.flatMap (LittleEndian.bytes 3)).length =
      l.asciiValues.length * 3 :=
    length_flatMap_of_length fun n _ => LittleEndian.length_bytes 3 n
  have hdrop : MemStream.ahead ⟨l.bytes, 25 + 5 + k * 3, false⟩ =
      (MemStream.ahead (MemStream.advance ⟨l.bytes, 25, false⟩ 5)).drop (k * 3) :=
    List.drop_drop.symm
  refine ⟨l.unicodeTable ++ (l.paletteBlock ++ writeFontData l.data), ?_⟩
  rw [hdrop, hvalues, List.drop_append_of_le_length, drop_flatMap_bytes]
  rw [hlength]
  exact Nat.mul_le_mul_right 3 hk

/-- What is ahead of the entries in the other table. -/
theorem FontLayout.ahead_unicode (l : FontLayout) :
    ∃ rest, MemStream.ahead ⟨l.bytes, (l.handle stream).unicodeStart + 5, false⟩ =
      l.unicodeGlyphs.flatMap (·.write true) ++ rest := by
  have htables := MemStream.ahead_advance _ l.ahead_tables
  have hstart : (l.handle stream).unicodeStart = 25 + l.asciiTable.length := by
    rw [l.length_asciiTable]
    rfl
  rcases Nat.eq_zero_or_pos l.unicodeGlyphs.length with hzero | hpos
  · rw [List.length_eq_zero_iff.mp hzero]
    exact ⟨_, rfl⟩
  · rw [FontLayout.unicodeTable, if_pos hpos, List.append_assoc] at htables
    have hentries := MemStream.ahead_advance _ htables
    rw [length_blockHeader] at hentries
    rw [hstart]
    exact ⟨_, hentries⟩

theorem FontLayout.unicodeStart_le (l : FontLayout) :
    (l.handle stream).unicodeStart + 5 ≤ l.bytes.length := by
  rw [l.length_bytes, l.length_tables, l.length_asciiTable]
  unfold FontHandle.unicodeStart FontLayout.handle
  dsimp only
  omega

theorem mem_unicodeGlyphs {g : PlacedGlyph} :
    g ∈ l.unicodeGlyphs ↔ g ∈ l.glyphs ∧ inAsciiTable (includeAscii l.glyphs) g = false := by
  rw [FontLayout.unicodeGlyphs, (List.perm_insertionSort _ _).mem_iff, notInAsciiTable,
    List.mem_filter]
  simp

theorem nodup_unicodeGlyphs (hnodup : (l.glyphs.map PlacedGlyph.codePoint).Nodup) :
    (l.unicodeGlyphs.map PlacedGlyph.codePoint).Nodup := by
  rw [FontLayout.unicodeGlyphs, ((List.perm_insertionSort _ _).map _).nodup_iff]
  exact hnodup.sublist (List.filter_sublist.map _)

theorem inAsciiTable_iff {ascii : Bool} {g : PlacedGlyph} : inAsciiTable ascii g = true ↔
    (0x20 ≤ g.codePoint.val ∧ g.codePoint.val ≤ 0x7E) ∧ ascii = true := by
  rw [inAsciiTable, Bool.and_eq_true, decide_eq_true_eq]

theorem find?_codePoint {gs : List PlacedGlyph} {g : PlacedGlyph} (hg : g ∈ gs)
    (hnodup : (gs.map PlacedGlyph.codePoint).Nodup) :
    gs.find? (·.codePoint = g.codePoint) = some g := by
  induction gs with
  | nil => exact absurd hg List.not_mem_nil
  | cons g' gs ih =>
    rw [List.map_cons, List.nodup_cons] at hnodup
    rcases List.mem_cons.mp hg with rfl | hmem
    · rw [List.find?_cons_of_pos (by simp)]
    · have hne : g'.codePoint ≠ g.codePoint := by
        intro heq
        rw [heq] at hnodup
        exact hnodup.1 (List.mem_map_of_mem hmem)
      rw [List.find?_cons_of_neg (by simpa using hne), ih hmem hnodup.2]

/-- The value at the place of a code point. -/
theorem asciiValues_getElem? {g : PlacedGlyph} (hg : g ∈ l.glyphs)
    (hnodup : (l.glyphs.map PlacedGlyph.codePoint).Nodup) (hle : 0x20 ≤ g.codePoint.val)
    (hle' : g.codePoint.val ≤ 0x7E) :
    l.asciiValues[g.codePoint.val - 0x20]? = some g.value := by
  have hcode : (Fin.ofNat 0x110000 (0x20 + (g.codePoint.val - 0x20)) : CodePoint) =
      g.codePoint := by
    apply Fin.ext
    rw [Fin.val_ofNat, Nat.add_sub_cancel' hle, Nat.mod_eq_of_lt g.codePoint.isLt]
  rw [FontLayout.asciiValues, List.getElem?_map, asciiRange_getElem? (by omega), hcode,
    Option.map_some, find?_codePoint hg hnodup]
  rfl

@[simp]
theorem FontLayout.handle_stream (l : FontLayout) (stream : MemStream) :
    (l.handle stream).stream = stream :=
  rfl

theorem length_asciiValues (l : FontLayout) : l.asciiValues.length = 95 := by
  rw [FontLayout.asciiValues, List.length_map, asciiRange, List.length_map, List.length_range']

variable (hs : stream.buffer = l.bytes) (hsize : l.bytes.length < 2147483648)
include hs hsize

/-- A glyph in the table of ASCII glyphs. -/
theorem prepare_ascii {g : PlacedGlyph} (hg : g ∈ l.glyphs)
    (hnodup : (l.glyphs.map PlacedGlyph.codePoint).Nodup)
    (hin : inAsciiTable (includeAscii l.glyphs) g = true)
    (hp : (l.handle stream).dataStart + g.dataOffset % 262144 ≤ l.bytes.length) :
    prepareGlyphForRender (l.handle stream) g.codePoint =
      (⟨l.bytes, (l.handle stream).dataStart + g.dataOffset % 262144, false⟩,
        some (g.w % 64)) := by
  rcases inAsciiTable_iff.mp hin with ⟨⟨hle, hle'⟩, hascii⟩
  have hbranch : g.codePoint.val ≥ 0x20 ∧ g.codePoint.val < 0x7F ∧
      (l.handle stream).hasAsciiTable = true := ⟨hle, by omega, hascii⟩
  have hk : g.codePoint.val - 0x20 < l.asciiValues.length := by
    rw [length_asciiValues]
    omega
  have hvalue := asciiValues_getElem? hg hnodup hle hle'
  rcases FontLayout.ahead_ascii hascii hk.le with ⟨rest, hahead⟩
  have hdrop : l.asciiValues.drop (g.codePoint.val - 0x20) =
      g.value :: l.asciiValues.drop (g.codePoint.val - 0x20 + 1) := by
    rw [List.drop_eq_getElem_cons hk]
    rw [List.getElem?_eq_getElem hk, Option.some.injEq] at hvalue
    rw [hvalue]
  rw [hdrop, List.flatMap_cons, List.append_assoc] at hahead
  have hread := streamRead_ahead hahead
  rw [LittleEndian.length_bytes] at hread
  have hentry : 25 + 5 + (g.codePoint.val - 0x20) * 3 ≤ l.bytes.length := by
    have hstart := @FontLayout.unicodeStart_le stream l
    rw [FontHandle.unicodeStart, if_pos hbranch.2.2] at hstart
    omega
  have hfield : field 0 3 (LittleEndian.bytes 3 g.value) = g.value := field_last g.value_lt
  unfold prepareGlyphForRender
  rw [if_pos hbranch, FontLayout.handle_stream]
  dsimp only
  rw [if_neg (not_setposFails (by rwa [hs]) (by rwa [hs])),
    setpos_of_le (by rwa [hs]) (by rwa [hs]), hs, hread]
  dsimp only
  rw [if_neg (not_not_intro (LittleEndian.length_bytes 3 _)), hfield,
    seekToGlyph_value g hsize hp]
  rfl

/-- The search in the other table. -/
theorem prepare_search {codePoint : ℕ} (hbranch : ¬(codePoint ≥ 0x20 ∧ codePoint < 0x7F ∧
      includeAscii l.glyphs = true)) :
    prepareGlyphForRender (l.handle stream) codePoint =
      searchGlyph (l.handle stream) codePoint (l.unicodeGlyphs.length % 65536)
        ⟨l.bytes, (l.handle stream).unicodeStart + 5, false⟩ := by
  have hstart := @FontLayout.unicodeStart_le stream l
  have hascii : (l.handle stream).hasAsciiTable = includeAscii l.glyphs := rfl
  have hcount : (l.handle stream).numUnicodeGlyphs = l.unicodeGlyphs.length % 65536 := rfl
  unfold prepareGlyphForRender
  rw [hascii, if_neg hbranch, FontLayout.handle_stream, hcount]
  dsimp only
  rw [if_neg (not_setposFails (by rwa [hs]) (by rwa [hs])),
    setpos_of_le (by rwa [hs]) (by rwa [hs]), hs]

/-- A glyph in the other table. -/
theorem prepare_unicode {g : PlacedGlyph} (hg : g ∈ l.glyphs)
    (hnodup : (l.glyphs.map PlacedGlyph.codePoint).Nodup)
    (hcount : l.unicodeGlyphs.length < 65536)
    (hin : inAsciiTable (includeAscii l.glyphs) g = false)
    (hp : (l.handle stream).dataStart + g.dataOffset % 262144 ≤ l.bytes.length) :
    prepareGlyphForRender (l.handle stream) g.codePoint =
      (⟨l.bytes, (l.handle stream).dataStart + g.dataOffset % 262144, false⟩,
        some (g.w % 64)) := by
  have hbranch : ¬(g.codePoint.val ≥ 0x20 ∧ g.codePoint.val < 0x7F ∧
      includeAscii l.glyphs = true) := by
    rintro ⟨hle, hlt, hascii⟩
    rw [inAsciiTable_iff.mpr ⟨⟨hle, by omega⟩, hascii⟩] at hin
    cases hin
  rcases @FontLayout.ahead_unicode stream l with ⟨rest, hahead⟩
  have hmem : g ∈ l.unicodeGlyphs.take l.unicodeGlyphs.length := by
    rw [List.take_length]
    exact mem_unicodeGlyphs.mpr ⟨hg, hin⟩
  rcases @searchGlyph_some (l.handle stream) _ _ _ g _ hahead hmem (nodup_unicodeGlyphs hnodup) with
    ⟨t, ht, hsearch⟩
  rw [prepare_search hs hsize hbranch, Nat.mod_eq_of_lt hcount, hsearch,
    seekToGlyph_value g (by rwa [ht]) (by rwa [ht]), ht]

/-- A glyph of the font. -/
theorem prepare_glyph {g : PlacedGlyph} (hg : g ∈ l.glyphs)
    (hnodup : (l.glyphs.map PlacedGlyph.codePoint).Nodup)
    (hcount : l.unicodeGlyphs.length < 65536)
    (hp : (l.handle stream).dataStart + g.dataOffset % 262144 ≤ l.bytes.length) :
    prepareGlyphForRender (l.handle stream) g.codePoint =
      (⟨l.bytes, (l.handle stream).dataStart + g.dataOffset % 262144, false⟩,
        some (g.w % 64)) := by
  cases hin : inAsciiTable (includeAscii l.glyphs) g with
  | true => exact prepare_ascii hs hsize hg hnodup hin hp
  | false => exact prepare_unicode hs hsize hg hnodup hcount hin hp

/-- A code point that is not in the font. -/
theorem prepare_missing {codePoint : ℕ} (hne : ∀ g ∈ l.glyphs, g.codePoint.val ≠ codePoint) :
    (prepareGlyphForRender (l.handle stream) codePoint).2 = none := by
  have hbranch : ¬(codePoint ≥ 0x20 ∧ codePoint < 0x7F ∧ includeAscii l.glyphs = true) := by
    rintro ⟨hle, hlt, hascii⟩
    rw [includeAscii, List.all_eq_true] at hascii
    have hcode : (Fin.ofNat 0x110000 codePoint : CodePoint).val = codePoint := by
      rw [Fin.val_ofNat, Nat.mod_eq_of_lt (by omega)]
    have hmem : Fin.ofNat 0x110000 codePoint ∈ asciiRange := by
      rw [mem_asciiRange, hcode]
      omega
    have hany := hascii _ hmem
    rw [List.any_eq_true] at hany
    rcases hany with ⟨g, hg, heq⟩
    apply hne g hg
    rw [of_decide_eq_true heq, hcode]
  rcases @FontLayout.ahead_unicode stream l with ⟨rest, hahead⟩
  rw [prepare_search hs hsize hbranch]
  apply searchGlyph_none hahead (Nat.mod_le _ _)
  intro g hg
  exact hne g (mem_unicodeGlyphs.mp (List.mem_of_mem_take hg)).1

/-- The last glyph of a table that is too long. -/
theorem prepare_last (hnodup : (l.glyphs.map PlacedGlyph.codePoint).Nodup)
    (hcount : 65536 ≤ l.unicodeGlyphs.length) :
    ∃ g ∈ l.glyphs, (prepareGlyphForRender (l.handle stream) g.codePoint).2 = none := by
  have hmod : l.unicodeGlyphs.length % 65536 < l.unicodeGlyphs.length := by omega
  have hlast : l.unicodeGlyphs.length - 1 < l.unicodeGlyphs.length := by omega
  have hmem := List.getElem_mem hlast
  rcases mem_unicodeGlyphs.mp hmem with ⟨hg, hin⟩
  refine ⟨_, hg, ?_⟩
  have hbranch : ¬(l.unicodeGlyphs[l.unicodeGlyphs.length - 1].codePoint.val ≥ 0x20 ∧
      l.unicodeGlyphs[l.unicodeGlyphs.length - 1].codePoint.val < 0x7F ∧
        includeAscii l.glyphs = true) := by
    rintro ⟨hle, hlt, hascii⟩
    rw [inAsciiTable_iff.mpr ⟨⟨hle, by omega⟩, hascii⟩] at hin
    cases hin
  rcases @FontLayout.ahead_unicode stream l with ⟨rest, hahead⟩
  rw [prepare_search hs hsize hbranch]
  apply searchGlyph_none hahead hmod.le
  intro g hg' heq
  rcases List.mem_take_iff_getElem.mp hg' with ⟨i, hi, rfl⟩
  have hcodes := nodup_unicodeGlyphs hnodup
  rw [List.Nodup, List.pairwise_iff_getElem] at hcodes
  have hne := hcodes i (l.unicodeGlyphs.length - 1) (by rw [List.length_map]; omega)
    (by rw [List.length_map]; omega) (by omega)
  rw [List.getElem_map, List.getElem_map] at hne
  exact hne (Fin.ext heq)

end Lookup

/-! ## Fonts -/

/-- The image data of a font, glyph by glyph. -/
def imageData (lib : FontImaging) (font : Font lib) (format : Format) (useRle : Bool) :
    Option (List (List UInt8)) :=
  (extractGlyphs lib font format).map fun extracted =>
    extracted.2.map (GlyphBytes.used (chosenRle useRle extracted.2))

/-- Each glyph is found with its width, the stream gets to its data, and these are decoded to its
pixels in the font image.  No other code point is found. -/
structure Renders {lib : FontImaging} (font : Font lib) (format : Format)
    (data : List (List UInt8)) (convertedImg : Image) (h : FontHandle) : Prop where
  glyph : ∀ i g, font.glyphData[i]? = some g →
    ∃ s, prepareGlyphForRender h g.codePoint = (s, some g.w) ∧ s.ahead = (data.drop i).flatten ∧
      decodeGlyph h s g.w = some (codesAt format convertedImg g.x 1 g.w font.glyphHeight)
  missing : ∀ codePoint < 4294967296, (∀ g ∈ font.glyphData, g.codePoint.val ≠ codePoint) →
    (prepareGlyphForRender h codePoint).2 = none

/-- The file is loaded, and wherever its stream is, the reader finds the glyphs of the font. -/
def GlyphsAgree (lib : FontImaging) (font : Font lib) (format : Format) (useRle : Bool)
    (file : List UInt8) : Prop :=
  ∃ h, loadFontMem file = some h ∧ ∃ data ∈ imageData lib font format useRle,
    ∃ convertedImg ∈ convertRequestedFormat lib font.image format, ∀ position isEof,
      Renders font format data convertedImg
        { h with stream := { h.stream with position := position, isEof := isEof } }

/-- The code points that are not in the table of ASCII glyphs, which is there if all of the range
are. -/
def otherCodePoints (codePoints : List CodePoint) : List CodePoint :=
  if ∀ n ∈ asciiRange, n ∈ codePoints then codePoints.filter (· ∉ asciiRange) else codePoints

/-- The numbers of a font have the bits that are stored: 8 for the line height, 6 for a width, 18
for an offset, and 16 for the number of glyphs in the second table. -/
structure GlyphsFit (lib : FontImaging) (font : Font lib) (format : Format) (useRle : Bool) :
    Prop where
  height : font.glyphHeight < 256
  width : ∀ g ∈ font.glyphData, g.w < 64
  offset : ∀ data ∈ imageData lib font format useRle, data.dropLast.flatten.length < 262144
  count : (otherCodePoints (font.glyphData.map GlyphInfo.codePoint)).length < 65536

/-! ## What is extracted -/

/-- What tells where a result comes from. -/
theorem map_key_of_mapM {α β : Type} {f : α → Option β} {key : β → α} {xs : List α} {ys : List β}
    (hkey : ∀ x y, f x = some y → key y = x) (h : xs.mapM f = some ys) : ys.map key = xs := by
  have hmap := mapM_eq_some_iff.mp h
  have hlength := congrArg List.length hmap
  rw [List.length_map, List.length_map] at hlength
  apply List.ext_getElem
  · rw [List.length_map, hlength]
  · intro i hi hi'
    have hlt : i < ys.length := by rwa [List.length_map] at hi
    have hsome := List.getElem_of_eq hmap (show i < (xs.map f).length by rwa [List.length_map])
    rw [List.getElem_map, List.getElem_map] at hsome
    rw [List.getElem_map]
    exact hkey _ _ hsome

/-- A palette that is exported has all colors. -/
theorem length_palette {format : Format} {im : Image} (hformat : format ∈ validFormats)
    (hpalette : format.hasPalette = true) {palette : Option (List Rgb)} {bytes : List UInt8}
    (h : convertImageBytes im format = some (palette, bytes)) :
    (palette.getD []).length = 2 ^ format.bpp := by
  have himage : format.imageFormat = .palette ∧ format.numColors = 2 ^ format.bpp := by
    simp only [validFormats, List.mem_cons, List.not_mem_nil, or_false] at hformat
    rcases hformat with rfl | rfl | rfl | rfl | rfl | rfl | rfl | rfl | rfl | rfl
    all_goals first
      | exact ⟨rfl, rfl⟩
      | cases hpalette
  rw [convertImageBytes] at h
  simp only [himage.1, Option.bind_eq_bind, Option.bind_some, Option.ite_none_left_eq_some,
    Option.bind_eq_some_iff, Option.some.injEq, Prod.mk.injEq] at h
  rcases h with ⟨palette', hexport, -, bytes', -, rfl, -⟩
  have hlength := congrArg List.length (mapM_eq_some_iff.mp hexport)
  rw [List.length_map, List.length_map, List.length_range, himage.2] at hlength
  rw [Option.getD_some, ← hlength]

section Extracting

variable {lib : FontImaging} {font : Font lib} {format : Format} {useRle : Bool}
  {convertedImg : Image} {extracted : Option (List Rgb) × List GlyphBytes}

/-- The font image in its format. -/
theorem convertRequestedFormat_spec (hformat : format ∈ validFormats) (im : lib.Source) :
    ∃ convertedImg, convertRequestedFormat lib im format = some convertedImg ∧
      convertedImg.width = lib.width im ∧ convertedImg.height = lib.height im ∧
        IndicesFit format convertedImg := by
  have hrgb := lib.size_convertRgb im
  have hgray := lib.size_grayscale im
  have hsize := lib.size_convertPalette (lib.convertRgb im) format.numColors
  have hindices : format.imageFormat = .palette → IndicesFit format
      (lib.convertPalette (lib.convertRgb im) format.numColors) := by
    intro himage _
    apply lib.palette_lt
    rcases format_cases hformat with ⟨-, -, -, -, hcolors⟩ | rfl | rfl
    · rw [hcolors]
      exact Nat.two_pow_pos _
    · cases himage
    · cases himage
  simp only [validFormats, List.mem_cons, List.not_mem_nil, or_false] at hformat
  rcases hformat with rfl | rfl | rfl | rfl | rfl | rfl | rfl | rfl | rfl | rfl
  · exact ⟨_, rfl, hrgb.1, hrgb.2, fun himage => by cases himage⟩
  · exact ⟨_, rfl, hrgb.1, hrgb.2, fun himage => by cases himage⟩
  · exact ⟨_, rfl, hsize.1.trans hrgb.1, hsize.2.trans hrgb.2, hindices rfl⟩
  · exact ⟨_, rfl, hsize.1.trans hrgb.1, hsize.2.trans hrgb.2, hindices rfl⟩
  · exact ⟨_, rfl, hsize.1.trans hrgb.1, hsize.2.trans hrgb.2, hindices rfl⟩
  · exact ⟨_, rfl, hsize.1.trans hrgb.1, hsize.2.trans hrgb.2, hindices rfl⟩
  · exact ⟨_, rfl, hgray.1, hgray.2, fun himage => by cases himage⟩
  · exact ⟨_, rfl, hgray.1, hgray.2, fun himage => by cases himage⟩
  · exact ⟨_, rfl, hgray.1, hgray.2, fun himage => by cases himage⟩
  · exact ⟨_, rfl, hgray.1, hgray.2, fun himage => by cases himage⟩

/-- The codes of a glyph. -/
def glyphCodes (font : Font lib) (format : Format) (convertedImg : Image) (g : GlyphInfo) :
    List UInt8 :=
  codesAt format convertedImg g.x 1 g.w font.glyphHeight

/-- What has been extracted of a font. -/
structure ExtractedFrom (font : Font lib) (format : Format) (convertedImg : Image)
    (extracted : Option (List Rgb) × List GlyphBytes) : Prop where
  palette : format.hasPalette = true → (extracted.1.getD []).length = 2 ^ format.bpp
  glyphs : extracted.2.map GlyphBytes.glyph = font.glyphData
  uncompressed : ∀ g ∈ extracted.2,
    g.uncompressed = codeBytes format (glyphCodes font format convertedImg g.glyph)
  compressed : ∀ g ∈ extracted.2, compressBytesQmkRle g.uncompressed = some g.compressed
  codes : ∀ g ∈ extracted.2, format.bpp ≤ 8 →
    ∀ c ∈ glyphCodes font format convertedImg g.glyph, c.toNat < 2 ^ format.bpp

theorem extractedFrom (hformat : format ∈ validFormats) (hfont : font.WellFormed)
    (hconvert : convertRequestedFormat lib font.image format = some convertedImg)
    (h : extractGlyphs lib font format = some extracted) :
    ExtractedFrom font format convertedImg extracted := by
  rcases convertRequestedFormat_spec hformat font.image with
    ⟨convertedImg', hconvert', hwidth, hheight, hindices⟩
  rw [hconvert, Option.some.injEq] at hconvert'
  subst hconvert'
  unfold extractGlyphs at h
  rw [hconvert] at h
  simp only [Option.bind_eq_bind, Option.bind_some, Option.bind_eq_some_iff, Option.some.injEq] at h
  rcases h with ⟨image, himage, glyphs, hglyphs, rfl⟩
  have hmap := mapM_eq_some_iff.mp hglyphs
  have hglyph : ∀ g ∈ glyphs, g.glyph ∈ font.glyphData ∧
      ∃ imageBytes, convertImageBytes
        (glyphImage lib convertedImg font.glyphHeight g.glyph) format = some imageBytes ∧
          g.uncompressed = imageBytes.2 ∧ compressBytesQmkRle g.uncompressed = some g.compressed := by
    intro g hg
    have hmem : some g ∈ glyphs.map some := List.mem_map_of_mem hg
    rw [← hmap, List.mem_map] at hmem
    rcases hmem with ⟨info, hinfo, hsome⟩
    simp only [Option.bind_eq_some_iff, Option.some.injEq] at hsome
    rcases hsome with ⟨imageBytes, himageBytes, rleBytes, hrle, rfl⟩
    exact ⟨hinfo, imageBytes, himageBytes, rfl, hrle⟩
  have hcodes : ∀ g ∈ glyphs, ∀ imageBytes, convertImageBytes
      (glyphImage lib convertedImg font.glyphHeight g.glyph) format = some imageBytes →
        imageBytes.2 = codeBytes format (glyphCodes font format convertedImg g.glyph) ∧
          (format.bpp ≤ 8 → ∀ c ∈ glyphCodes font format convertedImg g.glyph,
            c.toNat < 2 ^ format.bpp) := by
    intro g hg imageBytes hbytes
    have hright := hfont.inside g.glyph (hglyph g hg).1
    have hbottom := hfont.height
    rw [← hwidth] at hright
    rw [← hheight] at hbottom
    have hfit := @indicesFit_glyphImage lib _ _ _ _ hindices hright hbottom.le
    have hplace := @codesAt_glyphImage lib format _ _ _ hright hbottom.le
    have hconverted := convertImageBytes_codes hformat hfit hbytes
    have hlt := codesAt_lt hformat hfit
    rw [hplace.1, hplace.2.1, hplace.2.2] at hconverted hlt
    exact ⟨hconverted, hlt⟩
  refine ⟨fun hpalette => length_palette hformat hpalette himage, ?_, ?_, ?_, ?_⟩
  · apply map_key_of_mapM _ hglyphs
    intro info g hsome
    simp only [Option.bind_eq_some_iff, Option.some.injEq] at hsome
    rcases hsome with ⟨-, -, -, -, rfl⟩
    rfl
  · intro g hg
    rcases (hglyph g hg).2 with ⟨imageBytes, hbytes, huncompressed, -⟩
    rw [huncompressed]
    exact (hcodes g hg imageBytes hbytes).1
  · intro g hg
    rcases (hglyph g hg).2 with ⟨-, -, -, hcompressed⟩
    exact hcompressed
  · intro g hg hbpp
    rcases (hglyph g hg).2 with ⟨imageBytes, hbytes, -, -⟩
    exact (hcodes g hg imageBytes hbytes).2 hbpp

/-! ## The layout of a font -/

/-- The numbers of a file that has been written. -/
theorem valid_layoutOf (useRle : Bool) (hformat : format ∈ validFormats)
    (hextracted : ExtractedFrom font format convertedImg extracted)
    (hsize : (layoutOf lib font.glyphHeight format useRle extracted).bytes.length < 4294967296) :
    (layoutOf lib font.glyphHeight format useRle extracted).Valid := by
  refine ⟨hformat, ?_, hsize⟩
  intro hpalette
  rw [layoutOf, List.length_map]
  exact hextracted.palette hpalette

theorem codePoints_layoutOf (useRle : Bool)
    (hextracted : ExtractedFrom font format convertedImg extracted) :
    (layoutOf lib font.glyphHeight format useRle extracted).glyphs.map PlacedGlyph.codePoint =
      font.glyphData.map GlyphInfo.codePoint := by
  rw [layoutOf, map_codePoint_placeFrom, ← hextracted.glyphs, List.map_map]
  rfl

/-- The number of glyphs in the second table. -/
theorem length_unicodeGlyphs_eq (l : FontLayout) :
    l.unicodeGlyphs.length = (otherCodePoints (l.glyphs.map PlacedGlyph.codePoint)).length := by
  have hascii : includeAscii l.glyphs = true ↔
      ∀ n ∈ asciiRange, n ∈ l.glyphs.map PlacedGlyph.codePoint := by
    simp [includeAscii, List.all_eq_true]
  rw [length_unicodeGlyphs, notInAsciiTable, otherCodePoints]
  by_cases hall : ∀ n ∈ asciiRange, n ∈ l.glyphs.map PlacedGlyph.codePoint
  · rw [if_pos hall, List.filter_map, List.length_map, hascii.mpr hall]
    congr 2
    funext g
    have hin : inAsciiTable true g = decide (g.codePoint ∈ asciiRange) := by
      simp [inAsciiTable, mem_asciiRange]
    rw [hin, Function.comp_apply, decide_not]
  · have hfalse : includeAscii l.glyphs = false := by
      rw [← Bool.not_eq_true, hascii]
      exact hall
    rw [if_neg hall, List.length_map, hfalse]
    congr 1
    rw [List.filter_eq_self]
    intro g _
    simp [inAsciiTable]

/-- The offset of a glyph. -/
theorem glyph_layoutOf (useRle : Bool)
    (hextracted : ExtractedFrom font format convertedImg extracted) {i : ℕ} {g : GlyphInfo}
    (hg : font.glyphData[i]? = some g) :
    ∃ e ∈ extracted.2, e.glyph = g ∧ extracted.2[i]? = some e ∧
      (⟨g.codePoint, g.w, ((extracted.2.take i).flatMap
        (GlyphBytes.used (chosenRle useRle extracted.2))).length⟩ : PlacedGlyph) ∈
          (layoutOf lib font.glyphHeight format useRle extracted).glyphs := by
  rw [← hextracted.glyphs, List.getElem?_map, Option.map_eq_some_iff] at hg
  rcases hg with ⟨e, he, rfl⟩
  have hplaced := @placeFrom_getElem? (chosenRle useRle extracted.2) 0 _ _ _ he
  rw [Nat.zero_add] at hplaced
  exact ⟨e, List.mem_of_getElem? he, rfl, he, List.mem_of_getElem? hplaced⟩

end Extracting

/-! ## Both directions -/

section Agreement

variable {lib : FontImaging} {font : Font lib} {format : Format} {useRle : Bool}
  {convertedImg : Image} {extracted : Option (List Rgb) × List GlyphBytes} {l : FontLayout}
  {stream : MemStream}

/-- The data are the end of the file. -/
theorem FontLayout.ahead_data (hl : l.Valid) (hcount : l.unicodeGlyphs.length < 65536)
    (offset : ℕ) : MemStream.ahead ⟨l.bytes, (l.handle stream).dataStart + offset, false⟩ =
      l.data.drop offset := by
  have hstart := hl.dataStart hcount stream
  have hsuffix : l.data <:+ l.bytes := by
    refine ⟨l.descriptor.bytes ++ (l.asciiTable ++ (l.unicodeTable ++ (l.paletteBlock ++
      blockHeader 0x04 l.data.length))), ?_⟩
    rw [FontLayout.bytes, FontLayout.tables, writeFontData]
    simp only [List.append_assoc]
  have hdrop := List.suffix_iff_eq_drop.mp hsuffix
  rw [← hstart, Nat.add_sub_cancel] at hdrop
  rw [MemStream.ahead]
  dsimp only
  rw [← List.drop_drop, ← hdrop]

/-- The offset of a glyph is inside the data. -/
theorem offset_le (useRle : Bool) (glyphs : List GlyphBytes) (i : ℕ) :
    ((glyphs.take i).flatMap (GlyphBytes.used useRle)).length ≤
      (glyphs.flatMap (GlyphBytes.used useRle)).length := by
  conv_rhs => rw [← List.take_append_drop i glyphs, List.flatMap_append, List.length_append]
  exact Nat.le_add_right _ _

/-- The last glyph has the largest offset. -/
theorem offset_le_dropLast (useRle : Bool) {glyphs : List GlyphBytes} {i : ℕ}
    (hi : i < glyphs.length) : ((glyphs.take i).flatMap (GlyphBytes.used useRle)).length ≤
      (glyphs.dropLast.flatMap (GlyphBytes.used useRle)).length := by
  have htake : glyphs.take i = glyphs.dropLast.take i := by
    rw [List.dropLast_eq_take, List.take_take, Nat.min_eq_left (by omega)]
  rw [htake]
  exact offset_le useRle glyphs.dropLast i

theorem dropLast_imageData (useRle : Bool) (glyphs : List GlyphBytes) :
    (glyphs.map (GlyphBytes.used useRle)).dropLast.flatten =
      glyphs.dropLast.flatMap (GlyphBytes.used useRle) := by
  rw [← List.map_dropLast, List.flatMap_def]

/-- A glyph is looked up, with the bits that are stored. -/
theorem prepare_layoutOf
    (hl : l = layoutOf lib font.glyphHeight format useRle extracted) (hvalid : l.Valid)
    (hnodup : (font.glyphData.map GlyphInfo.codePoint).Nodup)
    (hextracted : ExtractedFrom font format convertedImg extracted)
    (hcount : l.unicodeGlyphs.length < 65536) (hsize : l.bytes.length < 2147483648)
    (hs : stream.buffer = l.bytes) {i : ℕ} {g : GlyphInfo} (hg : font.glyphData[i]? = some g) :
    prepareGlyphForRender (l.handle stream) g.codePoint =
      (⟨l.bytes, (l.handle stream).dataStart + ((extracted.2.take i).flatMap
        (GlyphBytes.used (chosenRle useRle extracted.2))).length % 262144, false⟩,
        some (g.w % 64)) := by
  rcases glyph_layoutOf useRle hextracted hg with ⟨e, he, rfl, hei, hmem⟩
  rw [← codePoints_layoutOf useRle hextracted, ← hl] at hnodup
  rw [← hl] at hmem
  have hstart := hvalid.dataStart hcount stream
  have hoffset := offset_le (chosenRle useRle extracted.2) extracted.2 i
  have hdata : l.data = extracted.2.flatMap (GlyphBytes.used (chosenRle useRle extracted.2)) := by
    rw [hl]
    rfl
  rw [← hdata] at hoffset
  have hmod := Nat.mod_le ((extracted.2.take i).flatMap
    (GlyphBytes.used (chosenRle useRle extracted.2))).length 262144
  exact prepare_glyph hs hsize hmem hnodup hcount (by dsimp only; omega)

/-- The data of a glyph are decoded. -/
theorem decodeGlyph_layoutOf (hl : l = layoutOf lib font.glyphHeight format useRle extracted)
    (hformat : format ∈ validFormats)
    (hextracted : ExtractedFrom font format convertedImg extracted)
    (hheight : font.glyphHeight < 256) {e : GlyphBytes} (he : e ∈ extracted.2) {s : MemStream}
    {rest : List UInt8}
    (hs : s.ahead = e.used (chosenRle useRle extracted.2) ++ rest) :
    decodeGlyph (l.handle stream) s e.glyph.w =
      some (glyphCodes font format convertedImg e.glyph) := by
  have hbpp : (l.handle stream).bpp = format.bpp := by
    rw [hl]
    rfl
  have hline : (l.handle stream).lineHeight = font.glyphHeight := by
    rw [hl]
    exact Nat.mod_eq_of_lt hheight
  have hscheme : (l.handle stream).compressionScheme =
      if chosenRle useRle extracted.2 = true then 0x01 else 0x00 := by
    rw [hl]
    rfl
  apply decodeGlyph_eq hformat hbpp _ (hextracted.codes e he) (chosenRle useRle extracted.2) _ hs
  · rw [glyphCodes, length_codesAt hformat, hline]
  · rw [hscheme, ← hextracted.uncompressed e he, encode, GlyphBytes.used]
    split_ifs
    · rw [hextracted.compressed e he, Option.map_some]
    · rfl

theorem codesOfPixel_le {format : Format} (hformat : format ∈ validFormats) :
    codesOfPixel format ≤ 3 := by
  simp only [validFormats, List.mem_cons, List.not_mem_nil, or_false] at hformat
  rcases hformat with rfl | rfl | rfl | rfl | rfl | rfl | rfl | rfl | rfl | rfl <;> decide

theorem codesOfPixel_pos {format : Format} (hformat : format ∈ validFormats) :
    0 < codesOfPixel format := by
  simp only [validFormats, List.mem_cons, List.not_mem_nil, or_false] at hformat
  rcases hformat with rfl | rfl | rfl | rfl | rfl | rfl | rfl | rfl | rfl | rfl <;> decide

theorem length_packed_le (k : ℕ) (codes : List UInt8) : (packed k codes).length ≤ codes.length := by
  rw [packed, List.length_map, List.length_range]
  rcases Nat.eq_zero_or_pos (8 / k) with hzero | hpos
  · rw [hzero, Nat.div_zero]
    exact Nat.zero_le _
  · rcases Nat.eq_zero_or_pos codes.length with hnil | hcodes
    · rw [hnil, Nat.zero_add, Nat.div_eq_of_lt (by omega)]
    · apply Nat.div_le_of_le_mul
      obtain ⟨m, hm⟩ := Nat.exists_eq_succ_of_ne_zero hpos.ne'
      obtain ⟨n, hn⟩ := Nat.exists_eq_succ_of_ne_zero hcodes.ne'
      rw [hm, hn, Nat.succ_mul, Nat.mul_succ]
      omega

/-- The data of a glyph whose numbers fit. -/
theorem length_used_le (hformat : format ∈ validFormats)
    (hextracted : ExtractedFrom font format convertedImg extracted)
    (hheight : font.glyphHeight < 256) (hwidth : ∀ g ∈ font.glyphData, g.w < 64) (useRle : Bool)
    {e : GlyphBytes} (he : e ∈ extracted.2) : (e.used useRle).length ≤ 100000 := by
  have hw : e.glyph.w < 64 := by
    apply hwidth
    rw [← hextracted.glyphs]
    exact List.mem_map_of_mem he
  have hcodes : (glyphCodes font format convertedImg e.glyph).length ≤ 63 * 255 * 3 := by
    rw [glyphCodes, length_codesAt hformat]
    exact Nat.mul_le_mul (Nat.mul_le_mul (by omega) (by omega)) (codesOfPixel_le hformat)
  have huncompressed : e.uncompressed.length ≤ 63 * 255 * 3 := by
    rw [hextracted.uncompressed e he, codeBytes]
    split_ifs
    · exact (length_packed_le _ _).trans hcodes
    · exact hcodes
  have hcompressed := compressBytesQmkRle_length (hextracted.compressed e he)
  rw [GlyphBytes.used]
  split_ifs <;> omega

/-- A file of a font whose numbers fit is one that a stream can have. -/
theorem GlyphsFit.size (h : GlyphsFit lib font format useRle) (hformat : format ∈ validFormats)
    (hextract : extractGlyphs lib font format = some extracted)
    (hextracted : ExtractedFrom font format convertedImg extracted)
    (hl : l = layoutOf lib font.glyphHeight format useRle extracted) (hvalid : l.Valid)
    (hcount : l.unicodeGlyphs.length < 65536) : l.bytes.length < 2147483648 := by
  have hdata : l.data.length ≤ 262144 + 100000 := by
    obtain ⟨data, hd⟩ : ∃ data, data =
      extracted.2.map (GlyphBytes.used (chosenRle useRle extracted.2)) := ⟨_, rfl⟩
    have hoffset := h.offset data (by rw [imageData, hextract, hd]; rfl)
    have hflat : l.data = data.flatten := by
      rw [hl, hd]
      exact List.flatMap_def
    have hlast : ∀ x ∈ data, x.length ≤ 100000 := by
      intro x hx
      rw [hd] at hx
      rcases List.mem_map.mp hx with ⟨e, he, rfl⟩
      exact length_used_le hformat hextracted h.height h.width _ he
    rw [hflat]
    rcases List.eq_nil_or_concat' data with rfl | ⟨before, last, hconcat⟩
    · exact Nat.zero_le _
    · rw [hconcat] at hoffset hlast ⊢
      rw [List.dropLast_concat] at hoffset
      have hle := hlast last (by simp)
      rw [List.flatten_append, List.length_append, List.flatten_singleton]
      omega
  have hpalette : l.paletteBlock.length ≤ 773 := by
    rw [hvalid.length_paletteBlock]
    split_ifs with hhas
    · have hbpp : l.format.bpp ≤ 8 := by
        rcases format_cases hvalid.format with ⟨-, -, hle, -⟩ | heq | heq
        · exact hle
        · rw [heq] at hhas
          cases hhas
        · rw [heq] at hhas
          cases hhas
      have hpow : 2 ^ l.format.bpp ≤ 2 ^ 8 := Nat.pow_le_pow_right (by decide) hbpp
      rw [Nat.one_shiftLeft]
      omega
    · omega
  rw [l.length_bytes, l.length_tables, l.length_asciiTable, l.length_unicodeTable]
  split_ifs <;> omega

/-- The reader finds the glyphs of a font whose numbers fit. -/
theorem GlyphsFit.agree (h : GlyphsFit lib font format useRle) (hformat : format ∈ validFormats)
    (hfont : font.WellFormed) (hextract : extractGlyphs lib font format = some extracted)
    (hconvert : convertRequestedFormat lib font.image format = some convertedImg)
    (hextracted : ExtractedFrom font format convertedImg extracted)
    (hl : l = layoutOf lib font.glyphHeight format useRle extracted) (hvalid : l.Valid) :
    GlyphsAgree lib font format useRle l.bytes := by
  have hcodePoints := codePoints_layoutOf useRle hextracted
  rw [← hl] at hcodePoints
  have hcount : l.unicodeGlyphs.length < 65536 := by
    rw [length_unicodeGlyphs_eq, hcodePoints]
    exact h.count
  have hsize := h.size hformat hextract hextracted hl hvalid hcount
  have himageData : imageData lib font format useRle =
      some (extracted.2.map (GlyphBytes.used (chosenRle useRle extracted.2))) := by
    rw [imageData, hextract]
    rfl
  refine ⟨_, loadFontMem_layout hvalid hcount hsize, _, himageData, _, hconvert, ?_⟩
  intro position isEof
  obtain ⟨stream, hstream⟩ : ∃ stream, stream = (⟨l.bytes, position, isEof⟩ : MemStream) :=
    ⟨_, rfl⟩
  have hs : stream.buffer = l.bytes := by rw [hstream]
  change Renders font format _ convertedImg (l.handle ⟨l.bytes, position, isEof⟩)
  rw [← hstream]
  constructor
  · intro i g hg
    have hprepare := prepare_layoutOf hl hvalid hfont.nodup hextracted hcount hsize hs hg
    rcases glyph_layoutOf useRle hextracted hg with ⟨e, he, rfl, hei, -⟩
    have hdata : l.data =
        extracted.2.flatMap (GlyphBytes.used (chosenRle useRle extracted.2)) := by
      rw [hl]
      rfl
    have hoffset : ((extracted.2.take i).flatMap
        (GlyphBytes.used (chosenRle useRle extracted.2))).length < 262144 := by
      have hlast := h.offset _ himageData
      rw [dropLast_imageData] at hlast
      have hi := (List.getElem?_eq_some_iff.mp hei).1
      exact (offset_le_dropLast _ hi).trans_lt hlast
    have hwidth : e.glyph.w < 64 := h.width _ (List.mem_of_getElem? hg)
    have hahead := @FontLayout.ahead_data _ stream hvalid hcount
      ((extracted.2.take i).flatMap (GlyphBytes.used (chosenRle useRle extracted.2))).length
    rw [hdata, drop_flatMap_take] at hahead
    rw [Nat.mod_eq_of_lt hoffset, Nat.mod_eq_of_lt hwidth] at hprepare
    refine ⟨_, hprepare, ?_, ?_⟩
    · rw [hahead, ← List.map_drop, List.flatMap_def]
    · rcases List.getElem?_eq_some_iff.mp hei with ⟨hi, hei⟩
      rw [List.drop_eq_getElem_cons hi, List.flatMap_cons, hei] at hahead
      exact decodeGlyph_layoutOf hl hformat hextracted h.height he hahead
  · intro codePoint _ hne
    apply prepare_missing hs hsize
    intro g hg
    have hmem : g.codePoint ∈ font.glyphData.map GlyphInfo.codePoint := by
      rw [← hcodePoints]
      exact List.mem_map_of_mem hg
    rcases List.mem_map.mp hmem with ⟨info, hinfo, heq⟩
    rw [← heq]
    exact hne info hinfo

/-- The numbers of a font fit when the reader finds its glyphs. -/
theorem GlyphsAgree.fit (h : GlyphsAgree lib font format useRle l.bytes)
    (hformat : format ∈ validFormats) (hfont : font.WellFormed)
    (hextract : extractGlyphs lib font format = some extracted)
    (hconvert : convertRequestedFormat lib font.image format = some convertedImg)
    (hextracted : ExtractedFrom font format convertedImg extracted)
    (hl : l = layoutOf lib font.glyphHeight format useRle extracted) (hvalid : l.Valid) :
    GlyphsFit lib font format useRle := by
  have hcodePoints := codePoints_layoutOf useRle hextracted
  rw [← hl] at hcodePoints
  rcases h with ⟨handle, hload, data, hdata, convertedImg', hconvert', hrenders⟩
  rw [hconvert, Option.mem_some_iff] at hconvert'
  subst hconvert'
  have himageData : imageData lib font format useRle =
      some (extracted.2.map (GlyphBytes.used (chosenRle useRle extracted.2))) := by
    rw [imageData, hextract]
    rfl
  rw [himageData, Option.mem_some_iff] at hdata
  subst hdata
  rcases loadFontMem_handle hvalid hload with ⟨hsize, rfl⟩
  have hrender := hrenders 0 false
  obtain ⟨stream, hstream⟩ : ∃ stream, stream = (⟨l.bytes, 0, false⟩ : MemStream) := ⟨_, rfl⟩
  have hs : stream.buffer = l.bytes := by rw [hstream]
  change Renders font format _ convertedImg (l.handle ⟨l.bytes, 0, false⟩) at hrender
  rw [← hstream] at hrender
  have hcount : l.unicodeGlyphs.length < 65536 := by
    by_contra hlarge
    rcases prepare_last hs hsize (by rw [hcodePoints]; exact hfont.nodup) (Nat.le_of_not_lt hlarge)
      with ⟨g, hg, hnone⟩
    have hmem : g.codePoint ∈ font.glyphData.map GlyphInfo.codePoint := by
      rw [← hcodePoints]
      exact List.mem_map_of_mem hg
    rcases List.mem_map.mp hmem with ⟨info, hinfo, heq⟩
    rcases List.getElem?_of_mem hinfo with ⟨i, hi⟩
    rcases hrender.glyph i info hi with ⟨s, hprepare, -⟩
    rw [← heq, hprepare] at hnone
    cases hnone
  have hglyph : ∀ i g, font.glyphData[i]? = some g → g.w % 64 = g.w ∧
      ((extracted.2.take i).flatMap
        (GlyphBytes.used (chosenRle useRle extracted.2))).length % 262144 =
        ((extracted.2.take i).flatMap
          (GlyphBytes.used (chosenRle useRle extracted.2))).length ∧
      g.w * font.glyphHeight = g.w * (font.glyphHeight % 256) := by
    intro i g hg
    have hprepare := prepare_layoutOf hl hvalid hfont.nodup hextracted hcount hsize hs hg
    rcases hrender.glyph i g hg with ⟨s, hfound, hahead, hdecode⟩
    rw [hprepare, Prod.mk.injEq, Option.some.injEq] at hfound
    rcases hfound with ⟨rfl, hwidth⟩
    refine ⟨hwidth, ?_, ?_⟩
    · have hoffset := offset_le (chosenRle useRle extracted.2) extracted.2 i
      have hdrop := drop_flatMap_take (GlyphBytes.used (chosenRle useRle extracted.2)) extracted.2 i
      have hdata : l.data =
          extracted.2.flatMap (GlyphBytes.used (chosenRle useRle extracted.2)) := by
        rw [hl]
        rfl
      rw [FontLayout.ahead_data hvalid hcount, hdata, ← List.map_drop, ← List.flatMap_def,
        ← hdrop] at hahead
      have hlength := congrArg List.length hahead
      have hmod := Nat.mod_le ((extracted.2.take i).flatMap
        (GlyphBytes.used (chosenRle useRle extracted.2))).length 262144
      rw [List.length_drop, List.length_drop] at hlength
      omega
    · have hbpp : (l.handle stream).bpp = format.bpp := by
        rw [hl]
        rfl
      have hline : (l.handle stream).lineHeight = font.glyphHeight % 256 := by
        rw [hl]
        rfl
      have hlength := decodeGlyph_length hformat hbpp hdecode
      rw [length_codesAt hformat, hline] at hlength
      exact Nat.eq_of_mul_eq_mul_right (codesOfPixel_pos hformat) hlength
  have hsame : extracted.2.length = font.glyphData.length := by
    rw [← hextracted.glyphs, List.length_map]
  have hpos := List.length_pos_iff.mpr hfont.nonempty
  refine ⟨?_, ?_, ?_, ?_⟩
  · have hfirst := (hglyph 0 _ (List.getElem?_eq_getElem hpos)).2.2
    have hheight := Nat.eq_of_mul_eq_mul_left (hfont.width_pos _ (List.getElem_mem hpos)) hfirst
    rw [hheight]
    exact Nat.mod_lt _ (by decide)
  · intro g hg
    rcases List.getElem?_of_mem hg with ⟨i, hi⟩
    rw [← (hglyph i g hi).1]
    exact Nat.mod_lt _ (by decide)
  · intro data hdata
    rw [himageData, Option.mem_some_iff] at hdata
    have hlast := (hglyph (font.glyphData.length - 1) _
      (List.getElem?_eq_getElem (by omega))).2.1
    rw [← hdata, dropLast_imageData, List.dropLast_eq_take, hsame, ← hlast]
    exact Nat.mod_lt _ (by decide)
  · have hother := length_unicodeGlyphs_eq l
    rw [hcodePoints] at hother
    exact hother.symm.trans_lt hcount

end Agreement

section Files

variable {lib : FontImaging} {img : lib.Source} {includeAsciiGlyphs : Bool}
  {unicodeGlyphs : List CodePoint} {font : Font lib} {format : Format} {useRle : Bool}
  {file : List UInt8}

theorem glyphsFit_of_agree (hformat : format ∈ validFormats)
    (hparse : parseImage lib img includeAsciiGlyphs unicodeGlyphs = some font)
    (hsave : saveToQff lib font format useRle = some file)
    (h : GlyphsAgree lib font format useRle file) : GlyphsFit lib font format useRle := by
  have hfont := parseImage_wellFormed hparse
  rcases saveToQff_eq hsave with ⟨extracted, hextract, rfl, hsize⟩
  rcases convertRequestedFormat_spec hformat font.image with ⟨convertedImg, hconvert, -⟩
  have hextracted := extractedFrom hformat hfont hconvert hextract
  have hvalid := valid_layoutOf useRle hformat hextracted hsize
  exact h.fit hformat hfont hextract hconvert hextracted rfl hvalid

theorem glyphsAgree_of_fit (hformat : format ∈ validFormats)
    (hparse : parseImage lib img includeAsciiGlyphs unicodeGlyphs = some font)
    (hsave : saveToQff lib font format useRle = some file)
    (h : GlyphsFit lib font format useRle) : GlyphsAgree lib font format useRle file := by
  have hfont := parseImage_wellFormed hparse
  rcases saveToQff_eq hsave with ⟨extracted, hextract, rfl, hsize⟩
  rcases convertRequestedFormat_spec hformat font.image with ⟨convertedImg, hconvert, -⟩
  have hextracted := extractedFrom hformat hfont hconvert hextract
  have hvalid := valid_layoutOf useRle hformat hextracted hsize
  exact h.agree hformat hfont hextract hconvert hextracted rfl hvalid

/-- The glyphs of a font file that has been written are found by the reader exactly when the
numbers of the font have the bits that are stored. -/
theorem glyphsAgree_iff (hformat : format ∈ validFormats)
    (hparse : parseImage lib img includeAsciiGlyphs unicodeGlyphs = some font)
    (hsave : saveToQff lib font format useRle = some file) :
    GlyphsAgree lib font format useRle file ↔ GlyphsFit lib font format useRle :=
  ⟨glyphsFit_of_agree hformat hparse hsave, glyphsAgree_of_fit hformat hparse hsave⟩

end Files

/-! ## Two letters -/

/-- An image of one band. -/
def Image.ofBand (width height : ℕ) (bytes : List UInt8) (h : bytes.length = width * height) :
    Image where
  width := width
  height := height
  tobytes _ := bytes
  getpalette := []
  length_tobytes _ := h

/-- {lit}`ImageOps.grayscale` -/
def luma (im : Image) : Image :=
  .ofBand im.width im.height
    (im.pixels.map fun p =>
      ((p.1.toNat * 19595 + p.2.1.toNat * 38470 + p.2.2.toNat * 7471 + 0x8000) >>> 16).toUInt8)
    (by rw [List.length_map, im.length_pixels])

/-- The colors one after the other, as long as there are some left. -/
def adaptive (im : Image) (ncolors : ℕ) : Image where
  width := im.width
  height := im.height
  tobytes _ := im.pixels.map fun p =>
    if im.pixels.dedup.idxOf p < ncolors then (im.pixels.dedup.idxOf p).toUInt8 else 0
  getpalette := (im.pixels.dedup.flatMap rgbBytes ++ List.replicate 768 0).take 768
  length_tobytes _ := by rw [List.length_map, im.length_pixels]

theorem adaptive_lt (im : Image) (ncolors : ℕ) (hpos : 0 < ncolors) :
    ∀ p ∈ (adaptive im ncolors).tobytes .palette, p.toNat < ncolors := by
  intro p hp
  rcases List.mem_map.mp hp with ⟨q, -, rfl⟩
  split_ifs with hlt
  · have hmod := Nat.mod_le (im.pixels.dedup.idxOf q) (2 ^ 8)
    rw [Nat.toUInt8, UInt8.toNat_ofNat']
    omega
  · exact hpos

instance neZero_codePoint : NeZero 0x110000 := ⟨by decide⟩

/-- {lit}`PIL`, with the hue of a gray -/
def pillowFont : FontImaging where
  Source := Image
  Color := Rgb
  decidableEq := inferInstance
  width := Image.width
  height := Image.height
  load := Image.pixel
  grayscale := luma
  convertRgb im := im
  convertPalette := adaptive
  crop := crop
  hsv888 p := (0, 0, max p.1 (max p.2.1 p.2.2))
  size_grayscale _ := ⟨rfl, rfl⟩
  size_convertRgb _ := ⟨rfl, rfl⟩
  size_convertPalette _ _ := ⟨rfl, rfl⟩
  palette_lt := adaptive_lt
  size_crop _ _ _ _ _ _ := ⟨rfl, rfl⟩
  byteAt_crop _ _ _ _ _ _ band _ _ hx hy := byteAt_crop band hx hy

/-- A narrow letter and a wide one, with one row. -/
def letters : Image :=
  .ofBand 3 2 [255, 255, 0, 255, 0, 255] rfl

def lettersFont : Font pillowFont :=
  ⟨letters, [⟨0x41, 0, 1⟩, ⟨0x42, 1, 2⟩], 1⟩

/-- Two letters in a table of their own. -/
theorem glyphsAgree_letters :
    ∃ file, saveToQff pillowFont lettersFont mono2 true = some file ∧
      GlyphsAgree pillowFont lettersFont mono2 true file := by
  have hsome : (saveToQff pillowFont lettersFont mono2 true).isSome = true := by decide +kernel
  rcases Option.isSome_iff_exists.mp hsome with ⟨file, hfile⟩
  have hparse : parseImage pillowFont letters false [0x42, 0x41] = some lettersFont := rfl
  have hoffset : ∀ data ∈ imageData pillowFont lettersFont mono2 true,
      data.dropLast.flatten.length ≤ 1 := by decide +kernel
  have hcount : (otherCodePoints (lettersFont.glyphData.map GlyphInfo.codePoint)).length ≤ 2 := by
    have hspace : ¬∀ n ∈ asciiRange, n ∈ lettersFont.glyphData.map GlyphInfo.codePoint := by
      intro hall
      exact absurd (hall 0x20 (mem_asciiRange.mpr (by decide))) (by decide)
    rw [otherCodePoints, if_neg hspace]
    exact Nat.le_refl 2
  refine ⟨file, hfile, (glyphsAgree_iff (by simp [validFormats]) hparse hfile).mpr ?_⟩
  exact ⟨by decide, by decide, fun data hdata => (hoffset data hdata).trans_lt (by norm_num),
    hcount.trans_lt (by norm_num)⟩

/-- One letter of 64 pixels. -/
def wide : Image :=
  .ofBand 64 2 (255 :: List.replicate 127 0) rfl

def wideFont : Font pillowFont :=
  ⟨wide, [⟨0x41, 0, 64⟩], 1⟩

/-- The width of a letter of 64 pixels is read as none. -/
theorem not_glyphsAgree_wide :
    parseImage pillowFont wide false [0x41] = some wideFont ∧
      ∃ file, saveToQff pillowFont wideFont mono2 true = some file ∧
        ¬GlyphsAgree pillowFont wideFont mono2 true file := by
  have hsome : (saveToQff pillowFont wideFont mono2 true).isSome = true := by decide +kernel
  rcases Option.isSome_iff_exists.mp hsome with ⟨file, hfile⟩
  have hparse : parseImage pillowFont wide false [0x41] = some wideFont := rfl
  refine ⟨hparse, file, hfile, fun h => ?_⟩
  have hwidth := (glyphsFit_of_agree (by simp [validFormats]) hparse hfile h).width _ List.mem_cons_self
  exact absurd hwidth (by decide)

end Painter
end VialQmk
