import VialQmk.Painter.QffReader

/-!
# Quantum Painter - the pixels of a glyph

A pixel has a code: the index in the palette or the step of gray that it has in the format, or the
bytes of a native color.  The bytes of an image are the codes of its pixels row by row, several to
a byte where they fit.

Main results:

- Definition {lit}`pixelCode`: the code of a pixel in each format.
- Theorem {lit}`convertImageBytes_codes`: the bytes of an image are those of the codes.
- Theorem {lit}`decodeGlyph_eq`: the reader gets the codes back.
- Theorem {lit}`decodeGlyph_length`: it gets as many as there are pixels in its line height.
-/

namespace VialQmk
namespace Painter

/-! ## Codes -/

/-- The code of a pixel. -/
def pixelCode (format : Format) (im : Image) (x y : ℕ) : List UInt8 :=
  match format.imageFormat with
  | .grayscale => [(rescaleByte (im.byteAt .red x y).toNat (format.numColors - 1)).toUInt8]
  | .palette => [im.byteAt .palette x y]
  | .rgb565 =>
    (rgbTo565 (im.byteAt .red x y).toNat (im.byteAt .green x y).toNat
      (im.byteAt .blue x y).toNat).map Nat.toUInt8
  | .rgb888 => rgbBytes (im.pixel x y)

/-- The codes of a rectangle row by row. -/
def codesAt (format : Format) (im : Image) (left top width height : ℕ) : List UInt8 :=
  (List.range (width * height)).flatMap fun k =>
    pixelCode format im (left + k % width) (top + k / width)

/-- The number of codes of a pixel. -/
def codesOfPixel (format : Format) : ℕ :=
  if format.bpp ≤ 8 then 1 else format.bpp / 8

section Codes

variable {format : Format} {im : Image}

theorem length_pixelCode (hformat : format ∈ validFormats) (x y : ℕ) :
    (pixelCode format im x y).length = codesOfPixel format := by
  simp only [validFormats, List.mem_cons, List.not_mem_nil, or_false] at hformat
  rcases hformat with rfl | rfl | rfl | rfl | rfl | rfl | rfl | rfl | rfl | rfl <;>
    simp [pixelCode, codesOfPixel, rgbBytes, rgbTo565, rgb888, rgb565, pal256, pal16, pal4, pal2,
      mono256, mono16, mono4, mono2]

theorem length_codesAt (hformat : format ∈ validFormats) (left top width height : ℕ) :
    (codesAt format im left top width height).length =
      width * height * codesOfPixel format := by
  rw [codesAt, length_flatMap_of_length fun k _ => length_pixelCode hformat _ _, List.length_range]

/-- The bytes of a band, pixel by pixel. -/
theorem Image.tobytes_eq (im : Image) (band : Band) :
    im.tobytes band = (List.range (im.width * im.height)).map fun k =>
      im.byteAt band (k % im.width) (k / im.width) := by
  apply List.ext_getElem
  · rw [im.length_tobytes, List.length_map, List.length_range]
  · intro k hk _
    rw [List.getElem_map, List.getElem_range, Image.byteAt, Nat.div_add_mod',
      List.getD_eq_getElem?_getD, List.getElem?_eq_getElem hk, Option.getD_some]

theorem Image.byteAt_mem (im : Image) (band : Band) {x y : ℕ} (hx : x < im.width)
    (hy : y < im.height) : im.byteAt band x y ∈ im.tobytes band := by
  have hlength : y * im.width + x < (im.tobytes band).length := by
    rw [im.length_tobytes]
    exact index_lt hx hy
  rw [byteAt, List.getD_eq_getElem?_getD, List.getElem?_eq_getElem hlength, Option.getD_some]
  exact List.getElem_mem hlength

theorem rgbPixels_codes (im : Image) :
    rgbPixels im = (List.range (im.width * im.height)).map fun k =>
      ((im.byteAt .red (k % im.width) (k / im.width)).toNat,
        (im.byteAt .green (k % im.width) (k / im.width)).toNat,
        (im.byteAt .blue (k % im.width) (k / im.width)).toNat) := by
  rw [rgbPixels, im.tobytes_eq .red, im.tobytes_eq .green, im.tobytes_eq .blue]
  simp only [List.zipWith_map, List.zipWith_self]

/-- The codes of a whole image, when each pixel has one. -/
theorem codesAt_map {band : Band} {value : UInt8 → UInt8}
    (h : ∀ x y, pixelCode format im x y = [value (im.byteAt band x y)]) :
    codesAt format im 0 0 im.width im.height = (im.tobytes band).map value := by
  rw [codesAt, im.tobytes_eq, List.map_map]
  simp only [h, Nat.zero_add]
  rw [← List.map_eq_flatMap]
  rfl

end Codes

/-! ## The bytes of an image -/

theorem rescaleByte_le {val maxval : ℕ} (h : val < 256) : rescaleByte val maxval ≤ maxval := by
  have hmul : 2 * val * maxval ≤ 510 * maxval := Nat.mul_le_mul_right _ (by omega)
  unfold rescaleByte
  omega

section Bytes

variable {k : ℕ} {value : UInt8 → ℕ} {pixels : List UInt8}

/-- Values that fit are packed as codes. -/
theorem map_packByte_codes (hk : 0 < k) (hk' : k ≤ 8) (hvalue : ∀ p ∈ pixels, value p < 2 ^ k)
    (count : ℕ) :
    (List.range count).map (packByte value (8 / k) k pixels) = (List.range count).map fun x =>
      Nat.ofDigits (2 ^ k)
        ((((pixels.map fun p => (value p).toUInt8).drop (x * (8 / k))).take (8 / k)).map
          UInt8.toNat) := by
  have hbyte : 2 ^ k ≤ 256 := Nat.pow_le_pow_right (by decide) hk'
  apply List.map_congr_left
  intro x _
  have hloop := @packLoop_eq k value (pixels.drop (x * (8 / k))) hk
    (fun p hmem => hvalue p (List.mem_of_mem_drop hmem)) (8 / k)
  simp only [List.getElem?_drop] at hloop
  rw [packByte, hloop, ← List.map_drop, ← List.map_take, List.map_map]
  congr 1
  apply List.map_congr_left
  intro p hmem
  have hlt := hvalue p (List.mem_of_mem_drop (List.mem_of_mem_take hmem))
  rw [Function.comp_apply, Nat.toUInt8, UInt8.toNat_ofNat', Nat.mod_eq_of_lt (by omega)]

/-- The bytes that are packed of values that fit. -/
theorem toBytes_packByte (hk : 0 < k) (hk' : k ≤ 8) (hvalue : ∀ p ∈ pixels, value p < 2 ^ k)
    {bytes : List UInt8}
    (h : toBytes ((List.range ((pixels.length + (8 / k - 1)) / (8 / k))).map
      (packByte value (8 / k) k pixels)) = some bytes) :
    bytes = packed k (pixels.map fun p => (value p).toUInt8) := by
  have hbyte : 2 ^ k ≤ 256 := Nat.pow_le_pow_right (by decide) hk'
  have hcodes : ∀ c ∈ pixels.map (fun p => (value p).toUInt8), c.toNat < 2 ^ k := by
    intro c hc
    rcases List.mem_map.mp hc with ⟨p, hp, rfl⟩
    have hlt := hvalue p hp
    rwa [Nat.toUInt8, UInt8.toNat_ofNat', Nat.mod_eq_of_lt (by omega)]
  rw [map_packByte_codes hk hk' hvalue, toBytes_ofDigits hk hcodes, Option.some.injEq] at h
  rw [← h, packed, List.length_map]

end Bytes

/-- The palette indices of an image are some of its format. -/
def IndicesFit (format : Format) (im : Image) : Prop :=
  format.imageFormat = .palette → ∀ p ∈ im.tobytes .palette, p.toNat < format.numColors

/-- What a format is: several codes to a byte, or some bytes for a pixel. -/
theorem format_cases {format : Format} (h : format ∈ validFormats) :
    (format.imageFormat = .grayscale ∨ format.imageFormat = .palette) ∧ 0 < format.bpp ∧
        format.bpp ≤ 8 ∧ 0 < 8 / format.bpp ∧ format.numColors = 2 ^ format.bpp ∨
      format = rgb565 ∨ format = rgb888 := by
  simp only [validFormats, List.mem_cons, List.not_mem_nil, or_false] at h
  rcases h with rfl | rfl | rfl | rfl | rfl | rfl | rfl | rfl | rfl | rfl
  · right; right; rfl
  · right; left; rfl
  all_goals
    left
    decide

theorem toBytes_eq_some {ns : List ℕ} {bytes : List UInt8} (h : toBytes ns = some bytes) :
    bytes = ns.map Nat.toUInt8 := by
  rw [toBytes, Option.ite_none_right_eq_some, Option.some.injEq] at h
  exact h.2.symm

/-- The bytes of native colors. -/
theorem convertImageBytes_native {format : Format} {im : Image} {native : ℕ × ℕ × ℕ → List ℕ}
    (hnative : native = if format.imageFormat = .rgb565 then fun p => rgbTo565 p.1 p.2.1 p.2.2
      else fun p => [p.1, p.2.1, p.2.2])
    (hformat : format.imageFormat = .rgb565 ∨ format.imageFormat = .rgb888)
    {palette : Option (List Rgb)} {bytes : List UInt8}
    (h : convertImageBytes im format = some (palette, bytes)) :
    bytes = (rgbPixels im).flatMap fun p => (native p).map Nat.toUInt8 := by
  rw [convertImageBytes] at h
  rcases hformat with himage | himage
  · rw [hnative, if_pos himage, ← List.map_flatMap]
    simp only [himage, Option.bind_eq_bind, Option.bind_some, Option.ite_none_left_eq_some,
      Option.bind_eq_some_iff, Option.some.injEq, Prod.mk.injEq] at h
    rcases h with ⟨-, bytes', hbytes, -, rfl⟩
    exact toBytes_eq_some hbytes
  · rw [hnative, if_neg (by rw [himage]; decide), ← List.map_flatMap]
    simp only [himage, Option.bind_eq_bind, Option.bind_some, Option.ite_none_left_eq_some,
      Option.bind_eq_some_iff, Option.some.injEq, Prod.mk.injEq] at h
    rcases h with ⟨-, bytes', hbytes, -, rfl⟩
    exact toBytes_eq_some hbytes

/-- The bytes of an image are those of the codes. -/
theorem convertImageBytes_codes {format : Format} {im : Image} (hformat : format ∈ validFormats)
    (hindices : IndicesFit format im) {palette : Option (List Rgb)} {bytes : List UInt8}
    (h : convertImageBytes im format = some (palette, bytes)) :
    bytes = if format.bpp ≤ 8 then packed format.bpp (codesAt format im 0 0 im.width im.height)
      else codesAt format im 0 0 im.width im.height := by
  rcases format_cases hformat with ⟨himage, hk, hk', hm, hcolors⟩ | rfl | rfl
  · rw [if_pos hk']
    rw [convertImageBytes, hcolors, Nat.log_pow Nat.one_lt_two] at h
    rcases himage with himage | himage
    · have hvalue : ∀ p ∈ im.tobytes .red,
          rescaleByte p.toNat (2 ^ format.bpp - 1) < 2 ^ format.bpp := by
        intro p _
        have hle := @rescaleByte_le _ (2 ^ format.bpp - 1) p.toNat_lt
        have hpos := Nat.two_pow_pos format.bpp
        omega
      have hcodes := @codesAt_map format im .red
        (fun p => (rescaleByte p.toNat (format.numColors - 1)).toUInt8)
        (fun x y => by rw [pixelCode, himage])
      simp only [himage, Option.bind_eq_bind, Option.bind_some, List.length_map, List.length_range,
        ne_eq, hm.ne', not_false_eq_true, not_true_eq_false, if_true, if_false,
        Option.bind_eq_some_iff, Option.some.injEq, Prod.mk.injEq] at h
      rcases h with ⟨bytes', hbytes, -, rfl⟩
      rw [← im.length_tobytes .red] at hbytes
      rw [toBytes_packByte hk hk' hvalue hbytes, hcodes, hcolors]
    · have hvalue : ∀ p ∈ im.tobytes .palette,
          p.toNat &&& (2 ^ format.bpp - 1) < 2 ^ format.bpp := by
        intro p _
        rw [Nat.and_two_pow_sub_one_eq_mod]
        exact Nat.mod_lt _ (Nat.two_pow_pos _)
      have hcodes := @codesAt_map format im .palette id
        (fun x y => by rw [pixelCode, himage]; rfl)
      have hsame : (im.tobytes .palette).map
          (fun p => (p.toNat &&& (2 ^ format.bpp - 1)).toUInt8) = (im.tobytes .palette).map id := by
        apply List.map_congr_left
        intro p hp
        have hlt := hindices himage p hp
        rw [hcolors] at hlt
        rw [Nat.and_two_pow_sub_one_eq_mod, Nat.mod_eq_of_lt hlt, id_eq]
        exact UInt8.ofNat_toNat
      simp only [himage, Option.bind_eq_bind, Option.bind_some, List.length_map, List.length_range,
        ne_eq, hm.ne', not_false_eq_true, not_true_eq_false, if_true, if_false,
        Option.bind_eq_some_iff, Option.some.injEq, Prod.mk.injEq] at h
      rcases h with ⟨palette', -, bytes', hbytes, -, rfl⟩
      rw [← im.length_tobytes .palette] at hbytes
      rw [toBytes_packByte hk hk' hvalue hbytes, hcodes, hsame]
  · have hcodes : (rgbPixels im).flatMap (fun p => (rgbTo565 p.1 p.2.1 p.2.2).map Nat.toUInt8) =
        codesAt rgb565 im 0 0 im.width im.height := by
      rw [rgbPixels_codes, List.flatMap_map, codesAt]
      simp only [Nat.zero_add]
      rfl
    rw [if_neg (by decide), ← hcodes]
    exact convertImageBytes_native rfl (Or.inl rfl) h
  · have hcodes : (rgbPixels im).flatMap (fun p => [p.1, p.2.1, p.2.2].map Nat.toUInt8) =
        codesAt rgb888 im 0 0 im.width im.height := by
      have hid : ∀ c : UInt8, c.toNat.toUInt8 = c := fun c => UInt8.ofNat_toNat
      rw [rgbPixels_codes, List.flatMap_map, codesAt]
      simp only [Nat.zero_add, List.map_cons, List.map_nil, hid]
      rfl
    rw [if_neg (by decide), ← hcodes]
    exact convertImageBytes_native rfl (Or.inr rfl) h

/-- Codes that are packed fit. -/
theorem codesAt_lt {format : Format} {im : Image} (hformat : format ∈ validFormats)
    (hindices : IndicesFit format im) (hbpp : format.bpp ≤ 8) :
    ∀ c ∈ codesAt format im 0 0 im.width im.height, c.toNat < 2 ^ format.bpp := by
  rcases format_cases hformat with ⟨himage, -, -, -, hcolors⟩ | rfl | rfl
  · rcases himage with himage | himage
    · rw [@codesAt_map format im .red
        (fun p => (rescaleByte p.toNat (format.numColors - 1)).toUInt8)
        fun x y => by rw [pixelCode, himage]]
      intro c hc
      rcases List.mem_map.mp hc with ⟨p, -, rfl⟩
      have hle := @rescaleByte_le _ (format.numColors - 1) p.toNat_lt
      have hpos := Nat.two_pow_pos format.bpp
      have hmod := Nat.mod_le (rescaleByte p.toNat (format.numColors - 1)) (2 ^ 8)
      rw [Nat.toUInt8, UInt8.toNat_ofNat']
      omega
    · rw [@codesAt_map format im .palette id fun x y => by rw [pixelCode, himage]; rfl,
        List.map_id]
      intro c hc
      have hlt := hindices himage c hc
      rwa [hcolors] at hlt
  · exact absurd hbpp (by decide)
  · exact absurd hbpp (by decide)

/-! ## The image of a glyph -/

section Glyph

variable {lib : FontImaging} {format : Format} {im : Image} {g : GlyphInfo} {glyphHeight : ℕ}

/-- The codes of a glyph are those of the font image at its place. -/
theorem codesAt_glyphImage (hright : g.x + g.w ≤ im.width) (hbottom : 1 + glyphHeight ≤ im.height) :
    (glyphImage lib im glyphHeight g).width = g.w ∧
      (glyphImage lib im glyphHeight g).height = glyphHeight ∧
        codesAt format (glyphImage lib im glyphHeight g) 0 0 g.w glyphHeight =
          codesAt format im g.x 1 g.w glyphHeight := by
  have hsize := lib.size_crop im ⟨g.x, 1, g.x + g.w, 1 + glyphHeight⟩ (Nat.le_add_right _ _) hright
    (Nat.le_add_right _ _) hbottom
  have hbyte := lib.byteAt_crop im ⟨g.x, 1, g.x + g.w, 1 + glyphHeight⟩ (Nat.le_add_right _ _)
    hright (Nat.le_add_right _ _) hbottom
  dsimp only at hsize hbyte
  rw [Nat.add_sub_cancel_left, Nat.add_sub_cancel_left] at hsize hbyte
  refine ⟨hsize.1, hsize.2, ?_⟩
  unfold codesAt
  apply List.flatMap_congr
  intro k hk
  have hlt := List.mem_range.mp hk
  have hpos : 0 < g.w := Nat.pos_of_mul_pos_right (Nat.lt_of_le_of_lt (Nat.zero_le k) hlt)
  have hcolumn : k % g.w < g.w := Nat.mod_lt k hpos
  have hrow : k / g.w < glyphHeight := Nat.div_lt_of_lt_mul hlt
  simp only [pixelCode, Image.pixel, Nat.zero_add]
  rw [glyphImage, hbyte _ _ _ hcolumn hrow, hbyte _ _ _ hcolumn hrow, hbyte _ _ _ hcolumn hrow,
    hbyte _ _ _ hcolumn hrow]

/-- The indices of a glyph are some of those of the font image. -/
theorem indicesFit_glyphImage (h : IndicesFit format im) (hright : g.x + g.w ≤ im.width)
    (hbottom : 1 + glyphHeight ≤ im.height) :
    IndicesFit format (glyphImage lib im glyphHeight g) := by
  have hsize := lib.size_crop im ⟨g.x, 1, g.x + g.w, 1 + glyphHeight⟩ (Nat.le_add_right _ _) hright
    (Nat.le_add_right _ _) hbottom
  have hbyte := lib.byteAt_crop im ⟨g.x, 1, g.x + g.w, 1 + glyphHeight⟩ (Nat.le_add_right _ _)
    hright (Nat.le_add_right _ _) hbottom
  dsimp only at hsize hbyte
  rw [Nat.add_sub_cancel_left, Nat.add_sub_cancel_left] at hsize hbyte
  intro himage p hp
  rw [glyphImage, Image.tobytes_eq, hsize.1, hsize.2] at hp
  rcases List.mem_map.mp hp with ⟨k, hk, rfl⟩
  have hlt := List.mem_range.mp hk
  have hpos : 0 < g.w := Nat.pos_of_mul_pos_right (Nat.lt_of_le_of_lt (Nat.zero_le k) hlt)
  have hcolumn : k % g.w < g.w := Nat.mod_lt k hpos
  have hrow : k / g.w < glyphHeight := Nat.div_lt_of_lt_mul hlt
  rw [hbyte _ _ _ hcolumn hrow]
  exact h himage _ (im.byteAt_mem .palette (by omega) (by omega))

end Glyph

/-! ## Decoding -/

section Decoding

variable {σ : Type} {next : σ → σ × Int} {s s' : σ}

/-- The bytes of native pixels. -/
theorem sendBytes_record {bytes codes : List UInt8} (h : Gives next s bytes s') :
    sendBytes next record bytes.length s codes = (s', codes ++ bytes, true) := by
  induction bytes generalizing s codes with
  | nil =>
    rw [gives_nil.mp h, List.append_nil]
    rfl
  | cons c bytes ih =>
    rw [gives_cons] at h
    rw [List.length_cons, sendBytes]
    simp only [h.1, record]
    rw [if_neg (by omega), if_neg (by simp), ofInt_toNat, ih h.2, List.append_assoc]
    rfl

theorem length_sendBytes {n : ℕ} {codes codes' : List UInt8}
    (h : sendBytes next record n s codes = (s', codes', true)) :
    codes'.length = codes.length + n := by
  induction n generalizing s codes with
  | zero =>
    cases h
    rfl
  | succ n ih =>
    rw [sendBytes] at h
    simp only [record, Bool.true_eq_false, if_false] at h
    split_ifs at h
    · simp at h
    · rw [ih h, List.length_append, List.length_singleton]
      omega

theorem length_decodePixels (mask k n byte : ℕ) (codes : List UInt8) :
    ((decodePixels mask k record n byte codes).1.length = codes.length + n) ∧
      (decodePixels mask k record n byte codes).2 = true := by
  induction n generalizing byte codes with
  | zero => exact ⟨rfl, rfl⟩
  | succ n ih =>
    rw [decodePixels]
    simp only [record, Bool.true_eq_false, if_false]
    rcases ih (byte >>> k) (codes ++ [(byte &&& mask).toUInt8]) with ⟨hlength, htrue⟩
    refine ⟨?_, htrue⟩
    rw [hlength, List.length_append, List.length_singleton]
    omega

theorem length_decodeLoop {k rounds remaining : ℕ} {codes codes' : List UInt8}
    (h : decodeLoop k next record rounds remaining s codes = some (s', codes', true)) :
    codes'.length = codes.length + remaining := by
  induction rounds generalizing remaining s codes with
  | zero =>
    cases remaining with
    | zero =>
      cases h
      rfl
    | succ remaining => cases h
  | succ rounds ih =>
    cases remaining with
    | zero =>
      cases h
      rfl
    | succ remaining =>
      rw [decodeLoop] at h
      dsimp only at h
      split_ifs at h with hnegative hless hfalse hfalse
      · simp at h
      · simp at h
      · have hpixels := length_decodePixels ((1 <<< k) - 1) k (remaining + 1) (next s).2.toNat codes
        rw [ih h, hpixels.1, Nat.sub_self, Nat.add_zero]
      · simp at h
      · have hpixels := length_decodePixels ((1 <<< k) - 1) k (8 / k) (next s).2.toNat codes
        rw [ih h, hpixels.1]
        omega
      · exact Nat.succ_ne_zero remaining

end Decoding

section Reading

variable {format : Format} {h : FontHandle} {stream : MemStream} {w : ℕ} {codes : List UInt8}

/-- The reader gets as many codes as there are pixels in its line height. -/
theorem decodeGlyph_length (hformat : format ∈ validFormats) (hbpp : h.bpp = format.bpp)
    (hdecode : decodeGlyph h stream w = some codes) :
    codes.length = w * h.lineHeight * codesOfPixel format := by
  unfold decodeGlyph at hdecode
  split at hdecode
  · cases hdecode
  · rename_i next input _
    dsimp only at hdecode
    rw [Option.bind_eq_some_iff] at hdecode
    rcases hdecode with ⟨⟨t, codes', ok⟩, hres, hok⟩
    rw [Option.ite_none_right_eq_some, Option.some.injEq] at hok
    rcases hok with ⟨rfl, rfl⟩
    rw [hbpp] at hres
    rw [codesOfPixel]
    split_ifs at hres ⊢
    · rw [length_decodeLoop hres, List.length_nil, Nat.zero_add, Nat.mul_one]
    · rw [Option.some.injEq] at hres
      rw [length_sendBytes hres, List.length_nil, Nat.zero_add]
      rcases format_cases hformat with ⟨-, -, hle, -⟩ | rfl | rfl
      · contradiction
      · exact Nat.mul_div_assoc _ (by decide)
      · exact Nat.mul_div_assoc _ (by decide)

/-- The bytes of some codes. -/
def codeBytes (format : Format) (codes : List UInt8) : List UInt8 :=
  if format.bpp ≤ 8 then packed format.bpp codes else codes

/-- The reader gets the codes back. -/
theorem decodeGlyph_eq (hformat : format ∈ validFormats) (hbpp : h.bpp = format.bpp)
    (hlength : codes.length = w * h.lineHeight * codesOfPixel format)
    (hcodes : format.bpp ≤ 8 → ∀ c ∈ codes, c.toNat < 2 ^ format.bpp) (useRle : Bool)
    {data rest : List UInt8}
    (hdata : encode useRle (codeBytes format codes) = some (h.compressionScheme, data))
    (hahead : stream.ahead = data ++ rest) : decodeGlyph h stream w = some codes := by
  rcases encode_gives useRle (codeBytes format codes) with
    ⟨compression, data', hencode, hgives⟩
  rw [hdata, Option.some.injEq, Prod.mk.injEq] at hencode
  rcases hencode with ⟨rfl, rfl⟩
  rcases hgives stream rest hahead with ⟨next, input, s', -, hprepare, hgives', -⟩
  unfold decodeGlyph
  rw [hprepare]
  dsimp only
  rw [hbpp]
  rcases format_cases hformat with ⟨-, hk, hk', hm, -⟩ | hnative
  · rw [codeBytes, if_pos hk'] at hgives'
    rw [codesOfPixel, if_pos hk', Nat.mul_one] at hlength
    have hloop := decodeLoop_gives hk hm codes.length (hcodes hk') (Nat.le_refl _) hgives' []
    rw [if_pos hk', ← hlength, decodePalette, hloop]
    rfl
  · have hlarge : ¬format.bpp ≤ 8 := by
      rcases hnative with rfl | rfl <;> decide
    have hcount : w * h.lineHeight * format.bpp / 8 = codes.length := by
      rw [hlength, codesOfPixel, if_neg hlarge]
      rcases hnative with rfl | rfl
      · exact Nat.mul_div_assoc _ (by decide)
      · exact Nat.mul_div_assoc _ (by decide)
    rw [codeBytes, if_neg hlarge] at hgives'
    rw [if_neg hlarge, hcount, sendBytes_record hgives']
    rfl

end Reading

end Painter
end VialQmk
