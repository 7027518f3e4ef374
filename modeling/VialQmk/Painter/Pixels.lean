import VialQmk.Painter.Rle
import Mathlib.Data.Nat.Digits.Lemmas
import Mathlib.Tactic.Ring
import Mathlib.Data.Nat.Log

/-!
# Quantum Painter - pixels

{lit}`convert_image_bytes` puts the pixels of an image into bytes, several palette indices to a
byte where they fit, the first one in the lowest bits.  {lit}`qp_internal_decode_palette` takes
bytes from a callback and hands the indices to another one.

Main results:

- Definition {lit}`convertImageBytes`, {lit}`decodePalette`: the two ways.
- Theorem {lit}`decodePalette_gives`: the decoder hands over the indices that have been packed.
- Theorem {lit}`painter_roundTrip`: what is packed, and perhaps compressed, is decoded to the same
  indices.
-/

namespace VialQmk
namespace Painter

/-! ## Images -/

/-- The bands of {lit}`im.tobytes("raw", ..)` -/
inductive Band
  | red
  | green
  | blue
  | palette

/-- An image of the imaging library: its size, a byte a pixel for each band, and its palette. -/
structure Image where
  width : ℕ
  height : ℕ
  tobytes : Band → List UInt8
  getpalette : List UInt8
  length_tobytes : ∀ band, (tobytes band).length = width * height

/-- {lit}`image_format` -/
inductive ImageFormat
  | grayscale
  | palette
  | rgb565
  | rgb888
  deriving DecidableEq

/-- An entry of {lit}`valid_formats` -/
structure Format where
  imageFormat : ImageFormat
  bpp : ℕ
  hasPalette : Bool
  numColors : ℕ
  imageFormatByte : UInt8

def rgb888 : Format := ⟨.rgb888, 24, false, 16777216, 0x09⟩
def pal256 : Format := ⟨.palette, 8, true, 256, 0x07⟩
def pal16 : Format := ⟨.palette, 4, true, 16, 0x06⟩
def pal4 : Format := ⟨.palette, 2, true, 4, 0x05⟩
def pal2 : Format := ⟨.palette, 1, true, 2, 0x04⟩

/-- {lit}`rescale_byte`.  The quotient is never halfway between two integers. -/
def rescaleByte (val maxval : ℕ) : ℕ :=
  (2 * val * maxval + 255) / 510

/-- {lit}`rgb_to565` -/
def rgbTo565 (r g b : ℕ) : List ℕ :=
  let msb := ((r >>> 3 &&& 0x1F) <<< 3) + (g >>> 5 &&& 0x07)
  let lsb := ((g >>> 2 &&& 0x07) <<< 5) + (b >>> 3 &&& 0x1F)
  [msb, lsb]

/-- One byte of the loops that pack pixels. -/
def packByte (value : UInt8 → ℕ) (pixelsPerByte shifter : ℕ) (imageBytes : List UInt8) (x : ℕ) :
    ℕ :=
  (List.range pixelsPerByte).foldl (fun byte n =>
    match imageBytes[x * pixelsPerByte + n]? with
    | some p => byte ||| (value p <<< (n * shifter))
    | none => byte) 0

/-- The palette that is exported. -/
def exportPalette (pal : List UInt8) (ncolors : ℕ) : Option (List (UInt8 × UInt8 × UInt8)) :=
  (List.range ncolors).mapM fun n => do
    let r ← pal[3 * n]?
    let g ← pal[3 * n + 1]?
    let b ← pal[3 * n + 2]?
    some (r, g, b)

/-- {lit}`bytes(..)` -/
def toBytes (ns : List ℕ) : Option (List UInt8) :=
  if ∀ n ∈ ns, n < 256 then some (ns.map Nat.toUInt8) else none

/-- The bands of an image side by side. -/
def rgbPixels (im : Image) : List (ℕ × ℕ × ℕ) :=
  List.zipWith (fun r gb => (r.toNat, gb)) (im.tobytes .red)
    (List.zipWith (fun g b => (g.toNat, b.toNat)) (im.tobytes .green) (im.tobytes .blue))

/-- {lit}`convert_image_bytes`, with {lit}`none` for an error, and the list of numbers as the
bytes that are written of it -/
def convertImageBytes (im : Image) (format : Format) :
    Option (Option (List (UInt8 × UInt8 × UInt8)) × List UInt8) := do
  let ncolors := format.numColors
  let shifter := Nat.log 2 ncolors
  let pixelsPerByte := 8 / Nat.log 2 ncolors
  let bytesPerPixel := (Nat.log 2 ncolors + 7) / 8
  let expectedByteCount :=
    if pixelsPerByte ≠ 0 then
      (im.width * im.height + (pixelsPerByte - 1)) / pixelsPerByte
    else im.width * im.height * bytesPerPixel
  let converted ← match format.imageFormat with
    | .grayscale =>
      some (none, (List.range expectedByteCount).map
        (packByte (fun p => rescaleByte p.toNat (ncolors - 1)) pixelsPerByte shifter
          (im.tobytes .red)))
    | .palette => do
      let palette ← exportPalette im.getpalette ncolors
      some (some palette, (List.range expectedByteCount).map
        (packByte (fun p => p.toNat &&& (ncolors - 1)) pixelsPerByte shifter
          (im.tobytes .palette)))
    | .rgb565 => some (none, (rgbPixels im).flatMap fun p => rgbTo565 p.1 p.2.1 p.2.2)
    | .rgb888 => some (none, (rgbPixels im).flatMap fun p => [p.1, p.2.1, p.2.2])
  if converted.2.length ≠ expectedByteCount then none
  else do
    let bytearray ← toBytes converted.2
    some (converted.1, bytearray)

/-! ## The decoder -/

section Decoder

variable {σ ω : Type}

/-- The inner loop of {lit}`qp_internal_decode_palette` -/
def decodePixels (pixelBitmask bitsPerPixel : ℕ) (output : ω → UInt8 → ω × Bool) :
    ℕ → ℕ → ω → ω × Bool
  | 0, _, o => (o, true)
  | q + 1, byteval, o =>
    let res := output o (byteval &&& pixelBitmask).toUInt8
    if res.2 = false then (res.1, false)
    else decodePixels pixelBitmask bitsPerPixel output q (byteval >>> bitsPerPixel) res.1

/-- The outer loop of {lit}`qp_internal_decode_palette`, for some rounds at most -/
def decodeLoop (bitsPerPixel : ℕ) (input : σ → σ × Int) (output : ω → UInt8 → ω × Bool) :
    ℕ → ℕ → σ → ω → Option (σ × ω × Bool)
  | _, 0, s, o => some (s, o, true)
  | 0, _ + 1, _, _ => none
  | rounds + 1, remainingPixels, s, o =>
    let pixelBitmask := (1 <<< bitsPerPixel) - 1
    let pixelsPerByte := 8 / bitsPerPixel
    let byteval := input s
    if byteval.2 < 0 then some (byteval.1, o, false)
    else
      let loopPixels :=
        if remainingPixels < pixelsPerByte then remainingPixels else pixelsPerByte
      let res := decodePixels pixelBitmask bitsPerPixel output loopPixels byteval.2.toNat o
      if res.2 = false then some (byteval.1, res.1, false)
      else
        decodeLoop bitsPerPixel input output rounds (remainingPixels - loopPixels) byteval.1 res.1

/-- {lit}`qp_internal_decode_palette`, whose rounds take a pixel each at least -/
def decodePalette (pixelCount bitsPerPixel : ℕ) (input : σ → σ × Int)
    (output : ω → UInt8 → ω × Bool) (s : σ) (o : ω) : Option (σ × ω × Bool) :=
  decodeLoop bitsPerPixel input output pixelCount pixelCount s o

/-- An output callback that writes down the indices. -/
def record (indices : List UInt8) (index : UInt8) : List UInt8 × Bool :=
  (indices ++ [index], true)

end Decoder

/-! ## Packing -/

section Packing

variable {k m : ℕ} {value : UInt8 → ℕ} {pixels : List UInt8}

theorem ofDigits_lt (ds : List ℕ) (hk : 0 < k) (hds : ∀ d ∈ ds, d < 2 ^ k) :
    Nat.ofDigits (2 ^ k) ds < 2 ^ (ds.length * k) := by
  rw [Nat.mul_comm, Nat.pow_mul]
  exact Nat.ofDigits_lt_base_pow_length (Nat.one_lt_two_pow hk.ne') hds

/-- The loop over the pixels of a byte, up to one of them. -/
theorem packLoop_eq (hk : 0 < k) (hvalue : ∀ p ∈ pixels, value p < 2 ^ k) (n : ℕ) :
    (List.range n).foldl (fun byte n =>
      match pixels[n]? with
      | some p => byte ||| (value p <<< (n * k))
      | none => byte) 0 = Nat.ofDigits (2 ^ k) ((pixels.take n).map value) := by
  induction n with
  | zero => simp
  | succ n ih =>
    rw [List.range_succ, List.foldl_append, ih, List.foldl_cons, List.foldl_nil]
    cases hp : pixels[n]? with
    | none =>
      rw [List.getElem?_eq_none_iff] at hp
      rw [List.take_of_length_le hp, List.take_of_length_le (Nat.le_succ_of_le hp)]
    | some p =>
      have hlt : n < pixels.length := (List.getElem?_eq_some_iff.mp hp).1
      have hlength : ((pixels.take n).map value).length = n := by
        rw [List.length_map, List.length_take, Nat.min_eq_left hlt.le]
      have hsmall : Nat.ofDigits (2 ^ k) ((pixels.take n).map value) < 2 ^ (n * k) := by
        have hbound := ofDigits_lt ((pixels.take n).map value) hk ?_
        · rwa [hlength] at hbound
        · intro d hd
          rcases List.mem_map.mp hd with ⟨p', hmem, rfl⟩
          exact hvalue p' (List.mem_of_mem_take hmem)
      have hor := Nat.shiftLeft_add_eq_or_of_lt hsmall (value p)
      rw [Nat.shiftLeft_eq] at hor
      rw [List.take_add_one, hp, Option.toList_some, List.map_append, List.map_singleton,
        Nat.ofDigits_append, Nat.ofDigits_singleton, hlength]
      dsimp only
      rw [Nat.or_comm, Nat.shiftLeft_eq, ← hor, ← Nat.pow_mul, Nat.mul_comm k n]
      ring

/-- The bytes of some indices. -/
def packed (k : ℕ) (pixels : List UInt8) : List UInt8 :=
  (List.range ((pixels.length + (8 / k - 1)) / (8 / k))).map fun x =>
    (Nat.ofDigits (2 ^ k) (((pixels.drop (x * (8 / k))).take (8 / k)).map UInt8.toNat)).toUInt8

@[simp]
theorem packed_nil (k : ℕ) : packed k [] = [] := by
  rw [packed, List.length_nil, Nat.zero_add]
  rcases Nat.eq_zero_or_pos (8 / k) with hzero | hpos
  · rw [hzero]
    rfl
  · rw [Nat.div_eq_of_lt (Nat.sub_one_lt_of_lt hpos)]
    rfl

/-- One byte less for the pixels of a byte less. -/
theorem count_eq_succ {length : ℕ} (hm : 0 < m) (hlength : 0 < length) :
    (length + (m - 1)) / m = (length - m + (m - 1)) / m + 1 := by
  rw [← Nat.add_div_right _ hm]
  rcases Nat.lt_or_ge length m with hless | hmore
  · have hone : (length + (m - 1)) / m = 1 := Nat.div_eq_of_lt_le (by omega) (by omega)
    have hone' : (length - m + (m - 1) + m) / m = 1 := Nat.div_eq_of_lt_le (by omega) (by omega)
    rw [hone, hone']
  · congr 1
    omega

/-- The first byte, and the others. -/
theorem packed_eq_cons (hm : 0 < 8 / k) (hpixels : pixels ≠ []) :
    packed k pixels =
      (Nat.ofDigits (2 ^ k) ((pixels.take (8 / k)).map UInt8.toNat)).toUInt8 ::
        packed k (pixels.drop (8 / k)) := by
  have hcount : (pixels.length + (8 / k - 1)) / (8 / k) =
      ((pixels.drop (8 / k)).length + (8 / k - 1)) / (8 / k) + 1 := by
    rw [List.length_drop]
    exact count_eq_succ hm (List.length_pos_iff.mpr hpixels)
  rw [packed, packed, hcount, List.range_succ_eq_map, List.map_cons, List.map_map, Nat.zero_mul,
    List.drop_zero]
  congr 1
  apply List.map_congr_left
  intro x _
  rw [Function.comp_apply, List.drop_drop, Nat.succ_mul, Nat.add_comm]

/-- What {lit}`convert_image_bytes` packs. -/
theorem map_packByte (hk : 0 < k) (hvalue : ∀ p ∈ pixels, value p = p.toNat)
    (hpixels : ∀ p ∈ pixels, p.toNat < 2 ^ k) (count : ℕ) :
    (List.range count).map (packByte value (8 / k) k pixels) = (List.range count).map fun x =>
      Nat.ofDigits (2 ^ k) (((pixels.drop (x * (8 / k))).take (8 / k)).map UInt8.toNat) := by
  apply List.map_congr_left
  intro x _
  have hloop := @packLoop_eq k value (pixels.drop (x * (8 / k))) hk
    (fun p hmem => (hvalue p (List.mem_of_mem_drop hmem)).symm ▸
      hpixels p (List.mem_of_mem_drop hmem)) (8 / k)
  simp only [List.getElem?_drop] at hloop
  rw [packByte, hloop]
  congr 1
  apply List.map_congr_left
  intro p hmem
  exact hvalue p (List.mem_of_mem_drop (List.mem_of_mem_take hmem))

/-- The indices of a byte. -/
theorem ofDigits_take_lt (hk : 0 < k) (hpixels : ∀ p ∈ pixels, p.toNat < 2 ^ k) :
    Nat.ofDigits (2 ^ k) ((pixels.take (8 / k)).map UInt8.toNat) < 256 := by
  have hlt := ofDigits_lt ((pixels.take (8 / k)).map UInt8.toNat) hk (by
    intro d hd
    rcases List.mem_map.mp hd with ⟨p, hmem, rfl⟩
    exact hpixels p (List.mem_of_mem_take hmem))
  have hwidth : ((pixels.take (8 / k)).map UInt8.toNat).length * k ≤ 8 := by
    rw [List.length_map, List.length_take]
    exact (Nat.mul_le_mul_right k (Nat.min_le_left _ _)).trans (Nat.div_mul_le_self 8 k)
  exact hlt.trans_le (Nat.pow_le_pow_right (by omega) hwidth)

theorem toBytes_ofDigits (hk : 0 < k) (hpixels : ∀ p ∈ pixels, p.toNat < 2 ^ k) (count : ℕ) :
    toBytes ((List.range count).map fun x =>
      Nat.ofDigits (2 ^ k) (((pixels.drop (x * (8 / k))).take (8 / k)).map UInt8.toNat)) =
      some ((List.range count).map fun x =>
        (Nat.ofDigits (2 ^ k)
          (((pixels.drop (x * (8 / k))).take (8 / k)).map UInt8.toNat)).toUInt8) := by
  rw [toBytes, if_pos, List.map_map]
  · rfl
  · intro n hn
    rcases List.mem_map.mp hn with ⟨x, -, rfl⟩
    exact ofDigits_take_lt hk fun p hmem => hpixels p (List.mem_of_mem_drop hmem)

end Packing

/-! ## Decoding -/

section Decoding

variable {σ : Type} {k : ℕ} {input : σ → σ × Int} {s s' : σ} {indices pixels : List UInt8}

/-- The indices of a byte are handed over one by one. -/
theorem decodePixels_ofDigits (hpixels : ∀ p ∈ pixels, p.toNat < 2 ^ k) (indices : List UInt8) :
    decodePixels ((1 <<< k) - 1) k record pixels.length
      (Nat.ofDigits (2 ^ k) (pixels.map UInt8.toNat)) indices = (indices ++ pixels, true) := by
  induction pixels generalizing indices with
  | nil => rw [List.append_nil]; rfl
  | cons p pixels ih =>
    have hp : p.toNat < 2 ^ k := hpixels p List.mem_cons_self
    have hlow : Nat.ofDigits (2 ^ k) ((p :: pixels).map UInt8.toNat) &&& ((1 <<< k) - 1) =
        p.toNat := by
      rw [Nat.one_shiftLeft, Nat.and_two_pow_sub_one_eq_mod, List.map_cons, Nat.ofDigits_cons,
        Nat.add_mul_mod_self_left, Nat.mod_eq_of_lt hp]
    have hhigh : Nat.ofDigits (2 ^ k) ((p :: pixels).map UInt8.toNat) >>> k =
        Nat.ofDigits (2 ^ k) (pixels.map UInt8.toNat) := by
      rw [Nat.shiftRight_eq_div_pow, List.map_cons, Nat.ofDigits_cons,
        Nat.add_mul_div_left _ _ (Nat.two_pow_pos k), Nat.div_eq_of_lt hp, Nat.zero_add]
    have hindex : p.toNat.toUInt8 = p := UInt8.ofNat_toNat
    rw [List.length_cons, decodePixels, hlow, hhigh, hindex]
    simp only [record, Bool.true_eq_false, if_false]
    rw [ih fun p' hmem => hpixels p' (List.mem_cons_of_mem p hmem)]
    simp

/-- The decoder hands over the indices that have been packed. -/
theorem decodeLoop_gives (hk : 0 < k) (hm : 0 < 8 / k) (rounds : ℕ)
    (hpixels : ∀ p ∈ pixels, p.toNat < 2 ^ k) (hrounds : pixels.length ≤ rounds)
    (hgives : Gives input s (packed k pixels) s') (indices : List UInt8) :
    decodeLoop k input record rounds pixels.length s indices =
      some (s', indices ++ pixels, true) := by
  induction rounds generalizing pixels s indices with
  | zero =>
    have hnil : pixels = [] := List.length_eq_zero_iff.mp (Nat.le_zero.mp hrounds)
    subst hnil
    rw [packed_nil, gives_nil] at hgives
    rw [List.append_nil, hgives]
    rfl
  | succ rounds ih =>
    rcases List.eq_nil_or_concat' pixels with hnil | ⟨_, _, hconcat⟩
    · subst hnil
      rw [packed_nil, gives_nil] at hgives
      rw [List.append_nil, hgives]
      rfl
    · have hne : pixels ≠ [] := by
        rw [hconcat]
        simp
      rw [packed_eq_cons hm hne, gives_cons] at hgives
      have hbyte := ofDigits_take_lt hk hpixels
      have hvalue : (Nat.ofDigits (2 ^ k)
          ((pixels.take (8 / k)).map UInt8.toNat)).toUInt8.toNat =
          Nat.ofDigits (2 ^ k) ((pixels.take (8 / k)).map UInt8.toNat) := by
        rw [Nat.toUInt8, UInt8.toNat_ofNat', Nat.mod_eq_of_lt hbyte]
      rw [hvalue] at hgives
      rcases Nat.exists_eq_succ_of_ne_zero (List.length_pos_iff.mpr hne).ne' with ⟨n, hn⟩
      have hloop : (if n + 1 < 8 / k then n + 1 else 8 / k) = (pixels.take (8 / k)).length := by
        rw [List.length_take, hn]
        split_ifs <;> omega
      have hrest : n + 1 - (pixels.take (8 / k)).length = (pixels.drop (8 / k)).length := by
        rw [List.length_take, List.length_drop, hn]
        omega
      rw [hn, decodeLoop]
      dsimp only
      rw [hgives.1, if_neg (by omega), Int.toNat_natCast, hloop, decodePixels_ofDigits, hrest]
      · simp only [Bool.true_eq_false, if_false]
        rw [ih (fun p hmem => hpixels p (List.mem_of_mem_drop hmem)) _ hgives.2,
          List.append_assoc, List.take_append_drop]
        rw [List.length_drop]
        omega
      · exact fun p hmem => hpixels p (List.mem_of_mem_take hmem)
      · exact Nat.succ_ne_zero n

end Decoding

/-! ## Both ways -/

/-- A map with exceptions has a result if no element is one. -/
theorem mapM_eq_some_iff {α β : Type} {f : α → Option β} {xs : List α} {ys : List β} :
    xs.mapM f = some ys ↔ xs.map f = ys.map some := by
  induction xs generalizing ys with
  | nil => cases ys <;> simp
  | cons x xs ih =>
    simp only [List.mapM_cons, Option.bind_eq_bind, Option.bind_eq_some_iff]
    cases ys with
    | nil => simp
    | cons y ys => simp [ih]

theorem exportPalette_eq_some {pal : List UInt8} {ncolors : ℕ} (h : 3 * ncolors ≤ pal.length) :
    ∃ palette, exportPalette pal ncolors = some palette := by
  refine ⟨(List.range ncolors).map fun n =>
    (pal.getD (3 * n) 0, pal.getD (3 * n + 1) 0, pal.getD (3 * n + 2) 0), ?_⟩
  rw [exportPalette, mapM_eq_some_iff, List.map_map]
  apply List.map_congr_left
  intro n hn
  have hlt : n < ncolors := List.mem_range.mp hn
  have hr := List.getElem?_eq_getElem (show 3 * n < pal.length by omega)
  have hg := List.getElem?_eq_getElem (show 3 * n + 1 < pal.length by omega)
  have hb := List.getElem?_eq_getElem (show 3 * n + 2 < pal.length by omega)
  simp [hr, hg, hb]

/-- The bytes of an image with a palette. -/
theorem convertImageBytes_palette {im : Image} {format : Format} {k : ℕ} (hk : 0 < k)
    (hm : 0 < 8 / k) (hformat : format.imageFormat = .palette)
    (hcolors : format.numColors = 2 ^ k) (hpalette : 3 * 2 ^ k ≤ im.getpalette.length)
    (hpixels : ∀ p ∈ im.tobytes .palette, p.toNat < 2 ^ k) :
    ∃ palette, convertImageBytes im format = some (palette, packed k (im.tobytes .palette)) := by
  rcases exportPalette_eq_some hpalette with ⟨palette, hexport⟩
  have hvalue : ∀ p ∈ im.tobytes .palette, p.toNat &&& (2 ^ k - 1) = p.toNat := by
    intro p hmem
    rw [Nat.and_two_pow_sub_one_eq_mod, Nat.mod_eq_of_lt (hpixels p hmem)]
  refine ⟨some palette, ?_⟩
  rw [convertImageBytes, hformat, hcolors, Nat.log_pow Nat.one_lt_two]
  simp only [hexport, Option.bind_eq_bind, Option.bind_some, List.length_map, List.length_range,
    ne_eq, hm.ne', not_false_eq_true, not_true_eq_false, if_true, if_false]
  rw [map_packByte hk hvalue hpixels, toBytes_ofDigits hk hpixels, Option.bind_some, packed,
    im.length_tobytes]

/-- What the callback of {lit}`encode` gives is decoded. -/
theorem decode_encode (useRle : Bool) {k : ℕ} (hk : 0 < k) (hm : 0 < 8 / k) {pixels : List UInt8}
    (hpixels : ∀ p ∈ pixels, p.toNat < 2 ^ k) :
    ∃ compression data, encode useRle (packed k pixels) = some (compression, data) ∧
      ∃ next s s', prepareInputState (inputState (makeMemoryStream data)) compression =
        some (next, s) ∧
          decodePalette pixels.length k next record s [] = some (s', pixels, true) ∧
            s'.srcStream.isEof = false := by
  rcases encode_gives useRle (packed k pixels) with ⟨compression, data, hencode, hgives⟩
  refine ⟨compression, data, hencode, ?_⟩
  rcases hgives (makeMemoryStream data) [] (List.append_nil data).symm with
    ⟨next, s, s', n, hprepare, hgives, -, hstream⟩
  refine ⟨next, s, s', hprepare, ?_, ?_⟩
  · exact decodeLoop_gives hk hm pixels.length hpixels (Nat.le_refl _) hgives []
  · rw [hstream]
    rfl

/-- The palette indices of an image that are packed, and compressed or not, are decoded to the same
ones in order.  For every list of bytes the run length decoder gives as many of them back, and
does not read past the end of the compressed ones. -/
theorem painter_roundTrip :
    (∀ im format, format ∈ [pal2, pal4, pal16, pal256] →
      3 * format.numColors ≤ im.getpalette.length →
      (∀ p ∈ im.tobytes .palette, p.toNat < format.numColors) → ∀ useRle,
        ∃ palette bytes compression data, convertImageBytes im format = some (palette, bytes) ∧
          encode useRle bytes = some (compression, data) ∧
          ∃ next s s', prepareInputState (inputState (makeMemoryStream data)) compression =
            some (next, s) ∧
              decodePalette (im.width * im.height) format.bpp next record s [] =
                some (s', im.tobytes .palette, true) ∧ s'.srcStream.isEof = false) ∧
    ∀ bytes, ∃ compressed, compressBytesQmkRle bytes = some compressed ∧
      ∃ s', callTimes byteRleDecoder bytes.length (inputState (makeMemoryStream compressed)) =
        (s', bytes.map fun c => (c.toNat : Int)) ∧ s'.srcStream.isEof = false := by
  constructor
  · intro im format hformat hpalette hpixels useRle
    have hdepth : ∃ k, 0 < k ∧ 0 < 8 / k ∧ format.imageFormat = .palette ∧
        format.numColors = 2 ^ k ∧ format.bpp = k := by
      simp only [List.mem_cons, List.not_mem_nil, or_false] at hformat
      rcases hformat with rfl | rfl | rfl | rfl
      · exact ⟨1, by decide, by decide, rfl, rfl, rfl⟩
      · exact ⟨2, by decide, by decide, rfl, rfl, rfl⟩
      · exact ⟨4, by decide, by decide, rfl, rfl, rfl⟩
      · exact ⟨8, by decide, by decide, rfl, rfl, rfl⟩
    rcases hdepth with ⟨k, hk, hm, himage, hcolors, hbpp⟩
    rw [hcolors] at hpalette hpixels
    rcases convertImageBytes_palette hk hm himage hcolors hpalette hpixels with
      ⟨palette, hconvert⟩
    rcases decode_encode useRle hk hm hpixels with ⟨compression, data, hencode, hdecode⟩
    refine ⟨palette, _, compression, data, hconvert, hencode, ?_⟩
    rw [im.length_tobytes] at hdecode
    rw [hbpp]
    exact hdecode
  · intro bytes
    rcases encode_gives true bytes with ⟨compression, data, hencode, hgives⟩
    rw [encode, if_pos rfl, Option.map_eq_some_iff] at hencode
    rcases hencode with ⟨compressed, hcompress, hpair⟩
    rw [Prod.mk.injEq] at hpair
    rcases hpair with ⟨rfl, rfl⟩
    rcases hgives (makeMemoryStream compressed) [] (List.append_nil compressed).symm with
      ⟨next, s, s', n, hprepare, hgives, -, hstream⟩
    have hnext : (byteRleDecoder, inputState (makeMemoryStream compressed)) = (next, s) :=
      Option.some.inj hprepare
    rw [Prod.mk.injEq] at hnext
    rcases hnext with ⟨rfl, rfl⟩
    refine ⟨compressed, hcompress, s', hgives, ?_⟩
    rw [hstream]
    rfl

/-- Three pixels of two bits each, with runs. -/
theorem painter_roundTrip_small :
    let im : Image := ⟨3, 1, fun _ => [1, 2, 3], List.replicate 12 0, fun _ => rfl⟩
    ∃ palette bytes compression data, convertImageBytes im pal4 = some (palette, bytes) ∧
      encode true bytes = some (compression, data) ∧
      ∃ next s s', prepareInputState (inputState (makeMemoryStream data)) compression =
        some (next, s) ∧
          decodePalette 3 2 next record s [] = some (s', [1, 2, 3], true) ∧
            s'.srcStream.isEof = false := by
  intro im
  exact painter_roundTrip.1 im pal4 (by simp) (by decide) (by simp [im, pal4]) true


end Painter
end VialQmk
