import VialQmk.Painter.Pixels

/-!
# Quantum Painter - the imaging library

The image writer hands its frames to an imaging library, which compares two frames, finds the
rectangle that differs, and cuts it out.  What the writer relies on is a structure; one way to
fulfil it is given.

Main results:

- Definition {lit}`Image.pixel`, {lit}`Image.rgbBytes`: the pixels of an image, and its bytes.
- Theorem {lit}`convertImageBytes_rgb888`: the bytes the writer makes of an image.
- Definition {lit}`Imaging`: what the library does.
- Definition {lit}`pillow`: a library.
-/

namespace VialQmk
namespace Painter

/-! ## Pixels of an image -/

/-- A color. -/
abbrev Rgb := UInt8 × UInt8 × UInt8

/-- The bytes of a color. -/
def rgbBytes (p : Rgb) : List UInt8 :=
  [p.1, p.2.1, p.2.2]

/-- A byte of one band. -/
def Image.byteAt (im : Image) (band : Band) (x y : ℕ) : UInt8 :=
  (im.tobytes band).getD (y * im.width + x) 0

/-- The color of a pixel. -/
def Image.pixel (im : Image) (x y : ℕ) : Rgb :=
  (im.byteAt .red x y, im.byteAt .green x y, im.byteAt .blue x y)

/-- The colors row by row. -/
def Image.pixels (im : Image) : List Rgb :=
  (im.tobytes .red).zip ((im.tobytes .green).zip (im.tobytes .blue))

/-- The bytes of all pixels. -/
def Image.rgb (im : Image) : List UInt8 :=
  im.pixels.flatMap rgbBytes

@[simp]
theorem Image.length_pixels (im : Image) : im.pixels.length = im.width * im.height := by
  simp [pixels, im.length_tobytes]

theorem length_flatMap_rgbBytes (ps : List Rgb) : (ps.flatMap rgbBytes).length = 3 * ps.length := by
  induction ps with
  | nil => rfl
  | cons p ps ih =>
    rw [List.flatMap_cons, List.length_append, ih, List.length_cons]
    change 3 + 3 * ps.length = 3 * (ps.length + 1)
    omega

@[simp]
theorem Image.length_rgb (im : Image) : im.rgb.length = 3 * (im.width * im.height) := by
  rw [rgb, length_flatMap_rgbBytes, length_pixels]

/-- A place in the rows is one in the list. -/
theorem index_lt {width height x y : ℕ} (hx : x < width) (hy : y < height) :
    y * width + x < width * height := by
  have hrow : (y + 1) * width ≤ height * width := Nat.mul_le_mul_right width hy
  rw [Nat.add_mul, Nat.one_mul, Nat.mul_comm height] at hrow
  omega

theorem Image.pixels_getElem? {im : Image} {x y : ℕ} (hx : x < im.width) (hy : y < im.height) :
    im.pixels[y * im.width + x]? = some (im.pixel x y) := by
  have hlt := index_lt hx hy
  have hband : ∀ band, (im.tobytes band)[y * im.width + x]? = some (im.byteAt band x y) := by
    intro band
    have hlength : y * im.width + x < (im.tobytes band).length := by rwa [im.length_tobytes]
    rw [byteAt, List.getD_eq_getElem?_getD, List.getElem?_eq_getElem hlength, Option.getD_some]
  rw [pixels, List.getElem?_zip_eq_some, List.getElem?_zip_eq_some]
  exact ⟨hband .red, hband .green, hband .blue⟩

theorem toBytes_map_toNat (cs : List UInt8) : toBytes (cs.map UInt8.toNat) = some cs := by
  rw [toBytes, if_pos, List.map_map]
  · have hid : Nat.toUInt8 ∘ UInt8.toNat = id := by
      funext c
      exact UInt8.ofNat_toNat
    rw [hid, List.map_id]
  · intro n hn
    rcases List.mem_map.mp hn with ⟨c, -, rfl⟩
    exact c.toNat_lt

/-- The colors with their bands as numbers. -/
theorem rgbPixels_eq (im : Image) :
    rgbPixels im = im.pixels.map fun p => (p.1.toNat, p.2.1.toNat, p.2.2.toNat) := by
  have hzip : ∀ rs gs bs : List UInt8,
      List.zipWith (fun r gb => (r.toNat, gb)) rs
        (List.zipWith (fun g b => (g.toNat, b.toNat)) gs bs) =
        (rs.zip (gs.zip bs)).map fun p => (p.1.toNat, p.2.1.toNat, p.2.2.toNat) := by
    intro rs
    induction rs with
    | nil => simp
    | cons r rs ih =>
      intro gs bs
      cases gs with
      | nil => simp
      | cons g gs =>
        cases bs with
        | nil => simp
        | cons b bs => simp [ih]
  exact hzip _ _ _

/-- The bytes of an image in the format of 24 bits a pixel. -/
theorem convertImageBytes_rgb888 (im : Image) :
    convertImageBytes im rgb888 = some (none, im.rgb) := by
  have hlog : Nat.log 2 16777216 = 24 := Nat.log_pow Nat.one_lt_two 24
  have hflat : (rgbPixels im).flatMap (fun p => [p.1, p.2.1, p.2.2]) =
      im.rgb.map UInt8.toNat := by
    rw [rgbPixels_eq, Image.rgb, List.map_flatMap, List.flatMap_map]
    rfl
  rw [convertImageBytes]
  simp only [rgb888, hlog, hflat, Option.bind_eq_bind, Option.bind_some, List.length_map,
    Image.length_rgb]
  rw [if_neg, toBytes_map_toNat, Option.bind_some]
  rw [if_neg (by decide), Nat.mul_comm 3]
  exact not_not_intro rfl

/-! ## The library -/

/-- The edges of a rectangle.  For the library its right and its lower edge are the first ones
outside. -/
structure Box where
  left : ℕ
  top : ℕ
  right : ℕ
  bottom : ℕ
  deriving DecidableEq

/-- A place inside. -/
def Box.Contains (box : Box) (x y : ℕ) : Prop :=
  box.left ≤ x ∧ x < box.right ∧ box.top ≤ y ∧ y < box.bottom

instance (box : Box) (x y : ℕ) : Decidable (box.Contains x y) :=
  inferInstanceAs (Decidable (_ ∧ _))

/-- {lit}`PIL`: the functions of the imaging library, and what they do to images that are not
empty. -/
structure Imaging where
  difference : Image → Image → Image
  getbbox : Image → Option Box
  crop : Image → Box → Image
  size_difference : ∀ im im', im.width = im'.width → im.height = im'.height →
    (difference im im').width = im.width ∧ (difference im im').height = im.height
  pixel_difference : ∀ im im', im.width = im'.width → im.height = im'.height →
    ∀ x y, x < im.width → y < im.height →
      ((difference im im').pixel x y = (0, 0, 0) ↔ im.pixel x y = im'.pixel x y)
  getbbox_none : ∀ im, getbbox im = none →
    ∀ x y, x < im.width → y < im.height → im.pixel x y = (0, 0, 0)
  getbbox_some : ∀ im box, getbbox im = some box →
    box.left < box.right ∧ box.right ≤ im.width ∧ box.top < box.bottom ∧ box.bottom ≤ im.height ∧
      ∀ x y, x < im.width → y < im.height → im.pixel x y ≠ (0, 0, 0) → box.Contains x y
  size_crop : ∀ im box, box.left < box.right → box.right ≤ im.width → box.top < box.bottom →
    box.bottom ≤ im.height → (crop im box).width = box.right - box.left ∧
      (crop im box).height = box.bottom - box.top
  pixel_crop : ∀ im box, box.left < box.right → box.right ≤ im.width → box.top < box.bottom →
    box.bottom ≤ im.height → ∀ x y, x < box.right - box.left → y < box.bottom - box.top →
      (crop im box).pixel x y = im.pixel (box.left + x) (box.top + y)

/-! ## One library -/

/-- How far two bytes are apart. -/
def absDiff (a b : UInt8) : UInt8 :=
  if a ≤ b then b - a else a - b

theorem absDiff_eq_zero_iff (a b : UInt8) : absDiff a b = 0 ↔ a = b := by
  unfold absDiff
  split_ifs with h
  · rw [UInt8.sub_eq_iff_eq_add, UInt8.zero_add, eq_comm]
  · rw [UInt8.sub_eq_iff_eq_add, UInt8.zero_add]

/-- {lit}`ImageChops.difference` of two images of one size -/
def difference (im im' : Image) : Image :=
  if h : im.width = im'.width ∧ im.height = im'.height then
    { im with
      tobytes := fun band => List.zipWith absDiff (im.tobytes band) (im'.tobytes band)
      length_tobytes := by
        intro band
        rw [List.length_zipWith, im.length_tobytes, im'.length_tobytes, h.1, h.2, Nat.min_self] }
  else im

/-- {lit}`Image.getbbox` -/
def getbbox (im : Image) : Option Box := do
  let columns := (List.range im.width).filter fun x =>
    (List.range im.height).any fun y => im.pixel x y != (0, 0, 0)
  let rows := (List.range im.height).filter fun y =>
    (List.range im.width).any fun x => im.pixel x y != (0, 0, 0)
  let left ← columns.min?
  let top ← rows.min?
  let right ← columns.max?
  let bottom ← rows.max?
  some ⟨left, top, right + 1, bottom + 1⟩

/-- {lit}`Image.crop` -/
def crop (im : Image) (box : Box) : Image where
  width := box.right - box.left
  height := box.bottom - box.top
  tobytes band := (List.range ((box.right - box.left) * (box.bottom - box.top))).map fun k =>
    im.byteAt band (box.left + k % (box.right - box.left)) (box.top + k / (box.right - box.left))
  getpalette := im.getpalette
  length_tobytes := by simp

theorem pixel_difference {im im' : Image} (hwidth : im.width = im'.width)
    (hheight : im.height = im'.height) {x y : ℕ} (hx : x < im.width) (hy : y < im.height) :
    (difference im im').pixel x y = (0, 0, 0) ↔ im.pixel x y = im'.pixel x y := by
  have hband : ∀ band, (difference im im').byteAt band x y =
      absDiff (im.byteAt band x y) (im'.byteAt band x y) := by
    intro band
    have hlt := index_lt hx hy
    have hlength : y * im.width + x < (im.tobytes band).length := by rwa [im.length_tobytes]
    have hlength' : y * im.width + x < (im'.tobytes band).length := by
      rwa [im'.length_tobytes, ← hwidth, ← hheight]
    rw [difference, dif_pos ⟨hwidth, hheight⟩, Image.byteAt, Image.byteAt, Image.byteAt]
    simp only [List.getD_eq_getElem?_getD, List.getElem?_zipWith, ← hwidth]
    rw [List.getElem?_eq_getElem hlength, List.getElem?_eq_getElem hlength']
    rfl
  simp only [Image.pixel, Prod.mk.injEq, hband, absDiff_eq_zero_iff]

theorem mem_columns {im : Image} {x : ℕ} :
    x ∈ ((List.range im.width).filter fun x =>
      (List.range im.height).any fun y => im.pixel x y != (0, 0, 0)) ↔
      x < im.width ∧ ∃ y < im.height, im.pixel x y ≠ (0, 0, 0) := by
  simp

theorem mem_rows {im : Image} {y : ℕ} :
    y ∈ ((List.range im.height).filter fun y =>
      (List.range im.width).any fun x => im.pixel x y != (0, 0, 0)) ↔
      y < im.height ∧ ∃ x < im.width, im.pixel x y ≠ (0, 0, 0) := by
  simp

theorem getbbox_none {im : Image} (h : getbbox im = none) {x y : ℕ} (hx : x < im.width)
    (hy : y < im.height) : im.pixel x y = (0, 0, 0) := by
  by_contra hne
  have hcolumn := mem_columns.mpr ⟨hx, y, hy, hne⟩
  have hrow := mem_rows.mpr ⟨hy, x, hx, hne⟩
  have hsome : ∀ {l : List ℕ} {n : ℕ}, n ∈ l → (∃ a, l.min? = some a) ∧ ∃ a, l.max? = some a := by
    intro l n hmem
    constructor
    · exact Option.isSome_iff_exists.mp (List.isSome_min?_of_mem hmem)
    · exact Option.isSome_iff_exists.mp (List.isSome_max?_of_mem hmem)
  rcases hsome hcolumn with ⟨⟨left, hleft⟩, right, hright⟩
  rcases hsome hrow with ⟨⟨top, htop⟩, bottom, hbottom⟩
  rw [getbbox] at h
  simp only [hleft, htop, hright, hbottom, Option.bind_eq_bind, Option.bind_some,
    reduceCtorEq] at h

theorem getbbox_some {im : Image} {box : Box} (h : getbbox im = some box) :
    box.left < box.right ∧ box.right ≤ im.width ∧ box.top < box.bottom ∧ box.bottom ≤ im.height ∧
      ∀ x y, x < im.width → y < im.height → im.pixel x y ≠ (0, 0, 0) → box.Contains x y := by
  rw [getbbox] at h
  simp only [Option.bind_eq_bind, Option.bind_eq_some_iff] at h
  rcases h with ⟨left, hleft, top, htop, right, hright, bottom, hbottom, hbox⟩
  rw [Option.some.injEq] at hbox
  subst hbox
  rw [List.min?_eq_some_iff] at hleft htop
  rw [List.max?_eq_some_iff] at hright hbottom
  refine ⟨?_, ?_, ?_, ?_, ?_⟩
  · exact Nat.lt_succ_of_le (hleft.2 right hright.1)
  · exact (mem_columns.mp hright.1).1
  · exact Nat.lt_succ_of_le (htop.2 bottom hbottom.1)
  · exact (mem_rows.mp hbottom.1).1
  · intro x y hx hy hne
    have hcolumn := mem_columns.mpr ⟨hx, y, hy, hne⟩
    have hrow := mem_rows.mpr ⟨hy, x, hx, hne⟩
    exact ⟨hleft.2 x hcolumn, Nat.lt_succ_of_le (hright.2 x hcolumn), htop.2 y hrow,
      Nat.lt_succ_of_le (hbottom.2 y hrow)⟩

theorem byteAt_crop {im : Image} {box : Box} (band : Band) {x y : ℕ}
    (hx : x < box.right - box.left) (hy : y < box.bottom - box.top) :
    (crop im box).byteAt band x y = im.byteAt band (box.left + x) (box.top + y) := by
  have hlt := index_lt hx hy
  have hmod : (y * (box.right - box.left) + x) % (box.right - box.left) = x := by
    rw [Nat.mul_add_mod', Nat.mod_eq_of_lt hx]
  have hdiv : (y * (box.right - box.left) + x) / (box.right - box.left) = y := by
    rw [Nat.mul_comm, Nat.mul_add_div (by omega), Nat.div_eq_of_lt hx, Nat.add_zero]
  rw [Image.byteAt, crop]
  simp only [List.getD_eq_getElem?_getD, List.getElem?_map]
  rw [List.getElem?_range hlt, Option.map_some, Option.getD_some, hmod, hdiv]

theorem pixel_crop {im : Image} {box : Box} {x y : ℕ} (hx : x < box.right - box.left)
    (hy : y < box.bottom - box.top) :
    (crop im box).pixel x y = im.pixel (box.left + x) (box.top + y) := by
  simp only [Image.pixel, byteAt_crop _ hx hy]

/-- {lit}`PIL` -/
def pillow : Imaging where
  difference := difference
  getbbox := getbbox
  crop := crop
  size_difference im im' hwidth hheight := by
    rw [difference, dif_pos ⟨hwidth, hheight⟩]
    exact ⟨rfl, rfl⟩
  pixel_difference _ _ hwidth hheight _ _ hx hy := pixel_difference hwidth hheight hx hy
  getbbox_none _ h _ _ hx hy := getbbox_none h hx hy
  getbbox_some _ _ h := getbbox_some h
  size_crop _ _ _ _ _ _ := ⟨rfl, rfl⟩
  pixel_crop _ _ _ _ _ _ _ _ hx hy := pixel_crop hx hy

end Painter
end VialQmk
