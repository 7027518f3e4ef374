import VialQmk.Painter.QgfWriter
import VialQmk.Painter.QgfPlayer
import Mathlib.Data.List.Chain

/-!
# Quantum Painter - from the writer to the panel

Frames that have been saved to a file are drawn on a panel one after the other.  A frame of which
only a rectangle has been written goes over the picture of the frame before.

Main results:

- Definition {lit}`Reproduces`: the file is saved, accepted, and drawn pixel for pixel.
- Definition {lit}`Reproducible`: what the frames have to be like.
- Theorem {lit}`reproduces_iff`: the one if and only if the other.
-/

namespace VialQmk
namespace Painter

/-! ## What is claimed -/

/-- A panel shows an image at some place. -/
def Panel.Shows (p : Panel) (x y : ℕ) (im : Image) : Prop :=
  ∀ px < im.width, ∀ py < im.height, p.picture (x + px) (y + py) = im.pixel px py

/-- The frames are saved to a file, which is accepted.  At each place of a panel where the image
fits, and whatever the panel has shown before, the frames that are drawn one after the other are
shown.  So are the ones of an animation, up to a delay of zero. -/
def Reproduces (lib : Imaging) (frames : List Frame) (useRle useDeltas : Bool)
    (width height : ℕ) : Prop :=
  ∃ file, save lib frames useRle useDeltas = some file ∧
    (validateStream (makeMemoryStream file)).2 = true ∧
    ∃ image, loadImageMem file = some image ∧ image.frameCount = frames.length ∧
      ∀ buffer panel x y, x + width ≤ 65536 → y + height ≤ 65536 →
        ∀ round, ∀ frame ∈ frames[round % frames.length]?,
          (drawFrames buffer panel x y image (round + 1)).2.1.Shows x y frame.image ∧
            ((∀ last < round, ∀ frame ∈ frames[last % frames.length]?, frame.delay ≠ 0) →
              (animate buffer panel x y image (round + 1)).panel.Shows x y frame.image)

section RoundTrip

variable (lib : Imaging) (useRle useDeltas : Bool)

/-- The bytes of a frame: two blocks, perhaps one for a rectangle, and the data. -/
def frameSize (frame : Image) (lastFrame : Option Image) : ℕ :=
  16 + (if (deltaBox lib useRle useDeltas frame lastFrame).isSome then 13 else 0) +
    (chosen useRle (written lib useRle useDeltas frame lastFrame).rgb).2.length

/-- The bytes of all frames. -/
def framesSize : Option Image → List Frame → ℕ
  | _, [] => 0
  | lastFrame, frame :: frames =>
    frameSize lib useRle useDeltas frame.image lastFrame + framesSize (some frame.image) frames

/-- The numbers fit into the fields of the file and of the firmware, and no frame is written as a
rectangle unless its data are compressed. -/
structure Reproducible (frames : List Frame) (width height : ℕ) : Prop where
  pixels : width * height * 24 < 4294967296
  width : width < 65536
  height : height < 65536
  count : frames.length < 65536
  size : 28 + 4 * frames.length + framesSize lib useRle useDeltas none frames < 2147483648
  bound : useRle = true ∨ frames.IsChain fun last frame =>
    deltaBox lib useRle useDeltas frame.image (some last.image) = none

variable {lib useRle useDeltas} {width height : ℕ} {frames : List Frame}

/-! ## The blocks of the frames -/

theorem length_frameBlock (frame : Frame) (lastFrame : Option Image) :
    (frameBlock lib useRle useDeltas frame lastFrame).bytes.length =
      frameSize lib useRle useDeltas frame.image lastFrame := by
  rw [FrameBlock.bytes, List.length_append, List.length_append, writeData, List.length_append,
    FrameBlock.length_descriptor, length_blockHeader, frameSize, frameBlock]
  cases deltaBox lib useRle useDeltas frame.image lastFrame with
  | none => simp; omega
  | some box => simp; omega

theorem length_frameBlocks_bytes (lastFrame : Option Image) :
    ((frameBlocks lib useRle useDeltas lastFrame frames).flatMap FrameBlock.bytes).length =
      framesSize lib useRle useDeltas lastFrame frames := by
  induction frames generalizing lastFrame with
  | nil => rfl
  | cons frame frames ih =>
    rw [frameBlocks, List.flatMap_cons, List.length_append, length_frameBlock, ih, framesSize]

theorem writable_last_iff (lastFrame : Option Image) :
    Writable lib useRle useDeltas lastFrame frames ↔
      useRle = true ∨ (∀ frame ∈ frames.head?,
        deltaBox lib useRle useDeltas frame.image lastFrame = none) ∧
        frames.IsChain fun last frame =>
          deltaBox lib useRle useDeltas frame.image (some last.image) = none := by
  induction frames generalizing lastFrame with
  | nil => simp [Writable]
  | cons frame frames ih =>
    rw [Writable, ih]
    cases frames with
    | nil => simp
    | cons next frames =>
      simp only [List.head?_cons, Option.mem_some_iff, forall_eq', List.isChain_cons_cons]
      tauto

theorem deltaBox_none (frame : Image) :
    deltaBox lib useRle useDeltas frame none = none := by
  unfold deltaBox
  split_ifs <;> rfl

theorem writable_iff :
    Writable lib useRle useDeltas none frames ↔ useRle = true ∨ frames.IsChain fun last frame =>
      deltaBox lib useRle useDeltas frame.image (some last.image) = none := by
  simp [writable_last_iff, deltaBox_none]

/-- The frame before. -/
def lastOf (lastFrame : Option Image) (frames : List Frame) : ℕ → Option Image
  | 0 => lastFrame
  | i + 1 => frames[i]?.map Frame.image

theorem frameBlocks_getElem? {lastFrame : Option Image} {i : ℕ} {frame : Frame}
    (h : frames[i]? = some frame) :
    (frameBlocks lib useRle useDeltas lastFrame frames)[i]? =
      some (frameBlock lib useRle useDeltas frame (lastOf lastFrame frames i)) := by
  induction frames generalizing lastFrame i with
  | nil => cases h
  | cons first frames ih =>
    cases i with
    | zero =>
      rw [List.getElem?_cons_zero, Option.some.injEq] at h
      rw [frameBlocks, List.getElem?_cons_zero, h]
      rfl
    | succ i =>
      rw [List.getElem?_cons_succ] at h
      rw [frameBlocks, List.getElem?_cons_succ, ih h]
      cases i <;> rfl

theorem Uniform.of_lastOf (h : Uniform width height frames) {i : ℕ} {last : Image}
    (hlast : lastOf none frames i = some last) : last.width = width ∧ last.height = height := by
  cases i with
  | zero => cases hlast
  | succ i =>
    rcases Option.map_eq_some_iff.mp hlast with ⟨frame, hframe, rfl⟩
    exact h.size frame (List.mem_of_getElem? hframe)

/-- The rectangle of a frame is one of the image. -/
theorem Uniform.deltaBox_bounds (h : Uniform width height frames) {i : ℕ} {frame : Frame} {box : Box}
    (hframe : frames[i]? = some frame)
    (hbox : deltaBox lib useRle useDeltas frame.image (lastOf none frames i) = some box) :
    box.left < box.right ∧ box.right ≤ width ∧ box.top < box.bottom ∧ box.bottom ≤ height := by
  have hsize := h.size frame (List.mem_of_getElem? hframe)
  have hbounds := Painter.deltaBox_bounds (fun last hlast => by
    rw [hsize.1, hsize.2, (h.of_lastOf hlast).1, (h.of_lastOf hlast).2]
    exact ⟨rfl, rfl⟩) hbox
  rwa [hsize.1, hsize.2] at hbounds

theorem Uniform.frameBlock_fits (h : Uniform width height frames) (hwidth : width < 65536)
    (hheight : height < 65536) {i : ℕ} {frame : Frame} (hframe : frames[i]? = some frame) :
    (frameBlock lib useRle useDeltas frame (lastOf none frames i)).Fits := by
  refine ⟨h.delay frame (List.mem_of_getElem? hframe), ?_⟩
  intro box hbox
  rcases Option.map_eq_some_iff.mp hbox with ⟨box', hbox', rfl⟩
  rcases h.deltaBox_bounds hframe hbox' with ⟨hleft, hright, htop, hbottom⟩
  dsimp only
  omega

theorem Uniform.frameBlocks_fit (h : Uniform width height frames) (hwidth : width < 65536)
    (hheight : height < 65536) :
    ∀ b ∈ frameBlocks lib useRle useDeltas none frames, b.Fits := by
  intro b hb
  rcases List.mem_iff_getElem?.mp hb with ⟨i, hi⟩
  have hlt : i < frames.length := by
    rw [← @length_frameBlocks lib useRle useDeltas none frames]
    exact (List.getElem?_eq_some_iff.mp hi).1
  have hframe := List.getElem?_eq_getElem hlt
  rw [frameBlocks_getElem? hframe, Option.some.injEq] at hi
  rw [← hi]
  exact h.frameBlock_fits hwidth hheight hframe

/-- The numbers of the file fit. -/
theorem Reproducible.layoutFits (h : Reproducible lib useRle useDeltas frames width height) :
    LayoutFits width height (frameBlocks lib useRle useDeltas none frames) := by
  refine ⟨?_, h.width, h.height, ?_⟩
  · rw [length_layout, length_frameBlocks_bytes, length_frameBlocks]
    exact h.size
  · rw [length_frameBlocks]
    exact h.count

/-! ## One frame -/

/-- What is written of a frame goes over the picture of the frame before. -/
theorem shows_written {frame last : Image} {box : Box} {panel : Panel} {x y : ℕ}
    (hwidth : frame.width = last.width) (hheight : frame.height = last.height)
    (hbox : lib.getbbox (lib.difference frame last) = some box) (hlast : panel.Shows x y last) :
    ((panel.window (x + box.left) (y + box.top) (lib.crop frame box)).puts
      (lib.crop frame box).pixels).Shows x y frame := by
  rcases lib.getbbox_some _ _ hbox with ⟨hleft, hright, htop, hbottom, hdiffer⟩
  rcases lib.size_difference frame last hwidth hheight with ⟨hdwidth, hdheight⟩
  rw [hdwidth] at hright hdiffer
  rw [hdheight] at hbottom hdiffer
  rcases lib.size_crop frame box hleft hright htop hbottom with ⟨hcwidth, hcheight⟩
  intro px hpx py hpy
  by_cases hin : box.Contains px py
  · rcases hin with ⟨hx, hx', hy, hy'⟩
    have hcx : px - box.left < (lib.crop frame box).width := by omega
    have hcy : py - box.top < (lib.crop frame box).height := by omega
    have hput := Panel.puts_image (p := panel) (l := x + box.left) (t := y + box.top) hcx hcy
    rw [lib.pixel_crop frame box hleft hright htop hbottom _ _ (hcwidth ▸ hcx) (hcheight ▸ hcy),
      Nat.add_sub_cancel' hx, Nat.add_sub_cancel' hy, Nat.add_assoc, Nat.add_sub_cancel' hx,
      Nat.add_assoc, Nat.add_sub_cancel' hy] at hput
    exact hput
  · have hsame : frame.pixel px py = last.pixel px py := by
      rw [← lib.pixel_difference frame last hwidth hheight px py hpx hpy]
      by_contra hne
      exact hin (hdiffer px py hpx hpy hne)
    rw [Panel.puts_image_outside (by omega) (by omega), hsame]
    · exact hlast px (hwidth ▸ hpx) py (hheight ▸ hpy)
    · unfold Box.Contains at hin
      omega

theorem take_pixelsSent {im : Image} (h : im.width * im.height * 24 < 4294967296) :
    im.pixels.take (pixelsSent im) = im.pixels := by
  apply List.take_of_length_le
  rw [Image.length_pixels, pixelsSent, Nat.mod_eq_of_lt h]
  omega

/-- The rectangle that is written, with the frame it is compared to. -/
theorem deltaBox_some {frame : Image} {lastFrame : Option Image} {box : Box}
    (h : deltaBox lib useRle useDeltas frame lastFrame = some box) :
    ∃ last, lastFrame = some last ∧ lib.getbbox (lib.difference frame last) = some box := by
  unfold deltaBox at h
  split_ifs at h
  simp only [Option.bind_eq_bind, Option.bind_eq_some_iff] at h
  rcases h with ⟨last, hlast, box', hbox, hsmall⟩
  split_ifs at hsmall
  rw [Option.some.injEq] at hsmall
  subst hsmall
  exact ⟨last, hlast, hbox⟩

/-- A frame is drawn over the one before. -/
theorem Reproducible.drawImage (h : Reproducible lib useRle useDeltas frames width height)
    (hu : Uniform width height frames) {i : ℕ} {frame : Frame} (hframe : frames[i]? = some frame)
    {image : ImageHandle}
    (hs : image.stream.buffer = layout width height
      (frameBlocks lib useRle useDeltas none frames))
    (himage : image.width = width ∧ image.height = height) (hwidth : 0 < width)
    (hheight : 0 < height) {x y : ℕ} (hx : x + width ≤ 65536) (hy : y + height ≤ 65536)
    (buffer : PixdataBuffer) {panel : Panel}
    (hlast : ∀ last, lastOf none frames i = some last → panel.Shows x y last) :
    ∃ s panel' info, drawImage buffer panel x y image i =
        ({ image with stream := s }, panel', some info) ∧ info.delay = frame.delay ∧
      s.buffer = layout width height (frameBlocks lib useRle useDeltas none frames) ∧
      panel'.Shows x y frame.image := by
  have hsize := hu.size frame (List.mem_of_getElem? hframe)
  rcases List.getElem?_eq_some_iff.mp (@frameBlocks_getElem? lib useRle useDeltas frames none
    _ frame hframe) with ⟨hi, hblock⟩
  have hpixels := h.pixels
  have hdelay : (frameBlocks lib useRle useDeltas none frames)[i].info.delay = frame.delay := by
    rw [hblock]
    rfl
  cases hbox : deltaBox lib useRle useDeltas frame.image (lastOf none frames i) with
  | none =>
    have hwritten : written lib useRle useDeltas frame.image (lastOf none frames i) =
        frame.image := by
      rw [written, hbox]
    have hencode := encode_chosen useRle frame.image.rgb
    have hwindow : FrameBlock.Window (frameBlock lib useRle useDeltas frame
        (lastOf none frames i)) image x y x y frame.image := by
      rw [FrameBlock.Window, frameBlock, hbox]
      exact ⟨rfl, rfl, hsize.1.trans himage.1.symm, hsize.2.trans himage.2.symm⟩
    have hdraw := drawImage_block h.layoutFits hs hi
      (hblock ▸ hu.frameBlock_fits h.width h.height hframe)
      (show encode _ frame.image.rgb = some (_, _) by
        rw [hblock, frameBlock, hwritten]; exact hencode)
      (by rwa [hsize.1]) (by rwa [hsize.2]) (by rwa [hsize.1]) (by rwa [hsize.2])
      (by rw [hsize.1, hsize.2]; omega) (hblock ▸ hwindow) buffer panel
    rcases hdraw with ⟨s, hdraw, hbuffer⟩
    rw [take_pixelsSent (by rwa [hsize.1, hsize.2])] at hdraw
    exact ⟨s, _, _, hdraw, hdelay, hbuffer, fun px hpx py hpy => Panel.puts_image hpx hpy⟩
  | some box =>
    rcases deltaBox_some hbox with ⟨last, hlastOf, hgetbbox⟩
    rcases hu.deltaBox_bounds hframe hbox with ⟨hleft, hright, htop, hbottom⟩
    have hlastSize := hu.of_lastOf hlastOf
    rcases lib.size_crop frame.image box hleft (by rwa [hsize.1]) htop (by rwa [hsize.2]) with
      ⟨hcwidth, hcheight⟩
    have hwritten : written lib useRle useDeltas frame.image (lastOf none frames i) =
        lib.crop frame.image box := by
      rw [written, hbox]
    have harea : (lib.crop frame.image box).width * (lib.crop frame.image box).height ≤
        width * height := by
      apply Nat.mul_le_mul <;> omega
    have hwindow : FrameBlock.Window (frameBlock lib useRle useDeltas frame
        (lastOf none frames i)) image x y (x + box.left) (y + box.top)
        (lib.crop frame.image box) := by
      rw [FrameBlock.Window, frameBlock, hbox]
      dsimp only [Option.map_some]
      omega
    have hdraw := drawImage_block h.layoutFits hs hi
      (hblock ▸ hu.frameBlock_fits h.width h.height hframe)
      (show encode _ (lib.crop frame.image box).rgb = some (_, _) by
        rw [hblock, frameBlock, hwritten]; exact encode_chosen useRle _)
      (by omega) (by omega) (by omega) (by omega) (by omega) (hblock ▸ hwindow) buffer panel
    rcases hdraw with ⟨s, hdraw, hbuffer⟩
    rw [take_pixelsSent (by omega)] at hdraw
    refine ⟨s, _, _, hdraw, hdelay, hbuffer, ?_⟩
    exact shows_written (by rw [hsize.1, hlastSize.1]) (by rw [hsize.2, hlastSize.2]) hgetbbox
      (hlast last hlastOf)

/-! ## Frame after frame -/

variable (lib useRle useDeltas width height frames) in
/-- Some frames have been drawn, and the panel shows the last one of them. -/
structure Playing (x y round : ℕ) (drawn : ImageHandle × Panel × Option FrameInfo) : Prop where
  size : drawn.1.width = width ∧ drawn.1.height = height
  stream : drawn.1.stream.buffer = layout width height
    (frameBlocks lib useRle useDeltas none frames)
  shows : ∀ last, round = last + 1 → ∀ frame ∈ frames[last % frames.length]?,
    drawn.2.1.Shows x y frame.image ∧ ∃ info, drawn.2.2 = some info ∧ info.delay = frame.delay

/-- One more frame. -/
theorem Playing.next (h : Reproducible lib useRle useDeltas frames width height)
    (hu : Uniform width height frames) (hne : frames ≠ []) (hwidth : 0 < width)
    (hheight : 0 < height) {x y round : ℕ} (hx : x + width ≤ 65536) (hy : y + height ≤ 65536)
    (buffer : PixdataBuffer) {drawn : ImageHandle × Panel × Option FrameInfo}
    (hp : Playing lib useRle useDeltas width height frames x y round drawn) :
    Playing lib useRle useDeltas width height frames x y (round + 1)
      (Painter.drawImage buffer drawn.2.1 x y drawn.1 (round % frames.length)) := by
  have hcount : 0 < frames.length := List.length_pos_iff.mpr hne
  have hi : round % frames.length < frames.length := Nat.mod_lt _ hcount
  have hframe := List.getElem?_eq_getElem hi
  have hlast : ∀ last, lastOf none frames (round % frames.length) = some last →
      drawn.2.1.Shows x y last := by
    intro last hlast
    cases hround : round % frames.length with
    | zero =>
      rw [hround] at hlast
      cases hlast
    | succ i =>
      rw [hround] at hlast
      rcases Option.map_eq_some_iff.mp hlast with ⟨frame, hframe', rfl⟩
      have hpos : 0 < round := by
        apply Nat.pos_of_ne_zero
        rintro rfl
        rw [Nat.zero_mod] at hround
        cases hround
      have hprev : (round - 1) % frames.length = i := by
        have hdiv := Nat.div_add_mod round frames.length
        have hsub : round - 1 = frames.length * (round / frames.length) + i := by omega
        rw [hsub, Nat.mul_add_mod, Nat.mod_eq_of_lt (by omega)]
      exact (hp.shows (round - 1) (by omega) frame (by rw [hprev]; exact hframe')).1
  rcases h.drawImage hu hframe hp.stream hp.size hwidth hheight hx hy buffer hlast with
    ⟨s, panel, info, hdraw, hdelay, hbuffer, hshows⟩
  rw [hdraw]
  refine ⟨hp.size, hbuffer, ?_⟩
  intro last hround frame hmem
  have hsame : last = round := by omega
  subst hsame
  rw [hframe, Option.mem_some_iff] at hmem
  subst hmem
  exact ⟨hshows, info, rfl, hdelay⟩

/-- All frames. -/
theorem Reproducible.drawFrames (h : Reproducible lib useRle useDeltas frames width height)
    (hu : Uniform width height frames) (hne : frames ≠ []) (hwidth : 0 < width)
    (hheight : 0 < height) {x y : ℕ} (hx : x + width ≤ 65536) (hy : y + height ≤ 65536)
    (buffer : PixdataBuffer) (panel : Panel) {image : ImageHandle}
    (hsize : image.width = width ∧ image.height = height ∧ image.frameCount = frames.length)
    (hs : image.stream.buffer = layout width height
      (frameBlocks lib useRle useDeltas none frames)) (round : ℕ) :
    Playing lib useRle useDeltas width height frames x y round
      (drawFrames buffer panel x y image round) := by
  induction round with
  | zero =>
    exact ⟨⟨hsize.1, hsize.2.1⟩, hs, fun last hlast => absurd hlast (Nat.succ_ne_zero last).symm⟩
  | succ round ih =>
    rw [Painter.drawFrames, hsize.2.2]
    exact ih.next h hu hne hwidth hheight hx hy buffer

/-- An image without pixels. -/
theorem Panel.shows_of_empty {im : Image} (h : im.width = 0 ∨ im.height = 0) (p : Panel)
    (x y : ℕ) : p.Shows x y im := by
  intro px hpx py hpy
  omega

/-- Each frame is shown, also by an animation that has come so far. -/
theorem Reproducible.shows (h : Reproducible lib useRle useDeltas frames width height)
    (hu : Uniform width height frames) (hne : frames ≠ []) {x y : ℕ} (hx : x + width ≤ 65536)
    (hy : y + height ≤ 65536) (buffer : PixdataBuffer) (panel : Panel) {image : ImageHandle}
    (hsize : image.width = width ∧ image.height = height ∧ image.frameCount = frames.length)
    (hs : image.stream.buffer = layout width height
      (frameBlocks lib useRle useDeltas none frames)) {round : ℕ} {frame : Frame}
    (hframe : frame ∈ frames[round % frames.length]?) :
    (Painter.drawFrames buffer panel x y image (round + 1)).2.1.Shows x y frame.image ∧
      ((∀ last < round, ∀ frame ∈ frames[last % frames.length]?, frame.delay ≠ 0) →
        (animate buffer panel x y image (round + 1)).panel.Shows x y frame.image) := by
  have hframeSize := hu.size frame (List.mem_of_getElem? hframe)
  by_cases hempty : frame.image.width = 0 ∨ frame.image.height = 0
  · exact ⟨Panel.shows_of_empty hempty _ x y, fun _ => Panel.shows_of_empty hempty _ x y⟩
  · have hplay := h.drawFrames hu hne (by omega) (by omega) hx hy buffer panel hsize hs
    have hshows := ((hplay (round + 1)).shows round rfl frame hframe).1
    have hcount : 0 < frames.length := List.length_pos_iff.mpr hne
    refine ⟨hshows, fun hdelay => ?_⟩
    rw [animate_panel (hsize.2.2 ▸ hcount)]
    · exact hshows
    · intro last hlast
      have hframe' := List.getElem?_eq_getElem (Nat.mod_lt last hcount)
      rcases ((hplay (last + 1)).shows last rfl _ hframe').2 with ⟨info, hinfo, hsame⟩
      exact ⟨info, hinfo, hsame ▸ hdelay last hlast _ hframe'⟩

/-! ## Both directions -/

theorem Reproducible.save (h : Reproducible lib useRle useDeltas frames width height)
    (hu : Uniform width height frames) (hne : frames ≠ []) :
    save lib frames useRle useDeltas =
      some (layout width height (frameBlocks lib useRle useDeltas none frames)) := by
  rw [save_eq hu hne]
  exact writeBlocks_frames hu h.width h.height h.count (writable_iff.mpr h.bound)
    (h.layoutFits.size.trans (by decide))

theorem Reproducible.reproduces (h : Reproducible lib useRle useDeltas frames width height)
    (hu : Uniform width height frames) (hne : frames ≠ []) :
    Reproduces lib frames useRle useDeltas width height := by
  have hfit : ∀ b ∈ frameBlocks lib useRle useDeltas none frames, b.Fits :=
    hu.frameBlocks_fit h.width h.height
  rcases h.layoutFits.loadImageMem hfit with ⟨t, hload, hbuffer⟩
  rcases h.layoutFits.validateStream (s := makeMemoryStream _) hfit rfl with ⟨t', hvalid, -⟩
  refine ⟨_, h.save hu hne, congrArg Prod.snd hvalid, _, hload, length_frameBlocks none frames, ?_⟩
  intro buffer panel x y hx hy round frame hframe
  exact h.shows hu hne hx hy buffer panel ⟨rfl, rfl, length_frameBlocks none frames⟩ hbuffer hframe

theorem add_one_ne (a : UInt8) : a + 1 ≠ a := by
  intro h
  have hnat := congrArg UInt8.toNat h
  have hlt := a.toNat_lt
  rw [UInt8.toNat_add, UInt8.toNat_one] at hnat
  omega

/-- Too many pixels for a number of 32 bits: the last one is not drawn. -/
theorem not_shows_of_pixels (hu : Uniform width height frames) (hne : frames ≠ [])
    (hfits : LayoutFits width height (frameBlocks lib useRle useDeltas none frames))
    (hpixels : 4294967296 ≤ width * height * 24) {image : ImageHandle}
    (hload : loadImageMem (layout width height (frameBlocks lib useRle useDeltas none frames)) =
      some image) :
    ∃ buffer panel, ∃ frame ∈ frames[0]?,
      ¬ (drawFrames buffer panel 0 0 image 1).2.1.Shows 0 0 frame.image := by
  have hfit : ∀ b ∈ frameBlocks lib useRle useDeltas none frames, b.Fits :=
    hu.frameBlocks_fit hfits.width hfits.height
  rcases hfits.loadImageMem hfit with ⟨t, hload', hbuffer⟩
  rw [hload', Option.some.injEq] at hload
  have hfirst : ∃ frame, frames[0]? = some frame :=
    ⟨_, List.getElem?_eq_getElem (List.length_pos_iff.mpr hne)⟩
  rcases hfirst with ⟨frame, hframe⟩
  have hsize := hu.size frame (List.mem_of_getElem? hframe)
  have hwidth : 0 < width := by
    apply Nat.pos_of_ne_zero
    rintro rfl
    simp at hpixels
  have hheight : 0 < height := by
    apply Nat.pos_of_ne_zero
    rintro rfl
    simp at hpixels
  rcases List.getElem?_eq_some_iff.mp (@frameBlocks_getElem? lib useRle useDeltas frames none
    _ frame hframe) with ⟨hi, hblock⟩
  have hwritten : written lib useRle useDeltas frame.image (lastOf none frames 0) =
      frame.image := by
    rw [written, lastOf, deltaBox_none]
  have hwindow : FrameBlock.Window (frameBlock lib useRle useDeltas frame
      (lastOf none frames 0)) image 0 0 0 0 frame.image := by
    rw [FrameBlock.Window, frameBlock, lastOf, deltaBox_none, ← hload]
    exact ⟨rfl, rfl, hsize.1, hsize.2⟩
  have harea : frame.image.width * frame.image.height < 4294967296 := by
    have hle : width * height ≤ 65535 * 65535 :=
      Nat.mul_le_mul (Nat.le_of_lt_succ hfits.width) (Nat.le_of_lt_succ hfits.height)
    rw [hsize.1, hsize.2]
    omega
  have hsent : pixelsSent frame.image < frame.image.width * frame.image.height := by
    rw [pixelsSent, hsize.1, hsize.2]
    omega
  let c : Rgb := ((frame.image.pixel (frame.image.width - 1) (frame.image.height - 1)).1 + 1, 0, 0)
  let panel : Panel := ⟨fun _ _ => c, 0, 0, 0, 0, 0⟩
  let buffer : PixdataBuffer := ⟨1024, by decide, by decide⟩
  have hwidth' : 0 < frame.image.width := by rwa [hsize.1]
  have hheight' : 0 < frame.image.height := by rwa [hsize.2]
  have hdraw := drawImage_block hfits (hload ▸ hbuffer) hi
    (hblock ▸ hu.frameBlock_fits hfits.width hfits.height hframe)
    (show encode _ frame.image.rgb = some (_, _) by
      rw [hblock, frameBlock, hwritten]; exact encode_chosen useRle _)
    hwidth' hheight' (by rw [hsize.1]; have := hfits.width; omega)
    (by rw [hsize.2]; have := hfits.height; omega) harea (hblock ▸ hwindow) buffer panel
  rcases hdraw with ⟨s, hdraw, -⟩
  refine ⟨buffer, panel, frame, hframe, ?_⟩
  intro hshows
  have hlast := hshows (frame.image.width - 1) (by omega) (frame.image.height - 1) (by omega)
  have hpanel : (drawFrames buffer panel 0 0 image 1).2.1 =
      (panel.window 0 0 frame.image).puts (frame.image.pixels.take (pixelsSent frame.image)) := by
    rw [drawFrames, drawFrames]
    dsimp only
    rw [Nat.zero_mod, hdraw]
  rw [hpanel, Panel.puts_part hwidth' hheight' hsent] at hlast
  exact add_one_ne _ (congrArg Prod.fst hlast)

/-- Exactly the frames whose numbers fit, and of which none is written as a rectangle without
compressed data, are reproduced. -/
theorem reproduces_iff (hu : Uniform width height frames) (hne : frames ≠ []) :
    Reproduces lib frames useRle useDeltas width height ↔
      Reproducible lib useRle useDeltas frames width height := by
  constructor
  · rintro ⟨file, hsave, -, image, hload, -, hshows⟩
    rw [save_eq hu hne] at hsave
    have hall : width < 65536 ∧ height < 65536 ∧ frames.length < 65536 ∧
        Writable lib useRle useDeltas none frames ∧
        (layout width height (frameBlocks lib useRle useDeltas none frames)).length <
          4294967296 := by
      by_contra hnot
      rw [writeBlocks_none hu hnot] at hsave
      cases hsave
    rcases hall with ⟨hwidth, hheight, hcount, hwritable, hlarge⟩
    rw [writeBlocks_frames hu hwidth hheight hcount hwritable hlarge, Option.some.injEq] at hsave
    subst hsave
    have hsize : (layout width height
        (frameBlocks lib useRle useDeltas none frames)).length < 2147483648 := by
      by_contra hnot
      rw [loadImageMem_large _ (Nat.le_of_not_lt hnot)] at hload
      · cases hload
      · rw [length_layout] at hlarge
        exact ⟨hlarge, hwidth, hheight, by rwa [layoutDescriptor, length_frameBlocks]⟩
    have hfits : LayoutFits width height (frameBlocks lib useRle useDeltas none frames) :=
      ⟨hsize, hwidth, hheight, by rwa [length_frameBlocks]⟩
    refine ⟨?_, hwidth, hheight, hcount, ?_, writable_iff.mp hwritable⟩
    · by_contra hnot
      rcases not_shows_of_pixels hu hne hfits (Nat.le_of_not_lt hnot) hload with
        ⟨buffer, panel, frame, hframe, hnotShows⟩
      have hshown := (hshows buffer panel 0 0 (by omega) (by omega) 0 frame
        (by rwa [Nat.zero_mod])).1
      rw [Nat.zero_add] at hshown
      exact hnotShows hshown
    · rw [length_layout, length_frameBlocks_bytes, length_frameBlocks] at hsize
      exact hsize
  · intro h
    exact h.reproduces hu hne

end RoundTrip

/-! ## A dot that blinks -/

/-- Four pixels, the first one of some red. -/
def dot (c : UInt8) : Image where
  width := 2
  height := 2
  tobytes
    | .red => [c, 0, 0, 0]
    | .green => [0, 0, 0, 0]
    | .blue => [0, 0, 0, 0]
    | .palette => [0, 0, 0, 0]
  getpalette := []
  length_tobytes band := by cases band <;> rfl

/-- Two frames that differ in the first pixel. -/
def blink : List Frame :=
  [⟨dot 0, some 100⟩, ⟨dot 255, some 100⟩]

theorem uniform_blink : Uniform 2 2 blink := by
  constructor
  · intro frame hframe
    rcases List.mem_pair.mp hframe with rfl | rfl
    · exact ⟨rfl, rfl⟩
    · exact ⟨rfl, rfl⟩
  · intro frame hframe
    rcases List.mem_pair.mp hframe with rfl | rfl
    · decide
    · decide

/-- The dot with compressed data. -/
theorem reproduces_iff_blink : Reproduces pillow blink true true 2 2 :=
  (reproduces_iff uniform_blink (by decide)).mpr
    ⟨by decide, by decide, by decide, by decide, by decide +kernel, Or.inl rfl⟩

/-- Without compressed data the writer fails at the second frame, of which it would write three
bytes instead of twelve. -/
theorem not_reproduces_blink :
    Uniform 2 2 blink ∧ blink ≠ [] ∧ ¬ Reproduces pillow blink false true 2 2 := by
  refine ⟨uniform_blink, by decide, ?_⟩
  rintro ⟨file, hsave, -⟩
  have hnone : save pillow blink false true = none := by decide +kernel
  rw [hnone] at hsave
  cases hsave

end Painter
end VialQmk
