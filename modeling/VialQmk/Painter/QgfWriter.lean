import VialQmk.Painter.QgfFormat

/-!
# Quantum Painter - the writer of graphics files

The writer goes through the frames, and writes each of them whole, or only the rectangle in which
it differs from the one before, compressed or not, whichever takes fewer bytes.  When it is done it
goes back and writes the first two blocks again, with the numbers it knows by then.

Main results:

- Definition {lit}`compressImage`, {lit}`writeFrame`, {lit}`save`: the functions of the writer for
  the format {lit}`rgb888`, which has no palette.
- Definition {lit}`frameBlock`: the blocks of a frame.
- Theorem {lit}`save_eq`: the file that is saved.
-/

namespace VialQmk
namespace Painter

/-! ## Frames -/

/-- A frame: its image, and the {lit}`duration` in its {lit}`info`. -/
structure Frame where
  image : Image
  duration : Option ℕ

/-- {lit}`frame.info.get('duration', 1000)` -/
def Frame.delay (frame : Frame) : ℕ :=
  frame.duration.getD 1000

/-- What {lit}`_compress_image` returns -/
structure Compressed where
  bbox : Option Rect
  imageData : List UInt8
  useDeltaThisFrame : Bool
  useRawThisFrame : Bool

/-- {lit}`rle_data`, a name that stays unbound unless there is some -/
def rleData (useRle : Bool) (rawData : List UInt8) : Option (Option (List UInt8)) :=
  if useRle = true then (compressBytesQmkRle rawData).map some else some none

/-- {lit}`use_raw_this_frame` and {lit}`image_data` -/
def chooseData (useRle : Bool) (rawData : List UInt8) (rle : Option (List UInt8)) :
    Option (Bool × List UInt8) :=
  if useRle = false then some (true, rawData)
  else do
    let rle ← rle
    if rawData.length ≤ rle.length then some (true, rawData) else some (false, rle)

/-- {lit}`_compress_image`.  To use an unbound name raises an error. -/
def compressImage (lib : Imaging) (frame : Image) (lastFrame : Option Image)
    (useRle useDeltas : Bool) : Option Compressed := do
  let graphicData ← convertImageBytes frame rgb888
  let rle ← rleData useRle graphicData.2
  let image ← chooseData useRle graphicData.2 rle
  match useDeltas, lastFrame with
  | true, some last =>
    match lib.getbbox (lib.difference frame last) with
    | some box => do
      let bbox : Rect := ⟨box.left, box.top, box.right - 1, box.bottom - 1⟩
      let deltaGraphicData ← convertImageBytes (lib.crop frame box) rgb888
      let deltaRle ← rleData useRle deltaGraphicData.2
      let deltaImage ← chooseData useRle deltaGraphicData.2 deltaRle
      if deltaImage.2.length + 8 < image.2.length then do
        -- here the source assigns {lit}`delta_rle_data` to {lit}`rle_data`
        let _ ← deltaRle
        some ⟨some bbox, deltaImage.2, true, deltaImage.1⟩
      else some ⟨some bbox, image.2, false, image.1⟩
    | none =>
      some ⟨some ⟨0, 0, frame.width - 1, frame.height - 1⟩, image.2, false, image.1⟩
  | _, _ => some ⟨none, image.2, false, image.1⟩

/-! ## The file -/

/-- A file object: what it holds, and where it is read or written next. -/
structure File where
  contents : List UInt8
  position : ℕ

/-- {lit}`fp.write`, which fills up to where it writes, and goes over what is there -/
def File.write (fp : File) (data : List UInt8) : File where
  contents := fp.contents.take fp.position ++
    (List.replicate (fp.position - fp.contents.length) 0 ++
      (data ++ fp.contents.drop (fp.position + data.length)))
  position := fp.position + data.length

/-- A file with its position at the end. -/
def File.ofContents (contents : List UInt8) : File :=
  ⟨contents, contents.length⟩

/-- {lit}`fp.seek` from the start -/
def File.seek (fp : File) (position : ℕ) : File :=
  { fp with position := position }

/-- The file and the offsets of the frames while they are written. -/
structure Writer where
  fp : File
  frameOffsets : List ℕ

/-- The part of {lit}`_write_frame` for the rectangle of a delta frame -/
def writeDelta (outputs : Compressed) (fp : File) : Option File :=
  if outputs.useDeltaThisFrame = true then do
    let bbox ← outputs.bbox
    let delta ← bbox.write
    some (fp.write delta)
  else some fp

/-- {lit}`_write_frame` -/
def writeFrame (lib : Imaging) (useRle useDeltas : Bool) (idx : ℕ) (frame : Frame)
    (lastFrame : Option Frame) (s : Writer) : Option Writer := do
  let outputs ← compressImage lib frame.image (lastFrame.map Frame.image) useRle useDeltas
  let frameOffsets := s.frameOffsets.set idx s.fp.position
  let descriptor ← FrameDescriptor.write ⟨rgb888.imageFormatByte,
    if outputs.useDeltaThisFrame then 0x02 else 0x00,
    if outputs.useRawThisFrame then 0x00 else 0x01, 0xFF, frame.delay⟩
  let fp ← writeDelta outputs (s.fp.write descriptor)
  some ⟨fp.write (writeData outputs.imageData), frameOffsets⟩

/-- {lit}`_for_all_frames` -/
def forAllFrames {σ : Type} (x : ℕ → Frame → Option Frame → σ → Option σ) :
    List Frame → ℕ → Option Frame → σ → Option σ
  | [], _, _, s => some s
  | frame :: frames, frameNum, lastFrame, s => do
    let s ← x frameNum frame lastFrame s
    forAllFrames x frames (frameNum + 1) (some frame) s

/-- The blocks that {lit}`_save` writes to an empty file, the first two of them twice -/
def writeBlocks (lib : Imaging) (frames : List Frame) (useRle useDeltas : Bool)
    (graphicsDescriptor : GraphicsDescriptor) : Option (List UInt8) := do
  let descriptor ← graphicsDescriptor.write
  let fp := (File.ofContents []).write descriptor
  let frameOffsetLocation := fp.position
  let frameOffsets := List.replicate graphicsDescriptor.frameCount 0xFFFFFFFF
  let offsets ← writeOffsets frameOffsets
  let s ← forAllFrames (writeFrame lib useRle useDeltas) frames 0 none
    ⟨fp.write offsets, frameOffsets⟩
  let descriptor ← { graphicsDescriptor with totalFileSize := s.fp.position }.write
  let fp := (s.fp.seek 0).write descriptor
  let offsets ← writeOffsets s.frameOffsets
  some ((fp.seek frameOffsetLocation).write offsets).contents

/-- {lit}`_save`, with {lit}`none` for an error -/
def save (lib : Imaging) (frames : List Frame) (useRle useDeltas : Bool) :
    Option (List UInt8) := do
  let frameSizes ← forAllFrames
    (fun _ frame _ sizes => some (sizes ++ [(frame.image.width, frame.image.height)])) frames 0
    none []
  if frameSizes.dedup.length ≠ 1 then none
  else do
    let size ← frameSizes[0]?
    writeBlocks lib frames useRle useDeltas ⟨0, size.1, size.2, frameSizes.length⟩

/-! ## The choice for a frame -/

/-- The compressed bytes. -/
def rle (rawData : List UInt8) : List UInt8 :=
  (compressBytesQmkRle rawData).getD []

theorem compressBytesQmkRle_eq (rawData : List UInt8) :
    compressBytesQmkRle rawData = some (rle rawData) := by
  rcases compressBytesQmkRle_encodes rawData with ⟨compressed, rest, hcompress, -⟩
  rw [rle, hcompress, Option.getD_some]

/-- The data that are written of some bytes, and whether they are the bytes themselves. -/
def chosen (useRle : Bool) (rawData : List UInt8) : Bool × List UInt8 :=
  if useRle = true ∧ (rle rawData).length < rawData.length then (false, rle rawData)
  else (true, rawData)

theorem rleData_eq (useRle : Bool) (rawData : List UInt8) :
    rleData useRle rawData = some (if useRle = true then some (rle rawData) else none) := by
  rw [rleData, compressBytesQmkRle_eq]
  split_ifs <;> rfl

theorem chooseData_eq (useRle : Bool) (rawData : List UInt8) :
    chooseData useRle rawData (if useRle = true then some (rle rawData) else none) =
      some (chosen useRle rawData) := by
  cases useRle with
  | false => rfl
  | true =>
    simp only [chooseData, chosen, Bool.true_eq_false, if_false, if_true, Option.bind_eq_bind,
      Option.bind_some, true_and]
    by_cases hle : rawData.length ≤ (rle rawData).length
    · rw [if_pos hle, if_neg (by omega)]
    · rw [if_neg hle, if_pos (by omega)]

/-- What is chosen is a way to encode the bytes. -/
theorem encode_chosen (useRle : Bool) (rawData : List UInt8) :
    encode (!(chosen useRle rawData).1) rawData =
      some (if (chosen useRle rawData).1 then 0 else 1, (chosen useRle rawData).2) := by
  by_cases h : useRle = true ∧ (rle rawData).length < rawData.length
  · rw [chosen, if_pos h, Bool.not_false, encode, if_pos rfl, compressBytesQmkRle_eq]
    rfl
  · rw [chosen, if_neg h]
    rfl

section Writing

variable (lib : Imaging) (useRle useDeltas : Bool)

/-- The rectangle of a frame of which only that is written. -/
def deltaBox (frame : Image) (lastFrame : Option Image) : Option Box :=
  if useDeltas = true then do
    let last ← lastFrame
    let box ← lib.getbbox (lib.difference frame last)
    if (chosen useRle (lib.crop frame box).rgb).2.length + 8 <
        (chosen useRle frame.rgb).2.length then some box else none
  else none

/-- The part of a frame that is written. -/
def written (frame : Image) (lastFrame : Option Image) : Image :=
  match deltaBox lib useRle useDeltas frame lastFrame with
  | some box => lib.crop frame box
  | none => frame

/-- The blocks of a frame. -/
def frameBlock (frame : Frame) (lastFrame : Option Image) : FrameBlock :=
  let image := chosen useRle (written lib useRle useDeltas frame.image lastFrame).rgb
  ⟨frame.delay, (deltaBox lib useRle useDeltas frame.image lastFrame).map fun box =>
    { box with right := box.right - 1, bottom := box.bottom - 1 },
    if image.1 then 0x00 else 0x01, image.2⟩

/-- The blocks of all frames. -/
def frameBlocks : Option Image → List Frame → List FrameBlock
  | _, [] => []
  | lastFrame, frame :: frames =>
    frameBlock lib useRle useDeltas frame lastFrame :: frameBlocks (some frame.image) frames

variable {lib useRle useDeltas}

/-- A frame that is written whole. -/
theorem compressImage_whole {frame : Image} {lastFrame : Option Image}
    (h : deltaBox lib useRle useDeltas frame lastFrame = none) :
    ∃ bbox, compressImage lib frame lastFrame useRle useDeltas =
      some ⟨bbox, (chosen useRle frame.rgb).2, false, (chosen useRle frame.rgb).1⟩ := by
  simp only [compressImage, convertImageBytes_rgb888, Option.bind_eq_bind, Option.bind_some,
    rleData_eq, chooseData_eq]
  cases useDeltas with
  | false => exact ⟨none, rfl⟩
  | true =>
    cases lastFrame with
    | none => exact ⟨none, rfl⟩
    | some last =>
      cases hbox : lib.getbbox (lib.difference frame last) with
      | none =>
        simp only [hbox]
        exact ⟨_, rfl⟩
      | some box =>
        rw [deltaBox, if_pos rfl] at h
        simp only [Option.bind_eq_bind, Option.bind_some, hbox] at h
        have hlarge : ¬ (chosen useRle (lib.crop frame box).rgb).2.length + 8 <
            (chosen useRle frame.rgb).2.length := by
          intro hlt
          rw [if_pos hlt] at h
          cases h
        simp only [hbox, if_neg hlarge]
        exact ⟨_, rfl⟩

/-- A frame of which only a rectangle is written, or which raises an error. -/
theorem compressImage_delta {frame : Image} {lastFrame : Option Image} {box : Box}
    (h : deltaBox lib useRle useDeltas frame lastFrame = some box) :
    compressImage lib frame lastFrame useRle useDeltas =
      if useRle = true then
        some ⟨some ⟨box.left, box.top, box.right - 1, box.bottom - 1⟩,
          (chosen useRle (lib.crop frame box).rgb).2, true,
          (chosen useRle (lib.crop frame box).rgb).1⟩
      else none := by
  unfold deltaBox at h
  split_ifs at h with hdeltas
  simp only [Option.bind_eq_bind, Option.bind_eq_some_iff] at h
  rcases h with ⟨last, rfl, box', hbox, hsmall⟩
  split_ifs at hsmall with hlt
  rw [Option.some.injEq] at hsmall
  subst hsmall hdeltas
  simp only [compressImage, convertImageBytes_rgb888, Option.bind_eq_bind, Option.bind_some,
    rleData_eq, chooseData_eq, hbox, if_pos hlt]
  split_ifs <;> rfl

/-! ## Writing to the file -/

theorem File.write_ofContents (contents data : List UInt8) :
    (File.ofContents contents).write data = File.ofContents (contents ++ data) := by
  simp [ofContents, write]

/-- To go over something of the same length. -/
theorem File.write_over {before old after data : List UInt8} (h : data.length = old.length) :
    File.write ⟨before ++ (old ++ after), before.length⟩ data =
      ⟨before ++ (data ++ after), before.length + data.length⟩ := by
  simp [write, h]

/-- The rectangle of a delta frame is one of the image. -/
theorem deltaBox_bounds {frame : Image} {lastFrame : Option Image} {box : Box}
    (hsize : ∀ last ∈ lastFrame, frame.width = last.width ∧ frame.height = last.height)
    (h : deltaBox lib useRle useDeltas frame lastFrame = some box) :
    box.left < box.right ∧ box.right ≤ frame.width ∧ box.top < box.bottom ∧
      box.bottom ≤ frame.height := by
  unfold deltaBox at h
  split_ifs at h with hdeltas
  simp only [Option.bind_eq_bind, Option.bind_eq_some_iff] at h
  rcases h with ⟨last, rfl, box', hbox, hsmall⟩
  split_ifs at hsmall
  rw [Option.some.injEq] at hsmall
  subst hsmall
  have hlast := hsize last rfl
  rcases lib.getbbox_some _ _ hbox with ⟨hleft, hright, htop, hbottom, -⟩
  rw [(lib.size_difference frame last hlast.1 hlast.2).1] at hright
  rw [(lib.size_difference frame last hlast.1 hlast.2).2] at hbottom
  exact ⟨hleft, hright, htop, hbottom⟩

theorem Rect.write_box {box : Box} (hleft : box.left < box.right) (hright : box.right < 65536)
    (htop : box.top < box.bottom) (hbottom : box.bottom < 65536) :
    Rect.write ⟨box.left, box.top, box.right - 1, box.bottom - 1⟩ =
      some (Box.bytes { box with right := box.right - 1, bottom := box.bottom - 1 }) := by
  have hlast : ∀ {n m : ℕ}, m < n → ((n : ℤ) - 1) = ((n - 1 : ℕ) : ℤ) := by
    intro n m hlt
    omega
  rw [write]
  simp only [hlast hleft, hlast htop]
  rw [o16_natCast (by omega), o16_natCast (by omega), o16_natCast (by omega),
    o16_natCast (by omega)]
  rfl

theorem FrameDescriptor.write_eq {delay : ℕ} (hdelay : delay < 65536)
    (format flags compression transparencyIndex : UInt8) :
    write ⟨format, flags, compression, transparencyIndex, delay⟩ =
      some (blockHeader 0x02 6 ++ ([format] ++ ([flags] ++ ([compression] ++
        ([transparencyIndex] ++ LittleEndian.bytes 2 delay))))) := by
  rw [write, o16_natCast hdelay]
  rfl

/-- What is written of a frame after its data have been chosen. -/
theorem writeFrame_of_compress {idx : ℕ} {frame : Frame} {lastFrame : Option Frame}
    {outputs : Compressed} {descriptor delta : List UInt8}
    (hcompress : compressImage lib frame.image (lastFrame.map Frame.image) useRle useDeltas =
      some outputs)
    (hdescriptor : FrameDescriptor.write ⟨rgb888.imageFormatByte,
      if outputs.useDeltaThisFrame then 0x02 else 0x00,
      if outputs.useRawThisFrame then 0x00 else 0x01, 0xFF, frame.delay⟩ = some descriptor)
    (hdelta : (outputs.useDeltaThisFrame = false ∧ delta = []) ∨
      (outputs.useDeltaThisFrame = true ∧ ∃ bbox, outputs.bbox = some bbox ∧
        bbox.write = some delta)) (contents : List UInt8) (offsets : List ℕ) :
    writeFrame lib useRle useDeltas idx frame lastFrame ⟨.ofContents contents, offsets⟩ =
      some ⟨.ofContents (contents ++ (descriptor ++ (delta ++ writeData outputs.imageData))),
        offsets.set idx contents.length⟩ := by
  have hpart : writeDelta outputs (.ofContents (contents ++ descriptor)) =
      some (.ofContents (contents ++ descriptor ++ delta)) := by
    rcases hdelta with ⟨hwhole, rfl⟩ | ⟨hpart, bbox, hbbox, hwrite⟩
    · rw [writeDelta, hwhole, List.append_nil]
      rfl
    · rw [writeDelta, if_pos hpart, hbbox, Option.bind_eq_bind, Option.bind_some, hwrite,
        Option.bind_eq_bind, Option.bind_some, File.write_ofContents]
  rw [writeFrame, hcompress, Option.bind_eq_bind, Option.bind_some, hdescriptor,
    Option.bind_eq_bind, Option.bind_some, File.write_ofContents, hpart, Option.bind_eq_bind,
    Option.bind_some, File.write_ofContents, List.append_assoc, List.append_assoc]
  rfl

/-- One frame. -/
theorem writeFrame_eq {idx : ℕ} {frame : Frame} {lastFrame : Option Frame}
    (hwidth : frame.image.width < 65536) (hheight : frame.image.height < 65536)
    (hdelay : frame.delay < 65536)
    (hsize : ∀ last ∈ lastFrame, frame.image.width = last.image.width ∧
      frame.image.height = last.image.height) (contents : List UInt8) (offsets : List ℕ) :
    writeFrame lib useRle useDeltas idx frame lastFrame ⟨.ofContents contents, offsets⟩ =
      if useRle = true ∨
          deltaBox lib useRle useDeltas frame.image (lastFrame.map Frame.image) = none then
        some ⟨.ofContents (contents ++
          (frameBlock lib useRle useDeltas frame (lastFrame.map Frame.image)).bytes),
          offsets.set idx contents.length⟩
      else none := by
  have hsize' : ∀ last ∈ lastFrame.map Frame.image, frame.image.width = last.width ∧
      frame.image.height = last.height := by
    intro last hlast
    rcases Option.mem_map.mp hlast with ⟨last', hmem, rfl⟩
    exact hsize last' hmem
  cases hbox : deltaBox lib useRle useDeltas frame.image (lastFrame.map Frame.image) with
  | none =>
    rcases compressImage_whole hbox with ⟨bbox, hcompress⟩
    rw [if_pos (Or.inr rfl), writeFrame_of_compress hcompress
      (FrameDescriptor.write_eq hdelay _ _ _ _) (Or.inl ⟨rfl, rfl⟩), frameBlock,
      FrameBlock.bytes, FrameBlock.descriptor, written, hbox]
    rfl
  | some box =>
    rcases deltaBox_bounds hsize' hbox with ⟨hleft, hright, htop, hbottom⟩
    have hcompress := compressImage_delta hbox
    cases useRle with
    | false =>
      rw [if_neg (by simp), writeFrame, hcompress]
      rfl
    | true =>
      have hdelta := Rect.write_box hleft (hright.trans_lt hwidth) htop
        (hbottom.trans_lt hheight)
      rw [if_pos (Or.inl rfl), writeFrame_of_compress hcompress
        (FrameDescriptor.write_eq hdelay _ _ _ _) (Or.inr ⟨rfl, _, rfl, hdelta⟩), frameBlock,
        FrameBlock.bytes, FrameBlock.descriptor, written, hbox]
      rfl

/-! ## All frames -/

theorem forAllFrames_sizes {α : Type} (f : Frame → α) (frames : List Frame) (idx : ℕ)
    (lastFrame : Option Frame) (sizes : List α) :
    forAllFrames (fun _ frame _ sizes => some (sizes ++ [f frame])) frames idx lastFrame sizes =
      some (sizes ++ frames.map f) := by
  induction frames generalizing idx lastFrame sizes with
  | nil => rw [List.map_nil, List.append_nil]; rfl
  | cons frame frames ih =>
    rw [forAllFrames, Option.bind_eq_bind, Option.bind_some, ih, List.append_assoc]
    rfl

variable (lib useRle useDeltas)

/-- No frame raises an error for an unbound name. -/
def Writable : Option Image → List Frame → Prop
  | _, [] => True
  | lastFrame, frame :: frames =>
    (useRle = true ∨ deltaBox lib useRle useDeltas frame.image lastFrame = none) ∧
      Writable (some frame.image) frames

/-- Frames of one size, with numbers that fit. -/
structure Uniform (width height : ℕ) (frames : List Frame) : Prop where
  size : ∀ frame ∈ frames, frame.image.width = width ∧ frame.image.height = height
  delay : ∀ frame ∈ frames, frame.delay < 65536

variable {lib useRle useDeltas} {width height : ℕ}

theorem Uniform.tail {frame : Frame} {frames : List Frame}
    (h : Uniform width height (frame :: frames)) : Uniform width height frames :=
  ⟨fun f hf => h.size f (List.mem_cons_of_mem _ hf), fun f hf => h.delay f (List.mem_cons_of_mem _ hf)⟩

/-- One frame after the others. -/
theorem Uniform.writeFrame {frame : Frame} {frames : List Frame}
    (h : Uniform width height (frame :: frames)) (hwidth : width < 65536)
    (hheight : height < 65536) {lastFrame : Option Frame}
    (hlast : ∀ last ∈ lastFrame, last.image.width = width ∧ last.image.height = height) (idx : ℕ)
    (contents : List UInt8) (offsets : List ℕ) :
    writeFrame lib useRle useDeltas idx frame lastFrame ⟨.ofContents contents, offsets⟩ =
      if useRle = true ∨
          deltaBox lib useRle useDeltas frame.image (lastFrame.map Frame.image) = none then
        some ⟨.ofContents (contents ++
          (frameBlock lib useRle useDeltas frame (lastFrame.map Frame.image)).bytes),
          offsets.set idx contents.length⟩
      else none := by
  have hframe := h.size frame List.mem_cons_self
  apply writeFrame_eq
  · rwa [hframe.1]
  · rwa [hframe.2]
  · exact h.delay frame List.mem_cons_self
  · intro last hmem
    rw [hframe.1, hframe.2, (hlast last hmem).1, (hlast last hmem).2]
    exact ⟨rfl, rfl⟩

theorem forAllFrames_writeFrame {frames : List Frame} (h : Uniform width height frames)
    (hwidth : width < 65536) (hheight : height < 65536) {lastFrame : Option Frame}
    (hlast : ∀ last ∈ lastFrame, last.image.width = width ∧ last.image.height = height)
    (hwritable : Writable lib useRle useDeltas (lastFrame.map Frame.image) frames)
    (contents : List UInt8) (before : List ℕ) :
    forAllFrames (writeFrame lib useRle useDeltas) frames before.length lastFrame
      ⟨.ofContents contents, before ++ List.replicate frames.length 0xFFFFFFFF⟩ =
        some ⟨.ofContents (contents ++
          (frameBlocks lib useRle useDeltas (lastFrame.map Frame.image) frames).flatMap
            FrameBlock.bytes),
          before ++ offsetsFrom contents.length
            (frameBlocks lib useRle useDeltas (lastFrame.map Frame.image) frames)⟩ := by
  induction frames generalizing lastFrame contents before with
  | nil =>
    simp [forAllFrames, frameBlocks, offsetsFrom]
  | cons frame frames ih =>
    have hset : (before ++ List.replicate (frames.length + 1) 0xFFFFFFFF).set before.length
        contents.length =
        before ++ [contents.length] ++ List.replicate frames.length 0xFFFFFFFF := by
      rw [List.set_append_right _ _ (Nat.le_refl _), Nat.sub_self, List.replicate_succ,
        List.set_cons_zero, List.append_assoc]
      rfl
    have hsize : ∀ last ∈ some frame, last.image.width = width ∧ last.image.height = height :=
      fun last hmem => Option.some.inj hmem ▸ h.size frame List.mem_cons_self
    have hnext := ih h.tail hsize hwritable.2 (contents ++
        (frameBlock lib useRle useDeltas frame (lastFrame.map Frame.image)).bytes)
      (before ++ [contents.length])
    rw [List.length_append, List.length_singleton] at hnext
    rw [forAllFrames, h.writeFrame hwidth hheight hlast, if_pos hwritable.1,
      Option.bind_eq_bind, Option.bind_some, List.length_cons, hset, hnext, frameBlocks,
      List.flatMap_cons, offsetsFrom, List.length_append, List.append_assoc, List.append_assoc]
    rfl

theorem forAllFrames_first {frames : List Frame} (h : Uniform width height frames)
    (hwidth : width < 65536) (hheight : height < 65536)
    (hwritable : Writable lib useRle useDeltas none frames) (contents : List UInt8) :
    forAllFrames (writeFrame lib useRle useDeltas) frames 0 none
      ⟨.ofContents contents, List.replicate frames.length 0xFFFFFFFF⟩ =
        some ⟨.ofContents (contents ++
          (frameBlocks lib useRle useDeltas none frames).flatMap FrameBlock.bytes),
          offsetsFrom contents.length (frameBlocks lib useRle useDeltas none frames)⟩ :=
  forAllFrames_writeFrame h hwidth hheight (by simp) hwritable contents []

theorem forAllFrames_writeFrame_none {frames : List Frame} (h : Uniform width height frames)
    (hwidth : width < 65536) (hheight : height < 65536) {lastFrame : Option Frame}
    (hlast : ∀ last ∈ lastFrame, last.image.width = width ∧ last.image.height = height)
    (hwritable : ¬ Writable lib useRle useDeltas (lastFrame.map Frame.image) frames) (idx : ℕ)
    (contents : List UInt8) (offsets : List ℕ) :
    forAllFrames (writeFrame lib useRle useDeltas) frames idx lastFrame
      ⟨.ofContents contents, offsets⟩ = none := by
  induction frames generalizing lastFrame contents offsets idx with
  | nil => exact absurd trivial hwritable
  | cons frame frames ih =>
    rw [forAllFrames, h.writeFrame hwidth hheight hlast]
    by_cases hbound : useRle = true ∨
        deltaBox lib useRle useDeltas frame.image (lastFrame.map Frame.image) = none
    · rw [if_pos hbound, Option.bind_eq_bind, Option.bind_some]
      have hsize : ∀ last ∈ some frame, last.image.width = width ∧ last.image.height = height :=
        fun last hmem => Option.some.inj hmem ▸ h.size frame List.mem_cons_self
      exact ih h.tail hsize (fun hrest => hwritable ⟨hbound, hrest⟩) _ _ _
    · rw [if_neg hbound]
      rfl

/-! ## The whole file -/

theorem writeOffsets_eq {offsets : List ℕ} (h : ∀ offset ∈ offsets, offset < 4294967296) :
    writeOffsets offsets = some (blockHeader 0x01 (offsets.length * 4) ++
      offsets.flatMap (LittleEndian.bytes 4)) := by
  have hmap : offsets.mapM (fun offset : ℕ => o32 offset) =
      some (offsets.map (LittleEndian.bytes 4)) := by
    induction offsets with
    | nil => rfl
    | cons offset offsets ih =>
      rw [List.mapM_cons, o32_natCast (h offset List.mem_cons_self),
        ih fun o ho => h o (List.mem_cons_of_mem _ ho)]
      rfl
  rw [writeOffsets, hmap, Option.bind_eq_bind, Option.bind_some, List.flatMap]

theorem le_of_mem_offsetsFrom {start offset : ℕ} {blocks : List FrameBlock}
    (h : offset ∈ offsetsFrom start blocks) :
    offset ≤ start + (blocks.flatMap FrameBlock.bytes).length := by
  induction blocks generalizing start with
  | nil => cases h
  | cons b bs ih =>
    rw [List.flatMap_cons, List.length_append]
    rcases List.mem_cons.mp h with rfl | hmem
    · omega
    · have hle := ih hmem
      omega

@[simp]
theorem length_frameBlocks (lastFrame : Option Image) (frames : List Frame) :
    (frameBlocks lib useRle useDeltas lastFrame frames).length = frames.length := by
  induction frames generalizing lastFrame with
  | nil => rfl
  | cons frame frames ih => rw [frameBlocks, List.length_cons, ih, List.length_cons]

/-- The offsets before they are known. -/
theorem writeOffsets_dummy (count : ℕ) :
    ∃ offsets, writeOffsets (List.replicate count 0xFFFFFFFF) = some offsets ∧
      offsets.length = 5 + 4 * count := by
  refine ⟨_, writeOffsets_eq ?_, ?_⟩
  · intro offset hmem
    rw [List.eq_of_mem_replicate hmem]
    decide
  · rw [List.length_append, length_blockHeader, List.length_flatMap]
    simp [Nat.mul_comm]

/-- To write again what a file starts with, and what comes then. -/
theorem File.write_again {first first' second second' rest : List UInt8}
    (hfirst : first'.length = first.length) (hsecond : second'.length = second.length) :
    (((File.seek (.ofContents (first ++ second ++ rest)) 0).write first').seek
      first.length).write second' =
        ⟨first' ++ (second' ++ rest), first.length + second.length⟩ := by
  have hover : (File.seek (.ofContents (first ++ second ++ rest)) 0).write first' =
      ⟨first' ++ (second ++ rest), first'.length⟩ := by
    have hwrite := @File.write_over [] first (second ++ rest) first' hfirst
    rw [List.nil_append, List.nil_append, List.length_nil, Nat.zero_add] at hwrite
    rw [List.append_assoc]
    exact hwrite
  rw [hover, ← hfirst, ← hsecond]
  exact File.write_over hsecond

/-- The blocks after the first two have been written once. -/
theorem writeBlocks_eq {frames : List Frame} {d : GraphicsDescriptor} {first dummy : List UInt8}
    (hfirst : d.write = some first)
    (hdummy : writeOffsets (List.replicate d.frameCount 0xFFFFFFFF) = some dummy) :
    writeBlocks lib frames useRle useDeltas d =
      (forAllFrames (writeFrame lib useRle useDeltas) frames 0 none
        ⟨.ofContents (first ++ dummy), List.replicate d.frameCount 0xFFFFFFFF⟩).bind fun s =>
          { d with totalFileSize := s.fp.position }.write.bind fun second =>
            (writeOffsets s.frameOffsets).bind fun offsets =>
              some ((((s.fp.seek 0).write second).seek first.length).write offsets).contents := by
  have hstart : (File.ofContents []).write first = .ofContents first :=
    File.write_ofContents [] first
  rw [writeBlocks, hfirst, Option.bind_eq_bind, Option.bind_some, hstart]
  dsimp only
  rw [hdummy, Option.bind_eq_bind, Option.bind_some, File.write_ofContents]
  rfl

/-- The writer goes through all frames. -/
theorem writeBlocks_frames {frames : List Frame} (h : Uniform width height frames)
    (hwidth : width < 65536) (hheight : height < 65536) (hcount : frames.length < 65536)
    (hwritable : Writable lib useRle useDeltas none frames)
    (hsize : (layout width height (frameBlocks lib useRle useDeltas none frames)).length <
      4294967296) :
    writeBlocks lib frames useRle useDeltas ⟨0, width, height, frames.length⟩ =
      some (layout width height (frameBlocks lib useRle useDeltas none frames)) := by
  rcases writeOffsets_dummy frames.length with ⟨dummy, hdummy, hlength⟩
  rw [length_layout] at hsize
  let blocks := frameBlocks lib useRle useDeltas none frames
  let first : GraphicsDescriptor := ⟨0, width, height, frames.length⟩
  have hblocks : blocks.length = frames.length := length_frameBlocks none frames
  let total := 28 + 4 * blocks.length + (blocks.flatMap FrameBlock.bytes).length
  have hfirst : first.write = some first.bytes := by
    rw [GraphicsDescriptor.write_eq, if_pos ⟨Nat.succ_pos _, hwidth, hheight, hcount⟩]
  have hstart : (first.bytes ++ dummy).length = 28 + 4 * blocks.length := by
    rw [List.length_append, GraphicsDescriptor.length_bytes, hlength, hblocks]
    omega
  have hframes := forAllFrames_first h hwidth hheight hwritable (first.bytes ++ dummy)
  have hsecond : GraphicsDescriptor.write ⟨total, width, height, frames.length⟩ =
      some (GraphicsDescriptor.bytes ⟨total, width, height, frames.length⟩) := by
    rw [GraphicsDescriptor.write_eq, if_pos ⟨hsize, hwidth, hheight, hcount⟩]
  have htable : writeOffsets (offsetsFrom (28 + 4 * blocks.length) blocks) =
      some (offsetTable blocks) := by
    rw [writeOffsets_eq, length_offsetsFrom]
    · rfl
    · intro offset hmem
      exact (le_of_mem_offsetsFrom hmem).trans_lt hsize
  have hposition : (File.ofContents (first.bytes ++ dummy ++
      blocks.flatMap FrameBlock.bytes)).position = total := by
    rw [File.ofContents, List.length_append, hstart]
  rw [hstart] at hframes
  rw [writeBlocks_eq hfirst hdummy]
  rw [hframes, Option.bind_some]
  change Option.bind (GraphicsDescriptor.write ⟨(File.ofContents (first.bytes ++ dummy ++
    blocks.flatMap FrameBlock.bytes)).position, _, _, _⟩) _ = _
  rw [hposition, hsecond, Option.bind_some]
  change Option.bind (writeOffsets (offsetsFrom (28 + 4 * blocks.length) blocks)) _ = _
  rw [htable, Option.bind_some]
  change some (File.contents (((File.seek (.ofContents (first.bytes ++ dummy ++ _)) 0).write
    _).seek first.bytes.length |>.write _)) = _
  rw [File.write_again]
  · rw [layout, length_frameBlocks]
    simp only [total, hblocks]
    rfl
  · rw [GraphicsDescriptor.length_bytes, GraphicsDescriptor.length_bytes]
  · rw [length_offsetTable, hlength, hblocks]

/-- Numbers that do not fit, or an unbound name. -/
theorem writeBlocks_none {frames : List Frame} (h : Uniform width height frames)
    (hnot : ¬ (width < 65536 ∧ height < 65536 ∧ frames.length < 65536 ∧
      Writable lib useRle useDeltas none frames ∧
      (layout width height (frameBlocks lib useRle useDeltas none frames)).length <
        4294967296)) :
    writeBlocks lib frames useRle useDeltas ⟨0, width, height, frames.length⟩ = none := by
  by_cases hfits : width < 65536 ∧ height < 65536 ∧ frames.length < 65536
  · rcases hfits with ⟨hwidth, hheight, hcount⟩
    rcases writeOffsets_dummy frames.length with ⟨dummy, hdummy, hlength⟩
    let first : GraphicsDescriptor := ⟨0, width, height, frames.length⟩
    have hfirst : first.write = some first.bytes := by
      rw [GraphicsDescriptor.write_eq, if_pos ⟨Nat.succ_pos _, hwidth, hheight, hcount⟩]
    rw [writeBlocks_eq hfirst hdummy]
    by_cases hwritable : Writable lib useRle useDeltas none frames
    · have hframes := forAllFrames_first h hwidth hheight hwritable (first.bytes ++ dummy)
      generalize hfile : first.bytes ++ dummy ++
        (frameBlocks lib useRle useDeltas none frames).flatMap FrameBlock.bytes = file at hframes
      have hlarge : ¬ file.length < 4294967296 := by
        intro hlt
        apply hnot
        refine ⟨hwidth, hheight, hcount, hwritable, ?_⟩
        rw [length_layout, length_frameBlocks]
        rw [← hfile, List.length_append, List.length_append,
          GraphicsDescriptor.length_bytes, hlength] at hlt
        omega
      have hsecond : GraphicsDescriptor.write ⟨file.length, width, height, frames.length⟩ =
          none := by
        rw [GraphicsDescriptor.write_eq, if_neg fun hall => hlarge hall.1]
      rw [hframes, Option.bind_some]
      change Option.bind (GraphicsDescriptor.write ⟨file.length, _, _, _⟩) _ = _
      rw [hsecond, Option.bind_none]
    · have hlast : ∀ last ∈ (none : Option Frame),
          last.image.width = width ∧ last.image.height = height := nofun
      rw [forAllFrames_writeFrame_none h hwidth hheight hlast hwritable, Option.bind_none]
  · rw [writeBlocks, GraphicsDescriptor.write_eq, if_neg fun hall => hfits hall.2]
    rfl

/-- The file that is saved. -/
theorem save_eq {frames : List Frame} (h : Uniform width height frames) (hne : frames ≠ []) :
    save lib frames useRle useDeltas =
      writeBlocks lib frames useRle useDeltas ⟨0, width, height, frames.length⟩ := by
  have hsizes : frames.map (fun frame => (frame.image.width, frame.image.height)) =
      List.replicate frames.length (width, height) := by
    rw [List.eq_replicate_iff]
    refine ⟨List.length_map _, ?_⟩
    intro size hmem
    rcases List.mem_map.mp hmem with ⟨frame, hframe, rfl⟩
    rw [(h.size frame hframe).1, (h.size frame hframe).2]
  have hlength : frames.length ≠ 0 := fun hzero => hne (List.length_eq_zero_iff.mp hzero)
  rw [save, forAllFrames_sizes, List.nil_append, hsizes, Option.bind_eq_bind, Option.bind_some,
    List.replicate_dedup hlength, if_neg (by simp), List.getElem?_replicate,
    if_pos (Nat.pos_of_ne_zero hlength), Option.bind_eq_bind, Option.bind_some,
    List.length_replicate]

end Writing

end Painter
end VialQmk
