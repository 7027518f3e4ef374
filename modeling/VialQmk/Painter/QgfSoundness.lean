import VialQmk.Painter.QgfPlayer

/-!
# Quantum Painter - what the validation of graphics files assures

{lit}`qgf_validate_stream` looks at the headers of all blocks of all frames.  It does not look at
what a seek returns, or at the length of the data of a frame, and it goes on with variables that
nobody has set if the format of a frame is unknown.  These variables are an argument here, one
for each frame.

Main results:

- Definition {lit}`validateStreamWith`: the validation, with the variables that are not set.
- Definition {lit}`FrameSound`: the blocks of a frame are where they should be, within the
  stream.
- Definition {lit}`FrameInside`: what is not checked.
- Theorem {lit}`validation_sound_iff`: what has been accepted is sound if nothing that is not
  checked is wrong.
-/

namespace VialQmk
namespace Painter

open LittleEndian

/-! ## Variables that are not set -/

/-- The variables {lit}`bpp`, {lit}`has_palette` and {lit}`is_panel_native`. -/
abbrev FormatVars := ℕ × Bool × Bool

/-- {lit}`qgf_parse_frame_descriptor`.  An unknown format leaves the variables as they are. -/
def parseFrameDescriptorWith (unset : FormatVars) (data : List UInt8) : FrameInfo :=
  let format := (parseFormat (data.getD 5 0)).getD unset
  { parseFrameDescriptor data with
    bpp := format.1
    hasPalette := format.2.1
    isPanelNative := format.2.2 }

/-- {lit}`qgf_validate_frame_descriptor` -/
def validateFrameDescriptorWith (unset : FormatVars) (s : MemStream) (frameNumber : ℕ) :
    MemStream × Option FrameInfo :=
  let data := streamRead 11 (seekToFrameDescriptor s frameNumber)
  if data.2.length ≠ 11 then (data.1, none)
  else if validateBlockHeader (.read data.2) 0x02 6 = false then (data.1, none)
  else (data.1, some (parseFrameDescriptorWith unset data.2))

/-- The body of the loop in {lit}`qgf_validate_stream` -/
def validateFrameWith (unset : FormatVars) (s : MemStream) (i : ℕ) : MemStream × Bool :=
  match validateFrameDescriptorWith unset s i with
  | (s, none) => (s, false)
  | (s, some info) =>
    let palette := checkIf info.hasPalette (validatePaletteDescriptor · info.bpp) s
    if palette.2 = false then palette
    else
      let delta := checkIf info.isDelta validateDeltaDescriptor palette.1
      if delta.2 = false then delta
      else validateFrameDataDescriptor delta.1

/-- The loop in {lit}`qgf_validate_stream` -/
def validateFramesWith (unset : ℕ → FormatVars) : ℕ → ℕ → MemStream → MemStream × Bool
  | 0, _, s => (s, true)
  | n + 1, i, s =>
    let frame := validateFrameWith (unset i) s i
    if frame.2 = false then frame else validateFramesWith unset n (i + 1) frame.1

/-- {lit}`qgf_validate_stream` -/
def validateStreamWith (unset : ℕ → FormatVars) (s : MemStream) : MemStream × Bool :=
  match readGraphicsDescriptor s with
  | (s, none) => (s, false)
  | (s, some descriptor) => validateFramesWith unset descriptor.frameCount 0 s

/-- With variables that start at zero this is the validation of the reader. -/
theorem validateStream_eq (s : MemStream) :
    validateStream s = validateStreamWith (fun _ => (0, false, false)) s := by
  have hparse : ∀ data,
      parseFrameDescriptorWith (0, false, false) data = parseFrameDescriptor data := by
    intro data
    simp only [parseFrameDescriptorWith, parseFrameDescriptor]
  have hframe : ∀ s i, validateFrame s i = validateFrameWith (0, false, false) s i := by
    intro s i
    have hdescriptor : validateFrameDescriptorWith (0, false, false) s i =
        validateFrameDescriptor s i := by
      simp only [validateFrameDescriptorWith, validateFrameDescriptor, hparse]
    unfold validateFrame validateFrameWith
    generalize validateFrameDescriptorWith (0, false, false) s i = descriptor at hdescriptor ⊢
    subst hdescriptor
    obtain ⟨t, info⟩ := validateFrameDescriptor s i
    cases info <;> rfl
  have hframes : ∀ n i s, validateFrames n i s =
      validateFramesWith (fun _ => (0, false, false)) n i s := by
    intro n
    induction n with
    | zero => exact fun _ _ => rfl
    | succ n ih =>
      intro i s
      simp only [validateFrames, validateFramesWith, hframe, ih]
  unfold validateStream validateStreamWith
  generalize readGraphicsDescriptor s = descriptor
  obtain ⟨t, descriptor⟩ := descriptor
  cases descriptor with
  | none => rfl
  | some descriptor => exact hframes _ _ _

/-! ## Where the blocks are -/

section Blocks

variable (b : List UInt8)

/-- A whole block in the stream. -/
structure BlockAt (p : ℕ) (typeId : UInt8) (length : ℕ) : Prop where
  type : b[p]? = some typeId
  negType : b[p + 1]? = some (~~~typeId)
  size : field (p + 2) 3 b = length
  inside : p + 5 + length ≤ b.length

/-- The number of frames in the descriptor of the file. -/
def frameCount : ℕ :=
  field 21 2 b

/-- The offset of a frame in the table. -/
def offsetOf (i : ℕ) : ℕ :=
  field (28 + 4 * i) 4 b

/-- The format of a frame. -/
def formatOf (i : ℕ) : Option FormatVars :=
  parseFormat (b.getD (offsetOf b i + 5) 0)

/-- The length of the palette, for a format that has one. -/
def paletteLength (i : ℕ) : Option ℕ :=
  match formatOf b i with
  | some (bpp, true, _) => some ((1 <<< bpp) * 3)
  | _ => none

def deltaFlag (i : ℕ) : Bool :=
  b.getD (offsetOf b i + 6) 0 &&& 0x02 == 0x02

/-- Where the blocks behind the descriptor start, if nothing lies between them. -/
def paletteStart (i : ℕ) : ℕ :=
  offsetOf b i + 11

def deltaStart (i : ℕ) : ℕ :=
  paletteStart b i + match paletteLength b i with
    | some length => 5 + length
    | none => 0

def dataStart (i : ℕ) : ℕ :=
  deltaStart b i + if deltaFlag b i then 13 else 0

/-- The format of a frame is supported, and the blocks that it needs are found, one behind the
other, from the offset in the table on. -/
structure FrameSound (i : ℕ) : Prop where
  table : BlockAt b 23 0x01 (4 * frameCount b)
  descriptor : BlockAt b (offsetOf b i) 0x02 6
  supported : (formatOf b i).isSome
  palette : ∀ length, paletteLength b i = some length → BlockAt b (paletteStart b i) 0x03 length
  delta : deltaFlag b i = true → BlockAt b (deltaStart b i) 0x04 8
  data : ∃ length, BlockAt b (dataStart b i) 0x05 length

/-- What nobody checks: the table and the offset in it are in the stream, the format is known,
and the palette and the data end in the stream. -/
structure FrameInside (i : ℕ) : Prop where
  table : 28 + 4 * frameCount b ≤ b.length
  offset : offsetOf b i ≤ b.length
  supported : (formatOf b i).isSome
  palette : ∀ length, paletteLength b i = some length →
    paletteStart b i + 5 + length ≤ b.length
  data : dataStart b i + 5 + field (dataStart b i + 2) 3 b ≤ b.length

theorem FrameSound.frameInside {i : ℕ} (h : FrameSound b i) : FrameInside b i where
  table := by
    have := h.table.inside
    omega
  offset := by
    have := h.descriptor.inside
    omega
  supported := h.supported
  palette := fun length hlength => (h.palette length hlength).inside
  data := by
    obtain ⟨length, hdata⟩ := h.data
    rw [hdata.size]
    exact hdata.inside

end Blocks

/-! ## Reading -/

section Reading

variable {b : List UInt8} {p n : ℕ} {e : Bool}

theorem streamRead_at (h : p + n ≤ b.length) :
    streamRead n ⟨b, p, e⟩ = (⟨b, p + n, e⟩, (b.drop p).take n) := by
  have hlength : ((b.drop p).take n).length = n := by
    rw [List.length_take, List.length_drop]
    omega
  have hahead : MemStream.ahead ⟨b, p, e⟩ = (b.drop p).take n ++ (b.drop p).drop n :=
    (List.take_append_drop n _).symm
  have hread := streamRead_ahead hahead
  rw [hlength] at hread
  exact hread

/-- A read that gives all its bytes is one within the stream. -/
theorem le_of_streamRead (h : (streamRead n ⟨b, p, e⟩).2.length = n) (hn : 0 < n) :
    p + n ≤ b.length := by
  by_contra hlong
  have hshort : MemStream.ahead ⟨b, p, e⟩ = b.drop p := rfl
  have := length_streamRead_lt (s := ⟨b, p, e⟩) (n := n)
    (by rw [hshort, List.length_drop]; omega)
  omega

theorem field_read {k m : ℕ} (h : k + m ≤ n) :
    field k m ((b.drop p).take n) = field (p + k) m b := by
  unfold field
  rw [List.drop_take, List.take_take, List.drop_drop, Nat.min_eq_left (by omega)]

theorem getD_read {k : ℕ} (h : k < n) : ((b.drop p).take n).getD k 0 = b.getD (p + k) 0 := by
  rw [List.getD_eq_getElem?_getD, List.getD_eq_getElem?_getD, List.getElem?_take_of_lt h,
    List.getElem?_drop]

/-- A header that is right. -/
theorem validateBlockHeader_read (hn : 5 ≤ n) {typeId : UInt8} {length : ℤ} :
    validateBlockHeader (.read ((b.drop p).take n)) typeId length = true ↔
      b.getD p 0 = typeId ∧ b.getD (p + 1) 0 = ~~~typeId ∧
        (0 ≤ length → (field (p + 2) 3 b : ℤ) = length) := by
  unfold validateBlockHeader BlockHeader.read
  dsimp only
  rw [getD_read (by omega), getD_read (by omega), field_read (by omega), Nat.add_zero]
  split_ifs with htype hlength
  · simp only [false_iff]
    tauto
  · simp only [false_iff]
    tauto
  · simp only [true_iff]
    tauto

/-- A header that is there, with the block it tells of. -/
theorem BlockAt.of_header {typeId : UInt8} {length : ℕ} (htype : b.getD p 0 = typeId)
    (hneg : b.getD (p + 1) 0 = ~~~typeId) (hsize : field (p + 2) 3 b = length)
    (hinside : p + 5 + length ≤ b.length) : BlockAt b p typeId length where
  type := by
    rw [← htype, List.getD_eq_getElem?_getD, List.getElem?_eq_getElem (by omega)]
    rfl
  negType := by
    rw [← hneg, List.getD_eq_getElem?_getD, List.getElem?_eq_getElem (by omega)]
    rfl
  size := hsize
  inside := hinside

/-- A block whose header is accepted. -/
theorem validateBlock_accepts {size : ℕ} (hsize : 5 ≤ size) {typeId : UInt8} {length : ℤ}
    (h : (validateBlock size typeId length ⟨b, p, e⟩).2 = true) :
    p + size ≤ b.length ∧ (validateBlock size typeId length ⟨b, p, e⟩).1 = ⟨b, p + size, e⟩ ∧
      b.getD p 0 = typeId ∧ b.getD (p + 1) 0 = ~~~typeId ∧
        (0 ≤ length → (field (p + 2) 3 b : ℤ) = length) := by
  unfold validateBlock at h ⊢
  dsimp only at h ⊢
  by_cases hread : (streamRead size ⟨b, p, e⟩).2.length = size
  · have hle := le_of_streamRead hread (by omega)
    rw [streamRead_at hle] at h hread ⊢
    dsimp only at h hread ⊢
    rw [if_neg (not_not_intro hread)] at h ⊢
    exact ⟨hle, rfl, (validateBlockHeader_read hsize).mp h⟩
  · rw [if_pos hread] at h
    exact absurd h (by simp)

end Reading

/-! ## The buffer stays -/

section Buffers

variable (s : MemStream)

theorem readGraphicsDescriptor_buffer : (readGraphicsDescriptor s).1.buffer = s.buffer := by
  have hread : (streamRead 23 (setpos s 0)).1.buffer = s.buffer := by
    rw [streamRead_buffer, setpos, memSeek_buffer]
  unfold readGraphicsDescriptor
  dsimp only
  split_ifs <;> exact hread

theorem readFrameOffset_buffer (i : ℕ) : (readFrameOffset s i).1.buffer = s.buffer := by
  have hfirst := readGraphicsDescriptor_buffer s
  unfold readFrameOffset
  generalize readGraphicsDescriptor s = descriptor at hfirst
  obtain ⟨t, descriptor⟩ := descriptor
  cases descriptor with
  | none => exact hfirst
  | some descriptor =>
    have hread : (streamRead 5 t).1.buffer = s.buffer := (streamRead_buffer 5 t).trans hfirst
    dsimp only
    split_ifs
    · exact hread
    · exact hread
    · exact hread
    · rw [streamRead_buffer, memSeek_buffer, hread]
    · rw [streamRead_buffer, memSeek_buffer, hread]

theorem seekToFrameDescriptor_buffer (i : ℕ) : (seekToFrameDescriptor s i).buffer = s.buffer := by
  rw [seekToFrameDescriptor, setpos, memSeek_buffer, readFrameOffset_buffer]

theorem validatePaletteDescriptor_buffer (bpp : ℕ) :
    (validatePaletteDescriptor s bpp).1.buffer = s.buffer := by
  unfold validatePaletteDescriptor
  dsimp only
  split_ifs
  · exact validateBlock_buffer _ _ _ _
  · rw [memSeek_buffer, validateBlock_buffer]

theorem validateFrameWith_buffer (unset : FormatVars) (i : ℕ) :
    (validateFrameWith unset s i).1.buffer = s.buffer := by
  have hfirst : (validateFrameDescriptorWith unset s i).1.buffer = s.buffer := by
    have hread : (streamRead 11 (seekToFrameDescriptor s i)).1.buffer = s.buffer :=
      (streamRead_buffer 11 _).trans (seekToFrameDescriptor_buffer s i)
    unfold validateFrameDescriptorWith
    dsimp only
    split_ifs <;> exact hread
  unfold validateFrameWith
  generalize validateFrameDescriptorWith unset s i = descriptor at hfirst
  obtain ⟨t, info⟩ := descriptor
  cases info with
  | none => exact hfirst
  | some info =>
    have hpalette : (checkIf info.hasPalette (validatePaletteDescriptor · info.bpp) t).1.buffer =
        s.buffer :=
      (checkIf_buffer (validatePaletteDescriptor_buffer · info.bpp) _ t).trans hfirst
    have hdelta := (@checkIf_buffer validateDeltaDescriptor
      (fun s => validateBlock_buffer _ _ _ s) info.isDelta
      (checkIf info.hasPalette (validatePaletteDescriptor · info.bpp) t).1).trans hpalette
    dsimp only
    split_ifs
    · exact hpalette
    · exact hdelta
    · exact (validateBlock_buffer _ _ _ _).trans hdelta

end Buffers

/-! ## The table -/

section Table

variable {s : MemStream} {i : ℕ}

/-- The descriptor of the file is read from the start, wherever the stream is. -/
theorem readGraphicsDescriptor_start (s : MemStream) :
    readGraphicsDescriptor s = readGraphicsDescriptor ⟨s.buffer, 0, false⟩ := by
  have hstart : ∀ s : MemStream, setpos s 0 = ⟨s.buffer, 0, false⟩ := fun s =>
    memSeek_of_le rfl (Nat.zero_le _)
  unfold readGraphicsDescriptor
  rw [hstart s, hstart ⟨s.buffer, 0, false⟩]

/-- A descriptor that is accepted. -/
theorem readGraphicsDescriptor_accepts {t : MemStream} {descriptor : GraphicsDescriptor}
    (h : readGraphicsDescriptor s = (t, some descriptor)) :
    t = ⟨s.buffer, 23, false⟩ ∧ BlockAt s.buffer 0 0x00 18 ∧
      descriptor.frameCount = frameCount s.buffer := by
  rw [readGraphicsDescriptor_start] at h
  generalize s.buffer = b at h ⊢
  have hstart : setpos ⟨b, 0, false⟩ 0 = ⟨b, 0, false⟩ := memSeek_of_le rfl (Nat.zero_le _)
  unfold readGraphicsDescriptor at h
  rw [hstart] at h
  dsimp only at h
  by_cases hread : (streamRead 23 ⟨b, 0, false⟩).2.length = 23
  · have hle := le_of_streamRead hread (by decide)
    rw [if_neg (not_not_intro hread)] at h
    rw [streamRead_at hle] at h
    dsimp only at h
    split_ifs at h with hheader hmagic hsize
    · exact absurd (congrArg Prod.snd h) (by simp)
    · exact absurd (congrArg Prod.snd h) (by simp)
    · exact absurd (congrArg Prod.snd h) (by simp)
    · obtain ⟨rfl, hdescriptor⟩ := Prod.mk.inj h
      have hheader' := (validateBlockHeader_read (by decide : 5 ≤ 23)).mp
        (eq_true_of_ne_false hheader)
      obtain ⟨htype, hneg, hsize'⟩ := hheader'
      refine ⟨rfl, .of_header htype hneg ?_ hle, ?_⟩
      · exact_mod_cast hsize' (by decide)
      · rw [← Option.some.inj hdescriptor]
        exact field_read (by decide)
  · rw [if_pos hread] at h
    exact absurd (congrArg Prod.snd h) (by simp)

/-- The header of the table of offsets, as it is checked. -/
def tableHeader (b : List UInt8) : Bool :=
  validateBlockHeader (.read ((b.drop 23).take 5)) 0x01 (frameCount b * 4 : ℕ)

/-- A frame whose offset is in the stream is found there. -/
theorem seekToFrameDescriptor_inside {t : MemStream} {descriptor : GraphicsDescriptor}
    (hlength : s.buffer.length < 2147483648)
    (hread : readGraphicsDescriptor s = (t, some descriptor)) (hi : i < frameCount s.buffer)
    (htable : 28 + 4 * frameCount s.buffer ≤ s.buffer.length)
    (hoffset : offsetOf s.buffer i ≤ s.buffer.length) (hheader : tableHeader s.buffer = true) :
    seekToFrameDescriptor s i = ⟨s.buffer, offsetOf s.buffer i, false⟩ := by
  obtain ⟨rfl, -, hcount⟩ := readGraphicsDescriptor_accepts hread
  have hseek : memSeek ⟨s.buffer, 23 + 5, false⟩ (i * 4 : ℕ) .seekCur =
      ⟨s.buffer, 28 + 4 * i, false⟩ := by
    apply memSeek_of_le
    · dsimp only
      push_cast
      omega
    · dsimp only
      omega
  have hfour : ((s.buffer.drop (28 + 4 * i)).take 4).length = 4 := by
    rw [List.length_take, List.length_drop]
    omega
  have hfive : ((s.buffer.drop 23).take 5).length = 5 := by
    rw [List.length_take, List.length_drop]
    omega
  have hvalue : readFrameOffset s i =
      (⟨s.buffer, 28 + 4 * i + 4, false⟩, some (offsetOf s.buffer i)) := by
    unfold readFrameOffset
    rw [hread]
    dsimp only
    rw [streamRead_at (by omega)]
    dsimp only
    rw [if_neg (not_not_intro hfive), hcount, if_neg (by
      rw [← tableHeader, hheader]
      decide), if_neg (by omega), hseek, streamRead_at (by omega)]
    dsimp only
    rw [if_neg (not_not_intro hfour), field_read (by decide)]
    rfl
  rw [seekToFrameDescriptor, hvalue]
  exact setpos_of_le hoffset hlength

/-- If the table is not accepted, the frame is looked for at the start. -/
theorem seekToFrameDescriptor_badTable {t : MemStream} {descriptor : GraphicsDescriptor}
    (hread : readGraphicsDescriptor s = (t, some descriptor))
    (htable : 28 ≤ s.buffer.length) (hheader : tableHeader s.buffer = false) :
    seekToFrameDescriptor s i = ⟨s.buffer, 0, false⟩ := by
  obtain ⟨rfl, -, hcount⟩ := readGraphicsDescriptor_accepts hread
  have hfive : ((s.buffer.drop 23).take 5).length = 5 := by
    rw [List.length_take, List.length_drop]
    omega
  have hvalue : (readFrameOffset s i).2 = none := by
    unfold readFrameOffset
    rw [hread]
    dsimp only
    rw [streamRead_at (by omega)]
    dsimp only
    have hheader' : validateBlockHeader (.read ((s.buffer.drop 23).take 5)) 0x01
        (frameCount s.buffer * 4 : ℕ) = false := hheader
    rw [if_neg (not_not_intro hfive), hcount, if_pos hheader']
  have hbuffer := readFrameOffset_buffer s i
  rw [seekToFrameDescriptor, hvalue, ← hbuffer]
  exact memSeek_of_le rfl (Nat.zero_le _)

end Table

/-! ## One frame -/

section Frame

variable {s : MemStream} {i : ℕ} {unset : FormatVars}

/-- The information about a frame whose format is known. -/
theorem parseFrameDescriptorWith_of_format (unset : FormatVars) {b : List UInt8} {bpp : ℕ}
    {palette native : Bool}
    (hformat : formatOf b i = some (bpp, palette, native)) :
    (parseFrameDescriptorWith unset ((b.drop (offsetOf b i)).take 11)).bpp = bpp ∧
      (parseFrameDescriptorWith unset ((b.drop (offsetOf b i)).take 11)).hasPalette = palette ∧
      (parseFrameDescriptorWith unset ((b.drop (offsetOf b i)).take 11)).isDelta =
        deltaFlag b i := by
  have hbyte : parseFormat (((b.drop (offsetOf b i)).take 11).getD 5 0) =
      some (bpp, palette, native) := by
    rw [getD_read (by decide)]
    exact hformat
  refine ⟨?_, ?_, ?_⟩
  · unfold parseFrameDescriptorWith
    rw [hbyte]
    rfl
  · unfold parseFrameDescriptorWith
    rw [hbyte]
    rfl
  · unfold parseFrameDescriptorWith parseFrameDescriptor deltaFlag
    dsimp only
    rw [getD_read (by decide)]

/-- The descriptor of a frame, where the stream is. -/
theorem validateFrameDescriptorWith_accepts {b : List UInt8} {q : ℕ} {e : Bool} {t : MemStream}
    {info : FrameInfo} (hseek : seekToFrameDescriptor s i = ⟨b, q, e⟩)
    (h : validateFrameDescriptorWith unset s i = (t, some info)) :
    t = ⟨b, q + 11, e⟩ ∧ q + 11 ≤ b.length ∧ b.getD q 0 = 0x02 ∧
      b.getD (q + 1) 0 = ~~~0x02 ∧ field (q + 2) 3 b = 6 ∧
        info = parseFrameDescriptorWith unset ((b.drop q).take 11) := by
  unfold validateFrameDescriptorWith at h
  rw [hseek] at h
  dsimp only at h
  by_cases hread : (streamRead 11 ⟨b, q, e⟩).2.length = 11
  · have hle := le_of_streamRead hread (by decide)
    rw [if_neg (not_not_intro hread), streamRead_at hle] at h
    dsimp only at h
    split_ifs at h with hheader
    · exact absurd (congrArg Prod.snd h) (by simp)
    · obtain ⟨rfl, hinfo⟩ := Prod.mk.inj h
      obtain ⟨htype, hneg, hsize⟩ := (validateBlockHeader_read (by decide : 5 ≤ 11)).mp
        (eq_true_of_ne_false hheader)
      refine ⟨rfl, hle, htype, hneg, ?_, (Option.some.inj hinfo).symm⟩
      exact_mod_cast hsize (by decide)
  · rw [if_pos hread] at h
    exact absurd (congrArg Prod.snd h) (by simp)

/-- The palette that a frame needs. -/
theorem checkIf_palette {b : List UInt8} {p bpp : ℕ} {e there : Bool}
    (h : (checkIf there (validatePaletteDescriptor · bpp) ⟨b, p, e⟩).2 = true)
    (hinside : there = true → p + 5 + (1 <<< bpp) * 3 ≤ b.length) :
    (there = true → BlockAt b p 0x03 ((1 <<< bpp) * 3)) ∧
      ∃ e', (checkIf there (validatePaletteDescriptor · bpp) ⟨b, p, e⟩).1 =
        ⟨b, p + if there then 5 + (1 <<< bpp) * 3 else 0, e'⟩ := by
  cases there with
  | false => exact ⟨fun hwrong => absurd hwrong (by decide), e, rfl⟩
  | true =>
    have hinside := hinside rfl
    rw [checkIf_true] at h ⊢
    unfold validatePaletteDescriptor at h ⊢
    dsimp only at h ⊢
    by_cases hblock : (validateBlock 5 0x03 ((1 <<< bpp) * 3 : ℕ) ⟨b, p, e⟩).2 = false
    · rw [if_pos hblock, hblock] at h
      exact absurd h (by decide)
    · obtain ⟨-, hstream, htype, hneg, hsize⟩ :=
        validateBlock_accepts (le_refl 5) (eq_true_of_ne_false hblock)
      rw [if_neg hblock, hstream, if_pos rfl]
      refine ⟨fun _ => .of_header htype hneg ?_ hinside, false, ?_⟩
      · exact_mod_cast hsize (Int.natCast_nonneg _)
      · dsimp only
        rw [← Nat.add_assoc]
        apply memSeek_of_le
        · dsimp only
          push_cast
          rfl
        · exact hinside

/-- The rectangle that a frame needs. -/
theorem checkIf_delta {b : List UInt8} {p : ℕ} {e there : Bool}
    (h : (checkIf there validateDeltaDescriptor ⟨b, p, e⟩).2 = true) :
    (there = true → BlockAt b p 0x04 8) ∧
      (checkIf there validateDeltaDescriptor ⟨b, p, e⟩).1 =
        ⟨b, p + if there then 13 else 0, e⟩ := by
  cases there with
  | false => exact ⟨fun hwrong => absurd hwrong (by decide), rfl⟩
  | true =>
    rw [checkIf_true] at h ⊢
    obtain ⟨hle, hstream, htype, hneg, hsize⟩ := validateBlock_accepts (by decide) h
    refine ⟨fun _ => .of_header htype hneg ?_ (by omega), hstream⟩
    exact_mod_cast hsize (by decide)

/-- The length of the palette, by the format. -/
theorem paletteLength_eq {b : List UInt8} {bpp : ℕ} {palette native : Bool}
    (hformat : formatOf b i = some (bpp, palette, native)) :
    paletteLength b i = (if palette then some ((1 <<< bpp) * 3) else none) ∧
      deltaStart b i = paletteStart b i + if palette then 5 + (1 <<< bpp) * 3 else 0 := by
  have hlength : paletteLength b i = if palette then some ((1 <<< bpp) * 3) else none := by
    unfold paletteLength
    rw [hformat]
    cases palette <;> rfl
  refine ⟨hlength, ?_⟩
  unfold deltaStart
  rw [hlength]
  cases palette <;> rfl

/-- A frame that is accepted, at its offset. -/
theorem frameSound_of_seek {b : List UInt8} {e : Bool}
    (hseek : seekToFrameDescriptor s i = ⟨b, offsetOf b i, e⟩)
    (htable : BlockAt b 23 0x01 (4 * frameCount b)) (hinside : FrameInside b i)
    (h : (validateFrameWith unset s i).2 = true) : FrameSound b i := by
  obtain ⟨⟨bpp, palette, native⟩, hformat⟩ := Option.isSome_iff_exists.mp hinside.supported
  obtain ⟨hlength, hstart⟩ := paletteLength_eq hformat
  obtain ⟨hbpp, hpalette, hdelta⟩ := parseFrameDescriptorWith_of_format unset hformat
  unfold validateFrameWith at h
  cases hdescriptor : validateFrameDescriptorWith unset s i with
  | mk t info =>
    rw [hdescriptor] at h
    cases info with
    | none => exact absurd h (by simp)
    | some info =>
      obtain ⟨rfl, hle, htype, hneg, hsize, rfl⟩ :=
        validateFrameDescriptorWith_accepts hseek hdescriptor
      dsimp only at h
      rw [hbpp, hpalette, hdelta] at h
      by_cases hfirst : (checkIf palette (validatePaletteDescriptor · bpp)
          ⟨b, offsetOf b i + 11, e⟩).2 = false
      · rw [if_pos hfirst, hfirst] at h
        exact absurd h (by decide)
      rw [if_neg hfirst] at h
      obtain ⟨hpaletteBlock, e', hstream⟩ := checkIf_palette (eq_true_of_ne_false hfirst) (by
        intro hthere
        apply hinside.palette
        rw [hlength, if_pos hthere])
      rw [hstream, ← paletteStart, ← hstart] at h
      by_cases hsecond : (checkIf (deltaFlag b i) validateDeltaDescriptor
          ⟨b, deltaStart b i, e'⟩).2 = false
      · rw [if_pos hsecond, hsecond] at h
        exact absurd h (by decide)
      rw [if_neg hsecond] at h
      obtain ⟨hdeltaBlock, hstream'⟩ := checkIf_delta (eq_true_of_ne_false hsecond)
      rw [hstream', ← dataStart] at h
      obtain ⟨-, -, htype', hneg', -⟩ := validateBlock_accepts (le_refl 5) h
      exact {
        table := htable
        descriptor := .of_header htype hneg hsize hle
        supported := hinside.supported
        palette := by
          intro length hsome
          rw [hlength] at hsome
          split_ifs at hsome with hthere
          rw [← Option.some.inj hsome]
          exact hpaletteBlock hthere
        delta := hdeltaBlock
        data := ⟨_, .of_header htype' hneg' rfl hinside.data⟩ }

/-- A frame that is accepted is sound, if nothing that is not checked is wrong. -/
theorem frameSound_of_accepts {t : MemStream} {descriptor : GraphicsDescriptor}
    (hlength : s.buffer.length < 2147483648)
    (hread : readGraphicsDescriptor s = (t, some descriptor)) (hi : i < frameCount s.buffer)
    (hinside : FrameInside s.buffer i) (h : (validateFrameWith unset s i).2 = true) :
    FrameSound s.buffer i := by
  have htable := hinside.table
  cases hheader : tableHeader s.buffer with
  | false =>
    -- The frame would be the descriptor of the file.
    have hseek := seekToFrameDescriptor_badTable (i := i) hread (by omega) hheader
    unfold validateFrameWith at h
    cases hdescriptor : validateFrameDescriptorWith unset s i with
    | mk t' info =>
      rw [hdescriptor] at h
      cases info with
      | none => exact absurd h (by simp)
      | some info =>
        obtain ⟨-, -, htype, -⟩ := validateFrameDescriptorWith_accepts hseek hdescriptor
        rw [List.getD_eq_getElem?_getD, (readGraphicsDescriptor_accepts hread).2.1.type] at htype
        exact absurd htype (by decide)
  | true =>
    have hseek := seekToFrameDescriptor_inside hlength hread hi htable hinside.offset hheader
    obtain ⟨htype, hneg, hsize⟩ := (validateBlockHeader_read (le_refl 5)).mp hheader
    have hcount : field (23 + 2) 3 s.buffer = 4 * frameCount s.buffer := by
      have := hsize (Int.natCast_nonneg _)
      omega
    exact frameSound_of_seek hseek (.of_header htype hneg hcount (by omega)) hinside h

/-- Variables that are not set do not matter for a frame that is sound. -/
theorem validateFrameWith_congr {t : MemStream} {descriptor : GraphicsDescriptor}
    (hlength : s.buffer.length < 2147483648)
    (hread : readGraphicsDescriptor s = (t, some descriptor)) (hi : i < frameCount s.buffer)
    (hsound : FrameSound s.buffer i) (unset unset' : FormatVars) :
    validateFrameWith unset' s i = validateFrameWith unset s i := by
  have hinside := hsound.frameInside
  have hheader : tableHeader s.buffer = true := by
    refine (validateBlockHeader_read (le_refl 5)).mpr ⟨?_, ?_, ?_⟩
    · rw [List.getD_eq_getElem?_getD, hsound.table.type]
      rfl
    · rw [List.getD_eq_getElem?_getD, hsound.table.negType]
      rfl
    · intro _
      have := hsound.table.size
      omega
  have hseek := seekToFrameDescriptor_inside hlength hread hi hinside.table hinside.offset hheader
  have hle := hsound.descriptor.inside
  obtain ⟨format, hformat⟩ := Option.isSome_iff_exists.mp hsound.supported
  have hparse : ∀ unset, parseFrameDescriptorWith unset
      ((s.buffer.drop (offsetOf s.buffer i)).take 11) =
        parseFrameDescriptorWith format ((s.buffer.drop (offsetOf s.buffer i)).take 11) := by
    intro unset
    have hbyte : parseFormat (((s.buffer.drop (offsetOf s.buffer i)).take 11).getD 5 0) =
        some format := by
      rw [getD_read (by decide)]
      exact hformat
    unfold parseFrameDescriptorWith
    rw [hbyte]
    rfl
  have hdescriptor : validateFrameDescriptorWith unset' s i =
      validateFrameDescriptorWith unset s i := by
    unfold validateFrameDescriptorWith
    rw [hseek, streamRead_at (by omega)]
    dsimp only
    rw [hparse unset', hparse unset]
  unfold validateFrameWith
  rw [hdescriptor]

end Frame

/-! ## Whole streams -/

/-- The descriptor of the file and all frames are sound, and no variable that is not set has
been looked at. -/
structure StreamSound (unset : ℕ → FormatVars) (s : MemStream) : Prop where
  descriptor : BlockAt s.buffer 0 0x00 18
  frames : ∀ i < frameCount s.buffer, FrameSound s.buffer i
  initialized : ∀ unset', validateStreamWith unset' s = validateStreamWith unset s

section Whole

variable {unset : ℕ → FormatVars} {s t : MemStream} {descriptor : GraphicsDescriptor}

/-- The loop over the frames: all that are accepted are sound, and the variables do not
matter. -/
theorem validateFramesWith_accepts (hlength : s.buffer.length < 2147483648)
    (hread : readGraphicsDescriptor s = (t, some descriptor))
    (hinside : ∀ i < frameCount s.buffer, FrameInside s.buffer i) {n i : ℕ} {r : MemStream}
    (hbuffer : r.buffer = s.buffer) (hn : i + n = frameCount s.buffer)
    (h : (validateFramesWith unset n i r).2 = true) :
    (∀ j, i ≤ j → j < frameCount s.buffer → FrameSound s.buffer j) ∧
      ∀ unset', validateFramesWith unset' n i r = validateFramesWith unset n i r := by
  induction n generalizing i r with
  | zero => exact ⟨fun j hle hlt => absurd hlt (by omega), fun _ => rfl⟩
  | succ n ih =>
    have hreadAgain : readGraphicsDescriptor r = (t, some descriptor) := by
      rw [readGraphicsDescriptor_start, hbuffer, ← readGraphicsDescriptor_start, hread]
    have hi : i < frameCount r.buffer := by
      rw [hbuffer]
      omega
    have hfit : r.buffer.length < 2147483648 := by rwa [hbuffer]
    unfold validateFramesWith at h
    by_cases hframe : (validateFrameWith (unset i) r i).2 = false
    · dsimp only at h
      rw [if_pos hframe, hframe] at h
      exact absurd h (by decide)
    dsimp only at h
    rw [if_neg hframe] at h
    have hsound : FrameSound r.buffer i :=
      frameSound_of_accepts hfit hreadAgain hi (by rw [hbuffer]; exact hinside i (by omega))
        (eq_true_of_ne_false hframe)
    obtain ⟨hlater, hvars⟩ := ih ((validateFrameWith_buffer r (unset i) i).trans hbuffer)
      (by omega) h
    constructor
    · intro j hle hlt
      rcases Nat.eq_or_lt_of_le hle with rfl | hlt'
      · rw [← hbuffer]
        exact hsound
      · exact hlater j hlt' hlt
    · intro unset'
      unfold validateFramesWith
      dsimp only
      rw [validateFrameWith_congr hfit hreadAgain hi hsound (unset i) (unset' i),
        if_neg hframe, if_neg hframe]
      exact hvars unset'

/-- A stream that is accepted is sound just if the offsets, the palettes and the data of its
frames are in the stream and their formats are known. -/
theorem validation_sound_iff (unset : ℕ → FormatVars) (s : MemStream)
    (hlength : s.buffer.length < 2147483648) (h : (validateStreamWith unset s).2 = true) :
    StreamSound unset s ↔ ∀ i < frameCount s.buffer, FrameInside s.buffer i := by
  constructor
  · exact fun hsound i hi => (hsound.frames i hi).frameInside
  · intro hinside
    have hwhole := h
    unfold validateStreamWith at h
    cases hread : readGraphicsDescriptor s with
    | mk t descriptor =>
      rw [hread] at h
      cases descriptor with
      | none => exact absurd h (by simp)
      | some descriptor =>
        obtain ⟨rfl, hblock, hcount⟩ := readGraphicsDescriptor_accepts hread
        dsimp only at h
        obtain ⟨hframes, hvars⟩ := validateFramesWith_accepts hlength hread hinside
          (show MemStream.buffer ⟨s.buffer, 23, false⟩ = s.buffer from rfl)
          ((Nat.zero_add _).trans hcount) h
        refine ⟨hblock, fun i hi => hframes i (Nat.zero_le i) hi, fun unset' => ?_⟩
        unfold validateStreamWith
        rw [hread]
        exact hvars unset'

end Whole

/-- A file of one frame with one byte of data, which may tell of more. -/
def grayFile (dataLength : UInt8) : List UInt8 :=
  [0x00, 0xFF, 0x12, 0x00, 0x00, 0x51, 0x47, 0x46, 0x01, 0x31, 0x00, 0x00, 0x00, 0xCE, 0xFF, 0xFF,
    0xFF, 0x08, 0x00, 0x01, 0x00, 0x01, 0x00, 0x01, 0xFE, 0x04, 0x00, 0x00, 0x20, 0x00, 0x00, 0x00,
    0x02, 0xFD, 0x06, 0x00, 0x00, 0x00, 0x00, 0x00, 0xFF, 0x00, 0x00, 0x05, 0xFA, dataLength, 0x00,
    0x00, 0xAA]

theorem validation_sound_iff_grayFile :
    StreamSound (fun _ => (0, false, false)) (makeMemoryStream (grayFile 1)) ↔
      ∀ i < frameCount (grayFile 1), FrameInside (grayFile 1) i :=
  validation_sound_iff (fun _ => (0, false, false)) (makeMemoryStream (grayFile 1)) (by decide)
    (by decide +kernel)

/-- Data that should be longer than the stream is accepted. -/
theorem not_validation_sound_grayFile :
    ¬ ∀ (unset : ℕ → FormatVars) (s : MemStream), s.buffer.length < 2147483648 →
      (validateStreamWith unset s).2 = true → StreamSound unset s := by
  intro h
  have hsound := h (fun _ => (0, false, false)) (makeMemoryStream (grayFile 2)) (by decide)
    (by decide +kernel)
  have hinside := (hsound.frames 0 (by decide +kernel)).frameInside.data
  exact absurd hinside (by decide +kernel)

end Painter
end VialQmk
