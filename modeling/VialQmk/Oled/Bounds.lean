import VialQmk.Library.Runs
import VialQmk.Oled.Driver
import VialQmk.Oled.Dirty

/-!
# OLED driver - drawing in the buffer

The drawing functions of {lit}`oled_driver.c` for every rotation.  A display turned by 90 degrees
has lines as long as the display is high; the functions that do not depend on the length of a
line are those of the driver.

Main results:

- Definition {lit}`Build.touched`: the bytes of the buffer that a call reads or writes.
- Definition {lit}`Build.Meets`: a glyph that is drawn has room at the cursor, a raw byte is in
  the buffer, and no byte is changed that has a dirty bit and no block.
- Theorem {lit}`step_unturned`: on a display that is not turned the calls are those of the driver.
- Theorem {lit}`drawing_safe`: calls that meet the condition stay inside the buffer, and mark
  only blocks.
-/

namespace VialQmk
namespace Oled

open StateMachine

/-! ## Lines -/

/-- A build with its rotation. -/
structure Build where
  geometry : Geometry
  /-- {lit}`OLED_DISPLAY_HEIGHT` -/
  displayHeight : ℕ
  /-- {lit}`OLED_ROTATION_90` is one of the flags. -/
  turned : Bool
  pages_eq : geometry.pages = displayHeight / 8
  height_pos : 0 < displayHeight
  /-- {lit}`oled_rotation_width` is a byte. -/
  height_lt : displayHeight < 256

namespace Build

/-- {lit}`oled_rotation_width` -/
def rotationWidth (b : Build) : ℕ :=
  if b.turned then b.displayHeight else b.geometry.displayWidth

/-- {lit}`OLED_MATRIX_SIZE` -/
def matrixSize (b : Build) : ℕ :=
  b.geometry.matrixSize

/-- {lit}`OLED_FONT_WIDTH` -/
def fontWidth (b : Build) : ℕ :=
  b.geometry.fontWidth

variable (b : Build)

/-- {lit}`oled_set_cursor` -/
def setCursor (col line : UInt8) (s : State) : State :=
  let index := (line.toNat * b.rotationWidth + col.toNat * b.fontWidth) % 65536
  { s with cursor := if index ≥ b.matrixSize then 0 else index }

/-- {lit}`oled_advance_char` -/
def advanceChar (s : State) : State :=
  let nextIndex := (s.cursor + b.fontWidth) % 65536
  let remainingSpace := (b.rotationWidth - nextIndex % b.rotationWidth) % 256
  let nextIndex :=
    if remainingSpace < b.fontWidth then (nextIndex + remainingSpace) % 65536 else nextIndex
  { s with cursor := if nextIndex ≥ b.matrixSize then 0 else nextIndex }

/-- The character is drawn at the cursor, and marked if it changes anything. -/
def drawGlyph (data : UInt8) (invert : Bool) (s : State) : State :=
  let drawn := { s with buffer := s.buffer.store s.cursor (glyph b.geometry data invert) }
  if drawn.buffer.load s.cursor b.fontWidth ≠ s.buffer.load s.cursor b.fontWidth then
    markDirty b.geometry (s.cursor + b.fontWidth - 1) (markDirty b.geometry s.cursor drawn)
  else drawn

/-- {lit}`oled_write_char` for a character that is drawn. -/
def writeGlyph (data : UInt8) (invert : Bool) (s : State) : State :=
  b.advanceChar (b.drawGlyph data invert s)

/-- Spaces that {lit}`oled_advance_page` writes. -/
def writeSpaces : ℕ → State → State
  | 0, s => s
  | n + 1, s => writeSpaces n (b.writeGlyph 32 false s)

/-- The bytes up to the end of the line of the cursor. -/
def remaining (s : State) : ℕ :=
  (b.rotationWidth - s.cursor % b.rotationWidth) % 256

/-- {lit}`oled_advance_page` -/
def advancePage (clearPageRemainder : Bool) (s : State) : State :=
  if clearPageRemainder then b.writeSpaces (b.remaining s / b.fontWidth) s
  else
    { s with
      cursor :=
        if s.cursor + b.remaining s ≥ b.matrixSize then 0 else s.cursor + b.remaining s }

/-- {lit}`oled_write_char` -/
def writeChar (data : UInt8) (invert : Bool) (s : State) : State :=
  if data = newline then b.advancePage true s
  else if data = carriageReturn then b.advancePage false s
  else b.writeGlyph data invert s

/-- The loop of {lit}`oled_write`. -/
def writeChars (invert : Bool) : List UInt8 → State → State
  | [], s => s
  | data :: rest, s => writeChars invert rest (b.writeChar data invert s)

/-- {lit}`oled_write_pixel` -/
def writePixel (x y : UInt8) (on : Bool) (s : State) : State :=
  if x.toNat ≥ b.rotationWidth then s
  else
    let index := (x.toNat + y.toNat / 8 * b.rotationWidth) % 65536
    if index ≥ b.matrixSize then s
    else
      let bit := (1 : UInt8) <<< (y % 8)
      setByte b.geometry index
        (if on then s.buffer index ||| bit else s.buffer index &&& ~~~ bit) s

/-- The bytes {lit}`oled_write_raw` writes of its data. -/
def rawData (data : List UInt8) (s : State) : List UInt8 :=
  data.take
    (if data.length + s.cursor > b.matrixSize then b.matrixSize - s.cursor else data.length)

end Build

/-! ## Calls -/

/-- The drawing calls of a keymap; a string ends in front of its zero. -/
inductive Drawing
  | clear
  | setCursor (col line : UInt8)
  | write (text : List UInt8) (invert : Bool)
  | writeChar (data : UInt8) (invert : Bool)
  | writeLn (text : List UInt8) (invert : Bool)
  | advancePage (clearPageRemainder : Bool)
  | advanceChar
  | writeRaw (data : List UInt8)
  | writeRawByte (data : UInt8) (index : UInt16)
  | writePixel (x y : UInt8) (on : Bool)
  | pan (left : Bool)

/-- A string in front of its zero. -/
def cString (text : List UInt8) : List UInt8 :=
  text.takeWhile (· ≠ 0)

namespace Build

variable (b : Build)

/-- One call. -/
def step (s : State) : Drawing → State
  | .clear => Oled.clear b.geometry s
  | .setCursor col line => b.setCursor col line s
  | .write text invert => b.writeChars invert (cString text) s
  | .writeChar data invert => b.writeChar data invert s
  | .writeLn text invert => b.advancePage true (b.writeChars invert (cString text) s)
  | .advancePage clearPageRemainder => b.advancePage clearPageRemainder s
  | .advanceChar => b.advanceChar s
  | .writeRaw data => writeRawLoop b.geometry s.cursor (b.rawData data s) s
  | .writeRawByte data index => Oled.writeRawByte b.geometry data index.toNat s
  | .writePixel x y on => b.writePixel x y on s
  | .pan left => Oled.pan b.geometry left s

/-! ## Bytes that are read or written -/

/-- A glyph is compared, drawn and inverted in its columns. -/
def touchedGlyph (s : State) : List ℕ :=
  List.range' s.cursor b.fontWidth

def touchedSpaces : ℕ → State → List ℕ
  | 0, _ => []
  | n + 1, s => b.touchedGlyph s ++ touchedSpaces n (b.writeGlyph 32 false s)

def touchedChar (data : UInt8) (s : State) : List ℕ :=
  if data = newline then b.touchedSpaces (b.remaining s / b.fontWidth) s
  else if data = carriageReturn then []
  else b.touchedGlyph s

def touchedChars (invert : Bool) : List UInt8 → State → List ℕ
  | [], _ => []
  | data :: rest, s => b.touchedChar data s ++ touchedChars invert rest (b.writeChar data invert s)

def touchedPixel (x y : UInt8) : List ℕ :=
  if x.toNat ≥ b.rotationWidth then []
  else
    let index := (x.toNat + y.toNat / 8 * b.rotationWidth) % 65536
    if index ≥ b.matrixSize then [] else [index]

/-- Each round of {lit}`oled_pan` moves a byte from one side. -/
def touchedPan (left : Bool) : List ℕ :=
  (List.range b.geometry.pages).flatMap fun y =>
    (List.range (b.geometry.displayWidth - 1)).flatMap fun k =>
      let i := y * b.geometry.displayWidth + (if left then k else b.geometry.displayWidth - 1 - k)
      [i, if left then i + 1 else i - 1]

/-- The bytes of the buffer a call reads or writes. -/
def touched (s : State) : Drawing → List ℕ
  | .clear => List.range b.matrixSize
  | .setCursor _ _ => []
  | .write text invert => b.touchedChars invert (cString text) s
  | .writeChar data _ => b.touchedChar data s
  | .writeLn text invert =>
    let written := b.writeChars invert (cString text) s
    b.touchedChars invert (cString text) s ++
      b.touchedSpaces (b.remaining written / b.fontWidth) written
  | .advancePage true => b.touchedSpaces (b.remaining s / b.fontWidth) s
  | .advancePage false => []
  | .advanceChar => []
  | .writeRaw data => List.range' s.cursor (b.rawData data s).length
  | .writeRawByte _ index => [if index.toNat > b.matrixSize then b.matrixSize else index.toNat]
  | .writePixel x y _ => b.touchedPixel x y
  | .pan left => b.touchedPan left

/-- The dirty bits are those of blocks. -/
def OnlyBlocks (s : State) : Prop :=
  ∀ k, s.dirty.testBit k = true → k < b.geometry.blockCount

/-- Bytes of the buffer lead to a state where only blocks are marked. -/
def Confined (s : State) (bytes : List ℕ) : Prop :=
  b.OnlyBlocks s ∧ ∀ i ∈ bytes, i < b.matrixSize

/-- A call stays inside the buffer and marks only blocks. -/
def Safe (s : State) (call : Drawing) : Prop :=
  b.Confined (b.step s call) (b.touched s call)

/-! ## The condition -/

/-- The byte has a dirty bit, but is behind the last block. -/
def Behind (i : ℕ) : Prop :=
  b.geometry.blockCount ≤ i / b.geometry.blockSize ∧ i / b.geometry.blockSize < b.geometry.blockBits

/-- A byte behind the last block is not changed. -/
def ByteOk (i : ℕ) (data : UInt8) (s : State) : Prop :=
  b.Behind i → s.buffer i = data

/-- The glyph has room at the cursor; if it changes anything, its first and its last byte are
not behind the last block. -/
def GlyphOk (data : UInt8) (invert : Bool) (s : State) : Prop :=
  s.cursor + b.fontWidth ≤ b.matrixSize ∧
    (b.Behind s.cursor ∨ b.Behind (s.cursor + b.fontWidth - 1) →
      (s.buffer.store s.cursor (glyph b.geometry data invert)).load s.cursor b.fontWidth =
        s.buffer.load s.cursor b.fontWidth)

def SpacesOk : ℕ → State → Prop
  | 0, _ => True
  | n + 1, s => b.GlyphOk 32 false s ∧ SpacesOk n (b.writeGlyph 32 false s)

def CharOk (data : UInt8) (invert : Bool) (s : State) : Prop :=
  if data = newline then b.SpacesOk (b.remaining s / b.fontWidth) s
  else if data = carriageReturn then True
  else b.GlyphOk data invert s

def CharsOk (invert : Bool) : List UInt8 → State → Prop
  | [], _ => True
  | data :: rest, s => b.CharOk data invert s ∧ CharsOk invert rest (b.writeChar data invert s)

def PixelOk (x y : UInt8) (on : Bool) (s : State) : Prop :=
  let index := (x.toNat + y.toNat / 8 * b.rotationWidth) % 65536
  let bit := (1 : UInt8) <<< (y % 8)
  x.toNat < b.rotationWidth → index < b.matrixSize →
    b.ByteOk index (if on then s.buffer index ||| bit else s.buffer index &&& ~~~ bit) s

/-- Every glyph that is drawn has room at the cursor, a raw byte is in the buffer, and no byte
behind the last block is changed and marked. -/
def Meets (s : State) : Drawing → Prop
  | .clear | .setCursor _ _ | .advancePage false | .advanceChar | .pan _ => True
  | .write text invert => b.CharsOk invert (cString text) s
  | .writeChar data invert => b.CharOk data invert s
  | .writeLn text invert =>
    let written := b.writeChars invert (cString text) s
    b.CharsOk invert (cString text) s ∧ b.SpacesOk (b.remaining written / b.fontWidth) written
  | .advancePage true => b.SpacesOk (b.remaining s / b.fontWidth) s
  | .writeRaw data => ∀ k data', (b.rawData data s)[k]? = some data' →
      b.ByteOk (s.cursor + k) data' s
  | .writeRawByte data index => index.toNat < b.matrixSize ∧ b.ByteOk index.toNat data s
  | .writePixel x y on => b.PixelOk x y on s

end Build

/-! ## Displays that are not turned -/

/-- The call of the driver; strings, single steps and the end of a line are not among them. -/
def Drawing.toCall : Drawing → Option Call
  | .clear => some .clear
  | .setCursor col line => some (.setCursor col line)
  | .writeChar data invert => some (.writeChar data invert)
  | .advancePage clearPageRemainder => some (.advancePage clearPageRemainder)
  | .writeRaw data => some (.writeRaw data)
  | .writeRawByte data index => some (.writeRawByte data index.toNat)
  | .writePixel x y on => some (.writePixel x y on)
  | .pan left => some (.pan left)
  | .write _ _ | .writeLn _ _ | .advanceChar => none

section Unturned

variable {b : Build} (hturned : b.turned = false)
include hturned

theorem rotationWidth_unturned : b.rotationWidth = b.geometry.displayWidth := by
  rw [Build.rotationWidth, hturned]
  rfl

theorem writeGlyph_unturned (data : UInt8) (invert : Bool) (s : State) :
    b.writeGlyph data invert s = writeGlyph b.geometry data invert s := by
  simp only [Build.writeGlyph, Build.drawGlyph, Build.advanceChar, rotationWidth_unturned hturned]
  rfl

theorem writeSpaces_unturned (n : ℕ) (s : State) :
    b.writeSpaces n s = writeSpaces b.geometry n s := by
  induction n generalizing s with
  | zero => rfl
  | succ n ih => rw [Build.writeSpaces, writeSpaces, writeGlyph_unturned hturned, ih]

theorem advancePage_unturned (clearPageRemainder : Bool) (s : State) :
    b.advancePage clearPageRemainder s = advancePage b.geometry clearPageRemainder s := by
  simp only [Build.advancePage, Build.remaining, rotationWidth_unturned hturned,
    writeSpaces_unturned hturned]
  rfl

/-- Every call of the driver draws the same. -/
theorem step_unturned {drawing : Drawing} {call : Call} (hcall : drawing.toCall = some call)
    (s : State) : b.step s drawing = step b.geometry s call := by
  cases drawing with
  | writeChar data invert =>
    rw [← Option.some.inj hcall]
    simp only [Build.step, step, Build.writeChar, writeChar, writeGlyph_unturned hturned,
      advancePage_unturned hturned]
  | advancePage clearPageRemainder =>
    rw [← Option.some.inj hcall]
    exact advancePage_unturned hturned clearPageRemainder s
  | setCursor col line =>
    rw [← Option.some.inj hcall]
    simp only [Build.step, step, Build.setCursor, rotationWidth_unturned hturned]
    rfl
  | writePixel x y on =>
    rw [← Option.some.inj hcall]
    simp only [Build.step, step, Build.writePixel, rotationWidth_unturned hturned]
    rfl
  | write | writeLn | advanceChar => cases hcall
  | clear | writeRaw | writeRawByte | pan =>
    rw [← Option.some.inj hcall]
    rfl

end Unturned

/-! ## Marks -/

section Safety

variable {b : Build} {s : State}

theorem onlyBlocks_markDirty {i : ℕ} :
    b.OnlyBlocks (markDirty b.geometry i s) ↔ b.OnlyBlocks s ∧ ¬ b.Behind i := by
  have hbit : ∀ k, (markDirty b.geometry i s).dirty.testBit k = true ↔
      s.dirty.testBit k = true ∨
        k < b.geometry.blockBits ∧ i / b.geometry.blockSize = k := by
    intro k
    have hor : (markDirty b.geometry i s).dirty =
        s.dirty ||| b.geometry.blockBit (i / b.geometry.blockSize) := rfl
    rw [hor, Nat.testBit_or, Bool.or_eq_true]
    unfold Geometry.blockBit
    rw [Nat.testBit_mod_two_pow, Nat.testBit_two_pow, Bool.and_eq_true, decide_eq_true_eq,
      decide_eq_true_eq]
  constructor
  · intro h
    refine ⟨fun k hk => h k ((hbit k).mpr (.inl hk)), fun hbehind => ?_⟩
    exact absurd (h _ ((hbit _).mpr (.inr ⟨hbehind.2, rfl⟩))) (Nat.not_lt_of_le hbehind.1)
  · rintro ⟨h, hi⟩ k hk
    rcases (hbit k).mp hk with hold | ⟨hwidth, rfl⟩
    · exact h k hold
    · by_contra hlate
      exact hi ⟨Nat.le_of_not_lt hlate, hwidth⟩

/-- {lit}`oled_clear` and {lit}`oled_pan` mark all blocks. -/
theorem onlyBlocks_of_all (h : s.dirty = b.geometry.allBlocksMask) : b.OnlyBlocks s := by
  intro k hk
  rw [h, testBit_allBlocksMask] at hk
  exact of_decide_eq_true hk

theorem onlyBlocks_setByte {i : ℕ} {data : UInt8} :
    b.OnlyBlocks (setByte b.geometry i data s) ↔ b.OnlyBlocks s ∧ b.ByteOk i data s := by
  unfold setByte
  split_ifs with hsame
  · exact (and_iff_left fun _ => hsame).symm
  · have hok : b.ByteOk i data s ↔ ¬ b.Behind i :=
      ⟨fun h hbehind => hsame (h hbehind), fun h hbehind => absurd hbehind h⟩
    rw [onlyBlocks_markDirty, hok]
    exact Iff.rfl

theorem setByte_buffer_of_lt {g : Geometry} {i j : ℕ} (h : i < j) (data : UInt8) (s : State) :
    (setByte g i data s).buffer j = s.buffer j := by
  unfold setByte
  split_ifs with hsame
  · rfl
  · exact Memory.store_of_ge (by simp only [List.length_singleton]; omega)

theorem onlyBlocks_writeRawLoop {i : ℕ} {data : List UInt8} {s : State} :
    b.OnlyBlocks (writeRawLoop b.geometry i data s) ↔
      b.OnlyBlocks s ∧ ∀ k x, data[k]? = some x → b.ByteOk (i + k) x s := by
  induction data generalizing i s with
  | nil => exact (and_iff_left fun k x hx => absurd hx (by simp)).symm
  | cons first data ih =>
    -- the bytes behind the first one are still those of the state before
    have hrest : ∀ k x, b.ByteOk (i + 1 + k) x (setByte b.geometry i first s) ↔
        b.ByteOk (i + (k + 1)) x s := by
      intro k x
      unfold Build.ByteOk
      rw [setByte_buffer_of_lt (by omega), Nat.add_assoc, Nat.add_comm 1 k]
    refine ih.trans ?_
    simp only [hrest]
    rw [onlyBlocks_setByte, and_assoc]
    refine and_congr_right fun _ => ⟨?_, fun h => ⟨h 0 first rfl, fun k x hx => h (k + 1) x hx⟩⟩
    rintro ⟨hfirst, hlater⟩ k x hx
    cases k with
    | zero =>
      obtain rfl : first = x := Option.some.inj hx
      exact hfirst
    | succ k => exact hlater k x hx

/-! ## Glyphs -/

/-- What is done in two parts. -/
theorem confined_append {s' s'' : State} {bytes bytes' : List ℕ} {P Q : Prop}
    (hfirst : b.Confined s' bytes ↔ b.OnlyBlocks s ∧ P)
    (hrest : b.Confined s'' bytes' ↔ b.OnlyBlocks s' ∧ Q) :
    b.Confined s'' (bytes ++ bytes') ↔ b.OnlyBlocks s ∧ P ∧ Q := by
  unfold Build.Confined at *
  rw [List.forall_mem_append, and_left_comm, hrest, ← and_assoc, and_comm (b := b.OnlyBlocks s'),
    hfirst, and_assoc]

theorem confined_nil : b.Confined s [] ↔ b.OnlyBlocks s :=
  and_iff_left (List.forall_mem_nil _)

theorem onlyBlocks_drawGlyph {data : UInt8} {invert : Bool} :
    b.OnlyBlocks (b.drawGlyph data invert s) ↔
      b.OnlyBlocks s ∧
        (b.Behind s.cursor ∨ b.Behind (s.cursor + b.fontWidth - 1) →
          (s.buffer.store s.cursor (glyph b.geometry data invert)).load s.cursor b.fontWidth =
            s.buffer.load s.cursor b.fontWidth) := by
  unfold Build.drawGlyph
  dsimp only
  split_ifs with hchange
  · have hnot : ¬ (b.Behind s.cursor ∨ b.Behind (s.cursor + b.fontWidth - 1)) ↔
        (b.Behind s.cursor ∨ b.Behind (s.cursor + b.fontWidth - 1) →
          (s.buffer.store s.cursor (glyph b.geometry data invert)).load s.cursor b.fontWidth =
            s.buffer.load s.cursor b.fontWidth) :=
      ⟨fun h hbehind => absurd hbehind h, fun h hbehind => hchange (h hbehind)⟩
    rw [onlyBlocks_markDirty, onlyBlocks_markDirty, and_assoc, ← not_or, hnot]
    exact Iff.rfl
  · exact (and_iff_left fun _ => not_not.mp hchange).symm

theorem touchedGlyph_lt : (∀ i ∈ b.touchedGlyph s, i < b.matrixSize) ↔
    s.cursor + b.fontWidth ≤ b.matrixSize := by
  have hfont : 0 < b.fontWidth := b.geometry.fontWidth_pos
  constructor
  · intro h
    have hlast := h (s.cursor + 1 * (b.fontWidth - 1))
      (List.mem_range'.mpr ⟨b.fontWidth - 1, by omega, rfl⟩)
    omega
  · intro h i hi
    obtain ⟨k, hk, rfl⟩ := List.mem_range'.mp hi
    omega

theorem confined_writeGlyph {data : UInt8} {invert : Bool} :
    b.Confined (b.writeGlyph data invert s) (b.touchedGlyph s) ↔
      b.OnlyBlocks s ∧ b.GlyphOk data invert s := by
  unfold Build.Confined Build.GlyphOk
  rw [touchedGlyph_lt, and_comm, and_left_comm, ← onlyBlocks_drawGlyph]
  exact Iff.rfl

theorem confined_writeSpaces {n : ℕ} {s : State} :
    b.Confined (b.writeSpaces n s) (b.touchedSpaces n s) ↔ b.OnlyBlocks s ∧ b.SpacesOk n s := by
  induction n generalizing s with
  | zero => exact confined_nil.trans (and_iff_left trivial).symm
  | succ n ih => exact confined_append confined_writeGlyph ih

theorem confined_writeChar {data : UInt8} {invert : Bool} :
    b.Confined (b.writeChar data invert s) (b.touchedChar data s) ↔
      b.OnlyBlocks s ∧ b.CharOk data invert s := by
  unfold Build.writeChar Build.touchedChar Build.CharOk
  split_ifs with hnewline hreturn
  · exact confined_writeSpaces
  · exact confined_nil.trans (and_iff_left trivial).symm
  · exact confined_writeGlyph

theorem confined_writeChars {invert : Bool} {text : List UInt8} {s : State} :
    b.Confined (b.writeChars invert text s) (b.touchedChars invert text s) ↔
      b.OnlyBlocks s ∧ b.CharsOk invert text s := by
  induction text generalizing s with
  | nil => exact confined_nil.trans (and_iff_left trivial).symm
  | cons data text ih => exact confined_append confined_writeChar ih

/-! ## Single bytes -/

theorem confined_setByte {i : ℕ} {data : UInt8} :
    b.Confined (setByte b.geometry i data s) [i] ↔
      b.OnlyBlocks s ∧ i < b.matrixSize ∧ b.ByteOk i data s := by
  unfold Build.Confined
  rw [List.forall_mem_singleton, onlyBlocks_setByte, and_assoc, and_comm (a := b.ByteOk i data s)]

theorem confined_writeRawByte {data : UInt8} {index : UInt16} :
    b.Confined (Oled.writeRawByte b.geometry data index.toNat s)
        [if index.toNat > b.matrixSize then b.matrixSize else index.toNat] ↔
      b.OnlyBlocks s ∧ index.toNat < b.matrixSize ∧ b.ByteOk index.toNat data s := by
  refine (confined_setByte
    (i := if index.toNat > b.matrixSize then b.matrixSize else index.toNat)).trans
    (and_congr_right fun _ => ?_)
  split_ifs with hlate
  · exact iff_of_false (fun h => absurd h.1 (Nat.lt_irrefl _)) fun h => by omega
  · exact Iff.rfl

theorem confined_writePixel {x y : UInt8} {on : Bool} :
    b.Confined (b.writePixel x y on s) (b.touchedPixel x y) ↔
      b.OnlyBlocks s ∧ b.PixelOk x y on s := by
  unfold Build.PixelOk Build.writePixel Build.touchedPixel
  dsimp only
  by_cases hright : x.toNat ≥ b.rotationWidth
  · rw [if_pos hright, if_pos hright]
    exact confined_nil.trans
      (and_iff_left fun hleft => absurd hleft (Nat.not_lt_of_le hright)).symm
  rw [if_neg hright, if_neg hright]
  by_cases hout : (x.toNat + y.toNat / 8 * b.rotationWidth) % 65536 ≥ b.matrixSize
  · rw [if_pos hout, if_pos hout]
    exact confined_nil.trans
      (and_iff_left fun _ hin => absurd hin (Nat.not_lt_of_le hout)).symm
  · rw [if_neg hout, if_neg hout]
    refine confined_setByte.trans (and_congr_right fun _ => ?_)
    exact ⟨fun h _ _ => h.2,
      fun h => ⟨Nat.lt_of_not_le hout, h (Nat.lt_of_not_le hright) (Nat.lt_of_not_le hout)⟩⟩

theorem touchedPan_lt (b : Build) (left : Bool) : ∀ i ∈ b.touchedPan left, i < b.matrixSize := by
  intro i hi
  obtain ⟨y, hy, hi⟩ := List.mem_flatMap.mp hi
  obtain ⟨k, hk, hi⟩ := List.mem_flatMap.mp hi
  rw [List.mem_range] at hy hk
  have hrow : (y + 1) * b.geometry.displayWidth ≤ b.matrixSize :=
    Nat.mul_le_mul_right _ hy
  rw [Nat.add_mul, Nat.one_mul] at hrow
  have hwidth := b.geometry.width_pos
  cases left with
  | true =>
    simp only [if_true, List.mem_cons, List.not_mem_nil, or_false] at hi
    omega
  | false =>
    simp only [Bool.false_eq_true, if_false, List.mem_cons, List.not_mem_nil, or_false] at hi
    omega

/-! ## The cursor -/

theorem cursor_wrap_le (b : Build) (index : ℕ) :
    (if index ≥ b.matrixSize then 0 else index) ≤ b.matrixSize := by
  split_ifs with hout
  · exact Nat.zero_le _
  · exact Nat.le_of_not_le hout

theorem setByte_cursor (g : Geometry) (i : ℕ) (data : UInt8) (s : State) :
    (setByte g i data s).cursor = s.cursor := by
  unfold setByte
  split_ifs <;> rfl

theorem writeRawLoop_cursor (g : Geometry) (i : ℕ) (data : List UInt8) (s : State) :
    (writeRawLoop g i data s).cursor = s.cursor := by
  induction data generalizing i s with
  | nil => rfl
  | cons x data ih => exact (ih (i + 1) (setByte g i x s)).trans (setByte_cursor g i x s)

theorem writePixel_cursor (b : Build) (x y : UInt8) (on : Bool) (s : State) :
    (b.writePixel x y on s).cursor = s.cursor := by
  unfold Build.writePixel
  dsimp only
  split_ifs
  · rfl
  · rfl
  · exact setByte_cursor _ _ _ s
  · exact setByte_cursor _ _ _ s

theorem writeSpaces_cursor_le {n : ℕ} {s : State} (h : s.cursor ≤ b.matrixSize) :
    (b.writeSpaces n s).cursor ≤ b.matrixSize := by
  induction n generalizing s with
  | zero => exact h
  | succ n ih => exact ih (cursor_wrap_le b _)

theorem advancePage_cursor_le (clearPageRemainder : Bool) (h : s.cursor ≤ b.matrixSize) :
    (b.advancePage clearPageRemainder s).cursor ≤ b.matrixSize := by
  cases clearPageRemainder with
  | true => exact writeSpaces_cursor_le h
  | false => exact cursor_wrap_le b _

theorem writeChar_cursor_le (data : UInt8) (invert : Bool) (h : s.cursor ≤ b.matrixSize) :
    (b.writeChar data invert s).cursor ≤ b.matrixSize := by
  unfold Build.writeChar
  split_ifs
  · exact advancePage_cursor_le true h
  · exact advancePage_cursor_le false h
  · exact cursor_wrap_le b _

theorem writeChars_cursor_le {invert : Bool} {text : List UInt8} {s : State}
    (h : s.cursor ≤ b.matrixSize) : (b.writeChars invert text s).cursor ≤ b.matrixSize := by
  induction text generalizing s with
  | nil => exact h
  | cons data text ih => exact ih (writeChar_cursor_le data invert h)

theorem step_cursor_le (h : s.cursor ≤ b.matrixSize) (call : Drawing) :
    (b.step s call).cursor ≤ b.matrixSize := by
  cases call with
  | clear => exact Nat.zero_le _
  | setCursor col line => exact cursor_wrap_le b _
  | write text invert => exact writeChars_cursor_le h
  | writeChar data invert => exact writeChar_cursor_le data invert h
  | writeLn text invert => exact advancePage_cursor_le true (writeChars_cursor_le h)
  | advancePage clearPageRemainder => exact advancePage_cursor_le clearPageRemainder h
  | advanceChar => exact cursor_wrap_le b _
  | writeRaw data =>
    exact Nat.le_trans (Nat.le_of_eq (writeRawLoop_cursor b.geometry s.cursor _ s)) h
  | writeRawByte data index =>
    exact Nat.le_trans (Nat.le_of_eq (setByte_cursor b.geometry _ data s)) h
  | writePixel x y on =>
    exact Nat.le_trans (Nat.le_of_eq (writePixel_cursor b x y on s)) h
  | pan left => exact h

theorem rawData_length_le (h : s.cursor ≤ b.matrixSize) (data : List UInt8) :
    s.cursor + (b.rawData data s).length ≤ b.matrixSize := by
  unfold Build.rawData
  rw [List.length_take]
  split_ifs <;> omega

/-! ## Runs -/

/-- The cursor is in the buffer or at its end, and only blocks are marked. -/
structure Build.Inside (b : Build) (s : State) : Prop where
  cursor_le : s.cursor ≤ b.matrixSize
  onlyBlocks : b.OnlyBlocks s

/-- Before the first call the buffer is cleared. -/
theorem inside_start (b : Build) (memory : Memory UInt8) (display : Raster UInt8) :
    b.Inside (start b.geometry memory display) :=
  ⟨Nat.zero_le _, onlyBlocks_of_all rfl⟩

theorem safe_iff_meets (h : b.Inside s) (call : Drawing) :
    b.Safe s call ↔ b.Meets s call := by
  have hafter : ∀ {P : Prop}, b.OnlyBlocks s ∧ P ↔ P := and_iff_right h.onlyBlocks
  cases call with
  | clear =>
    exact iff_of_true ⟨onlyBlocks_of_all rfl, fun i hi => List.mem_range.mp hi⟩ trivial
  | setCursor col line => exact iff_of_true (confined_nil.mpr h.onlyBlocks) trivial
  | write text invert => exact confined_writeChars.trans hafter
  | writeChar data invert => exact confined_writeChar.trans hafter
  | writeLn text invert =>
    exact (confined_append confined_writeChars confined_writeSpaces).trans hafter
  | advancePage clearPageRemainder =>
    cases clearPageRemainder with
    | true => exact confined_writeSpaces.trans hafter
    | false => exact iff_of_true (confined_nil.mpr h.onlyBlocks) trivial
  | advanceChar => exact iff_of_true (confined_nil.mpr h.onlyBlocks) trivial
  | writeRaw data =>
    have hlen := rawData_length_le h.cursor_le data
    refine (and_iff_left fun i hi => ?_).trans (onlyBlocks_writeRawLoop.trans hafter)
    obtain ⟨k, hk, rfl⟩ := List.mem_range'.mp hi
    omega
  | writeRawByte data index => exact confined_writeRawByte.trans hafter
  | writePixel x y on => exact confined_writePixel.trans hafter
  | pan left => exact iff_of_true ⟨onlyBlocks_of_all rfl, touchedPan_lt b left⟩ trivial

theorem inside_step (h : b.Inside s) {call : Drawing} (hmeets : b.Meets s call) :
    b.Inside (b.step s call) :=
  ⟨step_cursor_le h.cursor_le call, ((safe_iff_meets h call).mpr hmeets).1⟩

end Safety

/-! ## Whole lines -/

namespace Build

/-- The lines make up the buffer, with room for a glyph in each, and every byte is in a
block. -/
structure WholeLines (b : Build) : Prop where
  lines : b.rotationWidth ∣ b.matrixSize
  glyph_le : b.fontWidth ≤ b.rotationWidth
  blocks : b.matrixSize ≤ b.geometry.blockCount * b.geometry.blockSize

/-- A place that is chosen is out of bounds or has room for a glyph, and a raw byte is in the
buffer. -/
def InPlace (b : Build) : Drawing → Prop
  | .setCursor col line =>
    let index := (line.toNat * b.rotationWidth + col.toNat * b.fontWidth) % 65536
    b.matrixSize ≤ index ∨ index + b.fontWidth ≤ b.matrixSize
  | .writeRawByte _ index => index.toNat < b.matrixSize
  | _ => True

/-- There is room for a glyph at the cursor. -/
def Room (b : Build) (s : State) : Prop :=
  s.cursor + b.fontWidth ≤ b.matrixSize

end Build

section Lines

variable {b : Build} {s : State}

theorem rotationWidth_lt (b : Build) : b.rotationWidth < 256 := by
  unfold Build.rotationWidth
  split_ifs
  · exact b.height_lt
  · exact b.geometry.width_lt

theorem matrixSize_pos (b : Build) : 0 < b.matrixSize :=
  Nat.lt_of_lt_of_le (Nat.mul_pos b.geometry.count_pos b.geometry.size_pos) b.geometry.blocks_le

theorem not_behind (h : b.WholeLines) {i : ℕ} (hi : i < b.matrixSize) : ¬ b.Behind i := by
  intro hbehind
  have hlast : i < b.geometry.blockCount * b.geometry.blockSize := Nat.lt_of_lt_of_le hi h.blocks
  exact absurd (Nat.div_lt_of_lt_mul (by rwa [Nat.mul_comm] at hlast))
    (Nat.not_lt_of_le hbehind.1)

theorem room_zero (h : b.WholeLines) (hcursor : s.cursor = 0) : b.Room s := by
  unfold Build.Room
  rw [hcursor, Nat.zero_add]
  exact Nat.le_trans h.glyph_le (Nat.le_of_dvd (matrixSize_pos b) h.lines)

/-- The cursor is set to the start of a line, or to 0 behind the last one. -/
theorem room_line (h : b.WholeLines) (line : ℕ) :
    (if b.rotationWidth * line ≥ b.matrixSize then 0 else b.rotationWidth * line) +
      b.fontWidth ≤ b.matrixSize := by
  have hpos := matrixSize_pos b
  have hglyph := h.glyph_le
  obtain ⟨lines, hlines⟩ := h.lines
  split_ifs with hout
  · have hone := Nat.le_of_dvd hpos h.lines
    omega
  · rw [not_le, hlines] at hout
    have hline : line + 1 ≤ lines := Nat.lt_of_mul_lt_mul_left hout
    have hend := Nat.mul_le_mul_left b.rotationWidth hline
    rw [Nat.mul_add, Nat.mul_one] at hend
    omega

/-- The next character is in the same line, or in the next one. -/
theorem room_advanceChar (h : b.WholeLines) (hroom : b.Room s) : b.Room (b.advanceChar s) := by
  have hwidth := rotationWidth_lt b
  have hmatrix : b.matrixSize < 65536 := b.geometry.matrix_lt
  have hfont : 0 < b.fontWidth := b.geometry.fontWidth_pos
  have hglyph := h.glyph_le
  obtain ⟨lines, hlines⟩ := h.lines
  unfold Build.Room at hroom
  have hsplit := Nat.div_add_mod (s.cursor + b.fontWidth) b.rotationWidth
  have hrest := Nat.mod_lt (s.cursor + b.fontWidth) (Nat.lt_of_lt_of_le hfont hglyph)
  have hnext : (s.cursor + b.fontWidth) % 65536 = s.cursor + b.fontWidth :=
    Nat.mod_eq_of_lt (by omega)
  have hspace : (b.rotationWidth - (s.cursor + b.fontWidth) % b.rotationWidth) % 256 =
      b.rotationWidth - (s.cursor + b.fontWidth) % b.rotationWidth :=
    Nat.mod_eq_of_lt (by omega)
  -- the end of the line, unless the buffer ends here
  have hend : s.cursor + b.fontWidth < b.matrixSize →
      b.rotationWidth * ((s.cursor + b.fontWidth) / b.rotationWidth + 1) ≤ b.matrixSize := by
    intro hin
    rw [hlines] at hin ⊢
    exact Nat.mul_le_mul_left _ (Nat.div_lt_of_lt_mul hin)
  rw [Nat.mul_add, Nat.mul_one] at hend
  unfold Build.Room Build.advanceChar
  dsimp only
  rw [hnext, hspace]
  by_cases hshort : b.rotationWidth - (s.cursor + b.fontWidth) % b.rotationWidth < b.fontWidth
  · rw [if_pos hshort]
    have hin : s.cursor + b.fontWidth < b.matrixSize := by
      -- at the end of the buffer a line begins
      by_contra hfull
      have hfull' : s.cursor + b.fontWidth = b.rotationWidth * lines := by omega
      rw [hfull', Nat.mul_mod_right] at hshort
      omega
    have hline : (s.cursor + b.fontWidth +
        (b.rotationWidth - (s.cursor + b.fontWidth) % b.rotationWidth)) % 65536 =
        b.rotationWidth * ((s.cursor + b.fontWidth) / b.rotationWidth + 1) := by
      have hle := hend hin
      rw [Nat.mul_add, Nat.mul_one, Nat.mod_eq_of_lt (by omega)]
      omega
    rw [hline]
    exact room_line h _
  · rw [if_neg hshort]
    split_ifs with hout
    · have hone := Nat.le_of_dvd (matrixSize_pos b) h.lines
      omega
    · have hle := hend (Nat.lt_of_not_le hout)
      omega

theorem drawGlyph_cursor (b : Build) (data : UInt8) (invert : Bool) (s : State) :
    (b.drawGlyph data invert s).cursor = s.cursor := by
  unfold Build.drawGlyph
  dsimp only
  split_ifs <;> rfl

theorem room_writeGlyph (h : b.WholeLines) (hroom : b.Room s) (data : UInt8) (invert : Bool) :
    b.Room (b.writeGlyph data invert s) := by
  refine room_advanceChar h ?_
  unfold Build.Room
  rw [drawGlyph_cursor]
  exact hroom

theorem glyphOk_of_room (h : b.WholeLines) (hroom : b.Room s) (data : UInt8) (invert : Bool) :
    b.GlyphOk data invert s := by
  have hfont : 0 < b.fontWidth := b.geometry.fontWidth_pos
  unfold Build.Room at hroom
  refine ⟨hroom, ?_⟩
  rintro (hfirst | hlast)
  · exact absurd hfirst (not_behind h (by omega))
  · exact absurd hlast (not_behind h (by omega))

theorem spaces_of_room (h : b.WholeLines) {n : ℕ} {s : State} (hroom : b.Room s) :
    b.SpacesOk n s ∧ b.Room (b.writeSpaces n s) := by
  induction n generalizing s with
  | zero => exact ⟨trivial, hroom⟩
  | succ n ih =>
    obtain ⟨hspaces, hafter⟩ := ih (room_writeGlyph h hroom 32 false)
    exact ⟨⟨glyphOk_of_room h hroom 32 false, hspaces⟩, hafter⟩

theorem room_nextLine (h : b.WholeLines) (s : State) : b.Room (b.advancePage false s) := by
  have hwidth := rotationWidth_lt b
  have hpos : 0 < b.rotationWidth := Nat.lt_of_lt_of_le b.geometry.fontWidth_pos h.glyph_le
  have hsplit := Nat.div_add_mod s.cursor b.rotationWidth
  have hrest := Nat.mod_lt s.cursor hpos
  have hline : s.cursor + b.remaining s = b.rotationWidth * (s.cursor / b.rotationWidth + 1) := by
    unfold Build.remaining
    rw [Nat.mod_eq_of_lt (by omega), Nat.mul_add, Nat.mul_one]
    omega
  unfold Build.Room Build.advancePage
  rw [if_neg Bool.false_ne_true, hline]
  exact room_line h _

theorem char_of_room (h : b.WholeLines) (hroom : b.Room s) (data : UInt8) (invert : Bool) :
    b.CharOk data invert s ∧ b.Room (b.writeChar data invert s) := by
  unfold Build.CharOk Build.writeChar
  split_ifs with hnewline hreturn
  · exact spaces_of_room h hroom
  · exact ⟨trivial, room_nextLine h s⟩
  · exact ⟨glyphOk_of_room h hroom data invert, room_writeGlyph h hroom data invert⟩

theorem chars_of_room (h : b.WholeLines) {invert : Bool} {text : List UInt8} {s : State}
    (hroom : b.Room s) :
    b.CharsOk invert text s ∧ b.Room (b.writeChars invert text s) := by
  induction text generalizing s with
  | nil => exact ⟨trivial, hroom⟩
  | cons data text ih =>
    obtain ⟨hchar, hafter⟩ := char_of_room h hroom data invert
    obtain ⟨hchars, hend⟩ := ih hafter
    exact ⟨⟨hchar, hchars⟩, hend⟩

theorem meets_of_room (h : b.WholeLines) (hroom : b.Room s) {call : Drawing}
    (hplace : b.InPlace call) : b.Meets s call ∧ b.Room (b.step s call) := by
  have hfont : 0 < b.fontWidth := b.geometry.fontWidth_pos
  have hcursor : s.cursor ≤ b.matrixSize := by
    unfold Build.Room at hroom
    omega
  have hfirst : b.fontWidth ≤ b.matrixSize :=
    Nat.le_trans h.glyph_le (Nat.le_of_dvd (matrixSize_pos b) h.lines)
  have hkeep : ∀ {s' : State}, s'.cursor = s.cursor → b.Room s' := by
    intro s' hsame
    unfold Build.Room
    rw [hsame]
    exact hroom
  cases call with
  | clear => exact ⟨trivial, room_zero h rfl⟩
  | setCursor col line =>
    refine ⟨trivial, ?_⟩
    unfold Build.InPlace at hplace
    unfold Build.step Build.setCursor Build.Room
    dsimp only at hplace ⊢
    split_ifs with hout <;> omega
  | write text invert => exact chars_of_room h hroom
  | writeChar data invert => exact char_of_room h hroom data invert
  | writeLn text invert =>
    obtain ⟨hchars, hafter⟩ := chars_of_room h hroom
    obtain ⟨hspaces, hend⟩ := spaces_of_room h hafter
    exact ⟨⟨hchars, hspaces⟩, hend⟩
  | advancePage clearPageRemainder =>
    cases clearPageRemainder with
    | true => exact spaces_of_room h hroom
    | false => exact ⟨trivial, room_nextLine h s⟩
  | advanceChar => exact ⟨trivial, room_advanceChar h hroom⟩
  | writeRaw data =>
    have hlen := rawData_length_le hcursor data
    refine ⟨fun k x hx hbehind => ?_, hkeep (writeRawLoop_cursor b.geometry s.cursor _ s)⟩
    have hk := (List.getElem?_eq_some_iff.mp hx).1
    exact absurd hbehind (not_behind h (by omega))
  | writeRawByte data index =>
    exact ⟨⟨hplace, fun hbehind => absurd hbehind (not_behind h hplace)⟩,
      hkeep (setByte_cursor b.geometry _ data s)⟩
  | writePixel x y on =>
    exact ⟨fun _ hin hbehind => absurd hbehind (not_behind h hin),
      hkeep (writePixel_cursor b x y on s)⟩
  | pan left => exact ⟨trivial, hkeep rfl⟩

end Lines

/-! ## Safety -/

/-- Calls stay in the buffer just if each glyph has room where it is drawn, raw bytes are in
the buffer and no byte behind the last block is changed.  Where the lines and the blocks make
up the buffer it is enough that the places that are chosen have room. -/
theorem drawing_safe (b : Build) (memory : Memory UInt8) (display : Raster UInt8)
    (calls : List Drawing) :
    (Along b.step b.Safe (start b.geometry memory display) calls ↔
      Along b.step b.Meets (start b.geometry memory display) calls) ∧
    (b.WholeLines → (∀ call ∈ calls, b.InPlace call) →
      Along b.step b.Safe (start b.geometry memory display) calls) := by
  have hiff : Along b.step b.Safe (start b.geometry memory display) calls ↔
      Along b.step b.Meets (start b.geometry memory display) calls :=
    along_iff_of_invariant b.Inside (fun _ call h => safe_iff_meets h call)
      (fun _ _ h hmeets => inside_step h hmeets) (inside_start b memory display)
  refine ⟨hiff, fun hwhole hplaces => hiff.mpr ?_⟩
  exact along_of_invariant b.Room (fun _ _ h hplace => (meets_of_room hwhole h hplace).2)
    (fun _ _ h hplace => (meets_of_room hwhole h hplace).1)
    (room_zero hwhole rfl)
    (along_of_forall fun call hcall _ => hplaces call hcall)

/-- The display of one page of 16 columns, with two blocks of eight bytes. -/
def smallBuild : Build where
  geometry := smallDisplay 2 (2 ^ 3) (by decide) (by decide) (by decide) (by decide)
  displayHeight := 2 ^ 3
  turned := false
  pages_eq := rfl
  height_pos := by decide
  height_lt := by decide

/-- Characters, a new line and the second place of the line, with a raw byte at the end. -/
def drawLines : List Drawing :=
  [.write [1, 1, 10, 1, 0, 1] true, .setCursor 1 0, .writeChar 1 false, .pan true,
    .writeRawByte 3 15, .writeLn [1] false]

theorem drawing_safe_drawLines :
    Along smallBuild.step smallBuild.Safe
      (start smallBuild.geometry (fun _ => 0) blankDisplay) drawLines :=
  (drawing_safe smallBuild (fun _ => 0) blankDisplay drawLines).2
    ⟨by decide, by decide, by decide⟩
    (by
      intro call hcall
      simp only [drawLines, List.mem_cons, List.not_mem_nil, or_false] at hcall
      rcases hcall with rfl | rfl | rfl | rfl | rfl | rfl
      · trivial
      · exact .inr (by decide)
      · trivial
      · trivial
      · exact (by decide : (15 : UInt16).toNat < smallBuild.matrixSize)
      · trivial)

/-- The third place of the line begins at byte 12, and a glyph of six bytes there ends behind
the buffer of 16. -/
theorem not_drawing_safe :
    ¬ ∀ (b : Build) (memory : Memory UInt8) (display : Raster UInt8) (calls : List Drawing),
      Along b.step b.Safe (start b.geometry memory display) calls := by
  intro h
  have hglyph := (h smallBuild (fun _ => 0) blankDisplay [.setCursor 2 0, .writeChar 1 false]).2.1
  exact absurd (hglyph.2 16 (by decide)) (by decide)

end Oled
end VialQmk
