import VialQmk.Library.Memory
import VialQmk.Library.Raster
import Mathlib.Data.Nat.Bitwise

/-!
# OLED driver

{lit}`oled_driver.c` for a controller with horizontal addressing mode and rotation 0: the
buffer, the functions that draw into it and mark blocks as dirty, and the rendering of the
dirty blocks.

The display has a RAM of one byte for each column of each page, and writes data through the
window of the last commands.  Each transmission may fail: a command leaves the window in any
state then, and of the data only the first bytes arrive.

Main results:

- Definition {lit}`Geometry`: the macros of a build.
- Definition {lit}`State`: the driver with its display.
- Definition {lit}`renderDirty`: {lit}`oled_render_dirty`.
- Definition {lit}`step`: the calls of a keymap.
-/

namespace VialQmk
namespace Oled

/-! ## Builds -/

/-- The macros of a build. -/
structure Geometry where
  /-- {lit}`OLED_DISPLAY_WIDTH` -/
  displayWidth : ℕ
  /-- {lit}`OLED_DISPLAY_HEIGHT / 8` -/
  pages : ℕ
  /-- {lit}`OLED_COLUMN_OFFSET` -/
  columnOffset : ℕ
  /-- The width of {lit}`OLED_BLOCK_TYPE` -/
  blockBits : ℕ
  /-- {lit}`OLED_BLOCK_COUNT` -/
  blockCount : ℕ
  /-- {lit}`OLED_BLOCK_SIZE` -/
  blockSize : ℕ
  /-- {lit}`OLED_UPDATE_PROCESS_LIMIT` -/
  updateProcessLimit : ℕ
  /-- {lit}`OLED_FONT_WIDTH` -/
  fontWidth : ℕ
  /-- {lit}`OLED_FONT_START` -/
  fontStart : UInt8
  /-- {lit}`OLED_FONT_END` -/
  fontEnd : UInt8
  font : List UInt8
  width_pos : 0 < displayWidth
  /-- {lit}`oled_rotation_width` is a byte. -/
  width_lt : displayWidth < 256
  /-- Columns and pages are sent as bytes. -/
  columns_le : columnOffset + displayWidth ≤ 256
  pages_le : pages ≤ 256
  /-- Indices are 16-bit words. -/
  matrix_lt : pages * displayWidth < 65536
  count_pos : 0 < blockCount
  count_le : blockCount ≤ blockBits
  size_pos : 0 < blockSize
  /-- Every block is in the buffer. -/
  blocks_le : blockCount * blockSize ≤ pages * displayWidth
  fontWidth_pos : 0 < fontWidth
  font_le : (fontEnd.toNat + 1 - fontStart.toNat) * fontWidth ≤ font.length

namespace Geometry

/-- {lit}`OLED_MATRIX_SIZE` -/
def matrixSize (g : Geometry) : ℕ :=
  g.pages * g.displayWidth

/-- {lit}`OLED_ALL_BLOCKS_MASK` -/
def allBlocksMask (g : Geometry) : ℕ :=
  ((2 ^ (g.blockCount - 1) - 1) <<< 1) ||| 1

/-- {lit}`(OLED_BLOCK_TYPE)1 << block` -/
def blockBit (g : Geometry) (block : ℕ) : ℕ :=
  2 ^ block % 2 ^ g.blockBits

end Geometry

/-! ## The display -/

/-- {lit}`COLUMN_ADDR` -/
def columnAddr : UInt8 := 0x21

/-- {lit}`PAGE_ADDR` -/
def pageAddr : UInt8 := 0x22

/-- {lit}`DISPLAY_ON` -/
def displayOn : UInt8 := 0xAF

/-- {lit}`DISPLAY_OFF` -/
def displayOff : UInt8 := 0xAE

/-- The display carries out commands: the window is set column by column and page by page,
and with it the place that is written next. -/
def runCommands : List UInt8 → Raster UInt8 → Raster UInt8
  | [], d => d
  | [_], d => d
  | [_, _], d => d
  | opcode :: start :: stop :: rest, d =>
    if opcode = columnAddr then
      runCommands rest
        { d with
          window :=
            { d.window with
              left := start.toNat
              right := stop.toNat }
          place := (start.toNat, d.place.2) }
    else if opcode = pageAddr then
      runCommands rest
        { d with
          window :=
            { d.window with
              top := start.toNat
              bottom := stop.toNat }
          place := (d.place.1, start.toNat) }
    else runCommands (start :: stop :: rest) d

/-- How a transmission ends: the display gets it all; or it fails, and after a command the
display has any window, after data the first bytes of them. -/
inductive Outcome
  | success
  | failure (window : Window) (place : ℕ × ℕ) (received : ℕ)
deriving DecidableEq

/-- The outcome of the next transmission, and those after it; where nothing is said it
succeeds. -/
def nextOutcome : List Outcome → Outcome × List Outcome
  | [] => (.success, [])
  | outcome :: bus => (outcome, bus)

/-! ## The driver -/

/-- The static variables, and the display. -/
structure State where
  buffer : Memory UInt8
  cursor : ℕ
  dirty : ℕ
  initialized : Bool
  active : Bool
  scrolling : Bool
  display : Raster UInt8

/-- {lit}`oled_send_cmd`, without the control byte; whether it succeeds. -/
def sendCmd (outcome : Outcome) (commands : List UInt8) (s : State) : State × Bool :=
  match outcome with
  | .success => ({ s with display := runCommands commands s.display }, true)
  | .failure window place _ =>
    ({ s with
       display :=
         { s.display with
           window := window
           place := place } }, false)

/-- {lit}`oled_send_data`; whether it succeeds. -/
def sendData (outcome : Outcome) (data : List UInt8) (s : State) : State × Bool :=
  match outcome with
  | .success => ({ s with display := s.display.puts data }, true)
  | .failure _ _ received => ({ s with display := s.display.puts (data.take received) }, false)

/-- {lit}`oled_clear` -/
def clear (g : Geometry) (s : State) : State :=
  { s with
    buffer := s.buffer.fill 0 g.matrixSize 0
    cursor := 0
    dirty := g.allBlocksMask }

/-- After {lit}`oled_init`, whatever the display shows. -/
def start (g : Geometry) (memory : Memory UInt8) (display : Raster UInt8) : State :=
  { clear g ⟨memory, 0, 0, false, false, false, display⟩ with
    initialized := true
    active := true
    scrolling := false }

/-- {lit}`calc_bounds`: the commands that choose the window of a block. -/
def calcBounds (g : Geometry) (updateStart : ℕ) : List UInt8 :=
  let startPage := UInt8.ofNat (g.blockSize * updateStart / g.displayWidth)
  let startColumn := UInt8.ofNat (g.blockSize * updateStart % g.displayWidth)
  let firstColumn := UInt8.ofNat (startColumn.toNat + g.columnOffset)
  let lastColumn := UInt8.ofNat
    ((g.blockSize + g.displayWidth - 1) % g.displayWidth + firstColumn.toNat)
  let lastPage := UInt8.ofNat
    ((g.blockSize + g.displayWidth - 1) / g.displayWidth - 1 + startPage.toNat)
  [columnAddr, firstColumn, lastColumn, pageAddr, startPage, lastPage]

/-- {lit}`oled_on` -/
def on (bus : List Outcome) (s : State) : State × List Outcome :=
  if ¬ s.initialized ∨ s.active then (s, bus)
  else
    let (outcome, bus) := nextOutcome bus
    let (s, ok) := sendCmd outcome [displayOn] s
    ({ s with active := ok }, bus)

/-- {lit}`oled_off` -/
def off (bus : List Outcome) (s : State) : State × List Outcome :=
  if ¬ s.initialized ∨ ¬ s.active then (s, bus)
  else
    let (outcome, bus) := nextOutcome bus
    let (s, ok) := sendCmd outcome [displayOff] s
    ({ s with active := !ok }, bus)

/-- The search for the next dirty block, from {lit}`updateStart` on. -/
def nextDirty (dirty : ℕ) : ℕ → ℕ → ℕ
  | 0, updateStart => updateStart
  | n + 1, updateStart =>
    if dirty.testBit updateStart then updateStart else nextDirty dirty n (updateStart + 1)

/-- The loop of {lit}`oled_render_dirty`, for as many rounds as there are blocks. -/
def renderLoop (g : Geometry) (all : Bool) : ℕ → ℕ → ℕ → List Outcome → State → State
  | 0, _, _, _, s => s
  | n + 1, updateStart, numProcessed, bus, s =>
    if s.dirty ≠ 0 ∧ (numProcessed < g.updateProcessLimit ∨ all) then
      let updateStart := nextDirty s.dirty g.blockCount updateStart
      let (outcome, bus) := nextOutcome bus
      let (s, ok) := sendCmd outcome (calcBounds g updateStart) s
      if ok then
        let (outcome, bus) := nextOutcome bus
        let (s, ok) :=
          sendData outcome (s.buffer.load (g.blockSize * updateStart) g.blockSize) s
        if ok then
          renderLoop g all n updateStart (numProcessed + 1) bus
            { s with dirty := s.dirty ^^^ (s.dirty &&& g.blockBit updateStart) }
        else s
      else s
    else s

/-- {lit}`oled_render_dirty`, when its transmissions end in these ways. -/
def renderDirty (g : Geometry) (all : Bool) (bus : List Outcome) (s : State) : State :=
  let s := { s with dirty := s.dirty &&& g.allBlocksMask }
  if s.dirty = 0 ∨ ¬ s.initialized ∨ s.scrolling then s
  else
    let (s, bus) := on bus s
    renderLoop g all g.blockCount 0 0 bus s

/-! ## Drawing -/

/-- The block of a byte gets dirty. -/
def markDirty (g : Geometry) (index : ℕ) (s : State) : State :=
  { s with dirty := s.dirty ||| g.blockBit (index / g.blockSize) }

/-- {lit}`oled_set_cursor` -/
def setCursor (g : Geometry) (col line : UInt8) (s : State) : State :=
  let index := (line.toNat * g.displayWidth + col.toNat * g.fontWidth) % 65536
  { s with cursor := if index ≥ g.matrixSize then 0 else index }

/-- {lit}`oled_advance_char` -/
def advanceChar (g : Geometry) (s : State) : State :=
  let nextIndex := (s.cursor + g.fontWidth) % 65536
  let remainingSpace := (g.displayWidth - nextIndex % g.displayWidth) % 256
  let nextIndex :=
    if remainingSpace < g.fontWidth then (nextIndex + remainingSpace) % 65536 else nextIndex
  { s with cursor := if nextIndex ≥ g.matrixSize then 0 else nextIndex }

/-- The bytes that {lit}`oled_write_char` draws for a character. -/
def glyph (g : Geometry) (data : UInt8) (invert : Bool) : List UInt8 :=
  let bytes :=
    if data < g.fontStart ∨ data > g.fontEnd then List.replicate g.fontWidth 0
    else (g.font.drop ((data.toNat - g.fontStart.toNat) * g.fontWidth)).take g.fontWidth
  if invert then bytes.map (~~~ ·) else bytes

/-- {lit}`oled_write_char` for a character that is drawn. -/
def writeGlyph (g : Geometry) (data : UInt8) (invert : Bool) (s : State) : State :=
  let drawn := { s with buffer := s.buffer.store s.cursor (glyph g data invert) }
  let s :=
    if drawn.buffer.load s.cursor g.fontWidth ≠ s.buffer.load s.cursor g.fontWidth then
      -- the glyph may span two blocks
      markDirty g (s.cursor + g.fontWidth - 1) (markDirty g s.cursor drawn)
    else drawn
  advanceChar g s

/-- Spaces that {lit}`oled_advance_page` writes. -/
def writeSpaces (g : Geometry) : ℕ → State → State
  | 0, s => s
  | n + 1, s => writeSpaces g n (writeGlyph g 32 false s)

/-- The bytes up to the end of the line of the cursor. -/
def remaining (g : Geometry) (s : State) : ℕ :=
  (g.displayWidth - s.cursor % g.displayWidth) % 256

/-- {lit}`oled_advance_page` -/
def advancePage (g : Geometry) (clearPageRemainder : Bool) (s : State) : State :=
  if clearPageRemainder then writeSpaces g (remaining g s / g.fontWidth) s
  else
    { s with
      cursor :=
        if s.cursor + remaining g s ≥ g.matrixSize then 0 else s.cursor + remaining g s }

/-- {lit}`'\n'` -/
def newline : UInt8 := 10

/-- {lit}`'\r'` -/
def carriageReturn : UInt8 := 13

/-- {lit}`oled_write_char` -/
def writeChar (g : Geometry) (data : UInt8) (invert : Bool) (s : State) : State :=
  if data = newline then advancePage g true s
  else if data = carriageReturn then advancePage g false s
  else writeGlyph g data invert s

/-- The inner loop of {lit}`oled_pan`. -/
def panPage (g : Geometry) (left : Bool) (buffer : Memory UInt8) (y : ℕ) : Memory UInt8 :=
  (List.range (g.displayWidth - 1)).foldl (fun buffer k =>
    let i := y * g.displayWidth + (if left then k else g.displayWidth - 1 - k)
    buffer.store i [buffer (if left then i + 1 else i - 1)]) buffer

/-- {lit}`oled_pan` -/
def pan (g : Geometry) (left : Bool) (s : State) : State :=
  { s with
    buffer := (List.range g.pages).foldl (panPage g left) s.buffer
    dirty := g.allBlocksMask }

/-- One byte is written, and its block gets dirty if it changes. -/
def setByte (g : Geometry) (index : ℕ) (data : UInt8) (s : State) : State :=
  if s.buffer index = data then s
  else markDirty g index { s with buffer := s.buffer.store index [data] }

/-- {lit}`oled_write_raw_byte` -/
def writeRawByte (g : Geometry) (data : UInt8) (index : ℕ) (s : State) : State :=
  setByte g (if index > g.matrixSize then g.matrixSize else index) data s

/-- The loop of {lit}`oled_write_raw` from the byte {lit}`i` on. -/
def writeRawLoop (g : Geometry) : ℕ → List UInt8 → State → State
  | _, [], s => s
  | i, c :: data, s => writeRawLoop g (i + 1) data (setByte g i c s)

/-- {lit}`oled_write_raw` -/
def writeRaw (g : Geometry) (data : List UInt8) (s : State) : State :=
  let size :=
    if data.length + s.cursor > g.matrixSize then g.matrixSize - s.cursor else data.length
  writeRawLoop g s.cursor (data.take size) s

/-- {lit}`oled_write_pixel` -/
def writePixel (g : Geometry) (x y : UInt8) (on : Bool) (s : State) : State :=
  if x.toNat ≥ g.displayWidth then s
  else
    let index := (x.toNat + y.toNat / 8 * g.displayWidth) % 65536
    if index ≥ g.matrixSize then s
    else
      let bit := (1 : UInt8) <<< (y % 8)
      setByte g index (if on then s.buffer index ||| bit else s.buffer index &&& ~~~ bit) s

/-! ## Calls -/

/-- What a keymap calls. -/
inductive Call
  | clear
  | setCursor (col line : UInt8)
  | writeChar (data : UInt8) (invert : Bool)
  | advancePage (clearPageRemainder : Bool)
  | pan (left : Bool)
  | writeRawByte (data : UInt8) (index : ℕ)
  | writeRaw (data : List UInt8)
  | writePixel (x y : UInt8) (on : Bool)
  | renderDirty (all : Bool) (bus : List Outcome)
  | off (bus : List Outcome)

/-- One call. -/
def step (g : Geometry) (s : State) : Call → State
  | .clear => clear g s
  | .setCursor col line => setCursor g col line s
  | .writeChar data invert => writeChar g data invert s
  | .advancePage clearPageRemainder => advancePage g clearPageRemainder s
  | .pan left => pan g left s
  | .writeRawByte data index => writeRawByte g data index s
  | .writeRaw data => writeRaw g data s
  | .writePixel x y on => writePixel g x y on s
  | .renderDirty all bus => renderDirty g all bus s
  | .off bus => (off bus s).1

end Oled
end VialQmk
