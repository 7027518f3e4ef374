import Mathlib.Data.Int.Notation
import Mathlib.Logic.Function.Basic
import Mathlib.Tactic.Common

/-!
# Quantum Painter - drawing

{lit}`qp_draw_core.c`: lines and rectangles.  Pixels of one color are prepared in a buffer; a
viewport is chosen on the display, and pixels of the buffer are streamed into it.

Main results:

- Definition {lit}`Drawing`: the buffer, and the calls of the driver so far.
- Definition {lit}`qpLine`, {lit}`qpRect`: what is drawn.
-/

namespace VialQmk
namespace Painter

/-! ## The display -/

structure Hsv where
  hue : UInt8
  sat : UInt8
  val : UInt8

/-- A call of the driver. -/
inductive Call (π : Type*)
  | viewport (left top right bottom : ℕ)
  | pixdata (pixels : List π)

/-- A display with its driver; {lit}`π` are native pixels. -/
structure Device (π : Type*) where
  validateOk : Bool
  /-- The result of {lit}`qp_comms_start` -/
  commsStart : Bool
  /-- {lit}`QUANTUM_PAINTER_PIXDATA_BUFFER_SIZE` -/
  bufferSize : ℕ
  nativeBitsPerPixel : ℕ
  bits_pos : 0 < nativeBitsPerPixel
  bits_le : nativeBitsPerPixel ≤ bufferSize * 8
  /-- {lit}`palette_convert` -/
  paletteConvert : Hsv → π
  /-- Whether the last one of the calls was successful -/
  ok : List (Call π) → Bool

/-- The pixels in {lit}`qp_internal_global_pixdata_buffer`, and the calls so far. -/
structure Drawing (π : Type*) where
  buffer : ℕ → π
  calls : List (Call π)

/-- Something that is drawn, with the result of the function; {lit}`none` if it is still
running. -/
abbrev Action (π : Type*) := Drawing π → Drawing π × Option Bool

/-- One after the other, while they are successful. -/
def inOrder {π : Type*} : List (Action π) → Action π
  | [], g => (g, some true)
  | action :: actions, g =>
    match action g with
    | (g, some true) => inOrder actions g
    | r => r

variable {π : Type*} (d : Device π)

/-- {lit}`qp_internal_num_pixels_in_buffer` -/
def Device.numPixelsInBuffer : ℕ :=
  d.bufferSize * 8 / d.nativeBitsPerPixel

theorem Device.numPixelsInBuffer_pos : 0 < d.numPixelsInBuffer :=
  Nat.div_pos d.bits_le d.bits_pos

def callDriver (call : Call π) : Action π := fun g =>
  ({ g with calls := g.calls ++ [call] }, some (d.ok (g.calls ++ [call])))

/-- {lit}`pixdata` of the driver, with the first pixels of the buffer -/
def pixdata (n : ℕ) : Action π := fun g =>
  callDriver d (.pixdata ((List.range n).map g.buffer)) g

/-- {lit}`qp_internal_setpixel_impl` -/
def setpixelImpl (x y : ℕ) : Action π :=
  inOrder [callDriver d (.viewport x y x y), pixdata d 1]

/-- {lit}`qp_internal_fill_pixdata` -/
def fillPixdata (numPixels : ℕ) (color : Hsv) (g : Drawing π) : Drawing π :=
  let numPixels := min d.numPixelsInBuffer numPixels
  { g with
    buffer := (List.range numPixels).foldl
      (fun buffer i => Function.update buffer i (d.paletteConvert color)) g.buffer }

/-- The start of the functions. -/
def started (action : Action π) : Action π := fun g =>
  if d.validateOk = false then (g, some false)
  else if d.commsStart = false then (g, some false)
  else action g

/-! ## Rectangles -/

/-- A number as one of 16 bits -/
def toUint16 (n : ℤ) : ℕ :=
  (n % 65536).toNat

/-- The loop of {lit}`qp_internal_fillrect_helper_impl`; some pixels are sent in each round. -/
def fillrectLoop : ℕ → ℕ → Action π
  | 0, _, g => (g, some true)
  | n + 1, remaining, g =>
    if 0 < remaining then
      let transmit := min remaining d.numPixelsInBuffer
      match pixdata d transmit g with
      | (g, some true) => fillrectLoop n (remaining - transmit) g
      | r => r
    else (g, some true)

/-- {lit}`qp_internal_fillrect_helper_impl` -/
def fillrectHelperImpl (left top right bottom : ℕ) : Action π := fun g =>
  let l := min left right
  let r := max left right
  let t := min top bottom
  let b := max top bottom
  let w := (r - l + 1) % 65536
  let h := (b - t + 1) % 65536
  let remaining := w * h % 4294967296
  -- the result of the viewport is not read
  fillrectLoop d remaining remaining (callDriver d (.viewport l t r b) g).1

/-- {lit}`qp_rect` -/
def qpRect (left top right bottom : ℕ) (color : Hsv) (filled : Bool) : Action π :=
  let l := min left right
  let r := max left right
  let t := min top bottom
  let b := max top bottom
  let w := (r - l + 1) % 65536
  let h := (b - t + 1) % 65536
  started d fun g =>
    if filled then
      fillrectHelperImpl d l t r b (fillPixdata d (w * h % 4294967296) color g)
    else
      inOrder
        [fillrectHelperImpl d l t r t, fillrectHelperImpl d l b r b,
          fillrectHelperImpl d l (toUint16 (t + 1)) l (toUint16 (b - 1)),
          fillrectHelperImpl d r (toUint16 (t + 1)) r (toUint16 (b - 1))]
        (fillPixdata d (max w h) color g)

/-! ## Lines -/

/-- A number as one of 16 bits with a sign -/
def toInt16 (n : ℤ) : ℤ :=
  n.bmod 65536

/-- The variables of {lit}`qp_line` that are not changed. -/
structure LineSetup where
  slopex : ℤ
  slopey : ℤ
  dx : ℤ
  dy : ℤ
deriving DecidableEq

/-- The variables of the loop. -/
structure LineState where
  x : ℤ
  y : ℤ
  e : ℤ
deriving DecidableEq

/-- The start of {lit}`qp_line` -/
def lineSetup (x0 y0 x1 y1 : ℕ) : LineSetup where
  slopex := if toInt16 x0 < toInt16 x1 then 1 else -1
  slopey := if toInt16 y0 < toInt16 y1 then 1 else -1
  dx := toInt16 (toInt16 x1 - toInt16 x0).natAbs
  dy := toInt16 (-(toInt16 y1 - toInt16 y0).natAbs)

def lineStart (l : LineSetup) (x0 y0 : ℕ) : LineState :=
  ⟨toInt16 x0, toInt16 y0, toInt16 (l.dx + l.dy)⟩

/-- The body of the loop, without the pixel. -/
def lineStep (l : LineSetup) (s : LineState) : LineState :=
  let e2 := toInt16 (2 * s.e)
  let s := if l.dy ≤ e2 then ⟨toInt16 (s.x + l.slopex), s.y, toInt16 (s.e + l.dy)⟩ else s
  if e2 ≤ l.dx then ⟨s.x, toInt16 (s.y + l.slopey), toInt16 (s.e + l.dx)⟩ else s

/-- The loop of {lit}`qp_line`, for some rounds. -/
def lineLoop (l : LineSetup) (x1 y1 : ℕ) :
    ℕ → LineState → Drawing π → (Drawing π × Option Bool) × LineState
  | 0, s, g => ((g, none), s)
  | n + 1, s, g =>
    if s.x ≠ x1 ∨ s.y ≠ y1 then
      match setpixelImpl d (toUint16 s.x) (toUint16 s.y) g with
      | (g, some true) => lineLoop l x1 y1 n (lineStep l s) g
      | r => (r, s)
    else ((g, some true), s)

/-- {lit}`qp_line`, with so many rounds of the loop -/
def qpLine (rounds x0 y0 x1 y1 : ℕ) (color : Hsv) : Action π :=
  if x0 = x1 ∨ y0 = y1 then qpRect d x0 y0 x1 y1 color true
  else started d fun g =>
    let l := lineSetup x0 y0 x1 y1
    match lineLoop d l x1 y1 rounds (lineStart l x0 y0) (fillPixdata d 1 color g) with
    | ((g, none), _) => (g, none)
    | ((g, some ret), s) =>
      let (g, last) := setpixelImpl d (toUint16 s.x) (toUint16 s.y) g
      (g, last.map (ret && ·))

end Painter
end VialQmk
