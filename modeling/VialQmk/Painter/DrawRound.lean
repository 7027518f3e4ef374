import VialQmk.Painter.DrawCore

/-!
# Quantum Painter - circles and ellipses

{lit}`qp_draw_circle.c` and {lit}`qp_draw_ellipse.c`.  The pixels of an eighth or a fourth are
computed; the others are mirrored.

Main results:

- Definition {lit}`qpCircle`, {lit}`qpEllipse`: what is drawn.
-/

namespace VialQmk
namespace Painter

variable {π : Type*} (d : Device π)

/-- The functions check the display before they prepare the pixels, and start after that. -/
def preparedAndStarted (numPixels : ℕ) (color : Hsv) (action : Action π) : Action π := fun g =>
  if d.validateOk = false then (g, some false)
  else
    let g := fillPixdata d numPixels color g
    if d.commsStart = false then (g, some false)
    else action g

/-! ## Circles -/

/-- {lit}`qp_circle_helper_impl` -/
def circleHelperImpl (centerx centery offsetx offsety : ℕ) (filled : Bool) : Action π :=
  let xpx := toUint16 (toInt16 (toInt16 centerx + toInt16 offsetx))
  let xmx := toUint16 (toInt16 (toInt16 centerx - toInt16 offsetx))
  let xpy := toUint16 (toInt16 (toInt16 centerx + toInt16 offsety))
  let xmy := toUint16 (toInt16 (toInt16 centerx - toInt16 offsety))
  let ypx := toUint16 (toInt16 (toInt16 centery + toInt16 offsetx))
  let ymx := toUint16 (toInt16 (toInt16 centery - toInt16 offsetx))
  let ypy := toUint16 (toInt16 (toInt16 centery + toInt16 offsety))
  let ymy := toUint16 (toInt16 (toInt16 centery - toInt16 offsety))
  if offsetx = 0 then
    if filled then
      inOrder
        [setpixelImpl d centerx ypy, setpixelImpl d centerx ymy,
          fillrectHelperImpl d xpy centery xmy centery]
    else
      inOrder
        [setpixelImpl d centerx ypy, setpixelImpl d centerx ymy, setpixelImpl d xpy centery,
          setpixelImpl d xmy centery]
  else if offsetx = offsety then
    if filled then
      inOrder [fillrectHelperImpl d xpy ypy xmy ypy, fillrectHelperImpl d xpy ymy xmy ymy]
    else
      inOrder
        [setpixelImpl d xpy ypy, setpixelImpl d xmy ypy, setpixelImpl d xpy ymy,
          setpixelImpl d xmy ymy]
  else if filled then
    inOrder
      [fillrectHelperImpl d xpx ypy xmx ypy, fillrectHelperImpl d xpx ymy xmx ymy,
        fillrectHelperImpl d xpy ypx xmy ypx, fillrectHelperImpl d xpy ymx xmy ymx]
  else
    inOrder
      [setpixelImpl d xpx ypy, setpixelImpl d xmx ypy, setpixelImpl d xpx ymy,
        setpixelImpl d xmx ymy, setpixelImpl d xpy ypx, setpixelImpl d xmy ypx,
        setpixelImpl d xpy ymx, setpixelImpl d xmy ymx]

/-- The variables of the loop of {lit}`qp_circle` -/
structure CircleState where
  xcalc : ℤ
  ycalc : ℤ
  err : ℤ

def circleStart (radius : ℕ) : CircleState :=
  ⟨0, toInt16 radius, toInt16 ((5 - (radius / 4 : ℕ)) / 4)⟩

/-- The body of the loop, without the pixels. -/
def circleStep (s : CircleState) : CircleState :=
  let xcalc := toInt16 (s.xcalc + 1)
  if s.err < 0 then ⟨xcalc, s.ycalc, toInt16 (s.err + (2 * xcalc + 1))⟩
  else
    let ycalc := toInt16 (s.ycalc - 1)
    ⟨xcalc, ycalc, toInt16 (s.err + (2 * (xcalc - ycalc) + 1))⟩

/-- The loop of {lit}`qp_circle`, for some rounds. -/
def circleLoop (x y : ℕ) (filled : Bool) : ℕ → CircleState → Action π
  | 0, _, g => (g, none)
  | n + 1, s, g =>
    if s.xcalc < s.ycalc then
      let s := circleStep s
      match circleHelperImpl d x y (toUint16 s.xcalc) (toUint16 s.ycalc) filled g with
      | (g, some true) => circleLoop x y filled n s g
      | r => r
    else (g, some true)

/-- {lit}`qp_circle`, with so many rounds of the loop -/
def qpCircle (rounds x y radius : ℕ) (color : Hsv) (filled : Bool) : Action π :=
  let s := circleStart radius
  preparedAndStarted d (radius * 2 + 1) color
    (inOrder
      [circleHelperImpl d x y (toUint16 s.xcalc) (toUint16 s.ycalc) filled,
        circleLoop d x y filled rounds s])

/-! ## Ellipses -/

/-- {lit}`qp_ellipse_helper_impl` -/
def ellipseHelperImpl (centerx centery offsetx offsety : ℕ) (filled : Bool) : Action π :=
  let xpx := toUint16 (toInt16 (toInt16 centerx + toInt16 offsetx))
  let xmx := toUint16 (toInt16 (toInt16 centerx - toInt16 offsetx))
  let ypy := toUint16 (toInt16 (toInt16 centery + toInt16 offsety))
  let ymy := toUint16 (toInt16 (toInt16 centery - toInt16 offsety))
  if offsetx = 0 then inOrder [setpixelImpl d xpx ypy, setpixelImpl d xpx ymy]
  else if filled then
    inOrder
      (fillrectHelperImpl d xpx ypy xmx ypy ::
        if 0 < offsety then [fillrectHelperImpl d xpx ymy xmx ymy] else [])
  else
    inOrder
      [setpixelImpl d xpx ypy, setpixelImpl d xpx ymy, setpixelImpl d xmx ypy,
        setpixelImpl d xmx ymy]

/-- A result of 32 bits with a sign; {lit}`none` where the arithmetic overflows, which has no
defined behavior. -/
def int32 (v : ℤ) : Option ℤ :=
  if -2147483648 ≤ v ∧ v ≤ 2147483647 then some v else none

/-- The body of a loop of {lit}`qp_ellipse`, without the pixels: the variable that is counted down,
and {lit}`delta`. -/
def ellipseStep (bb fa : ℤ) (p q delta : ℤ) : Option (ℤ × ℤ) := do
  let (q, delta) ←
    if 0 ≤ delta then do
      let step ← int32 (fa * (1 - q))
      let delta ← int32 (delta + step)
      some (toInt16 (q - 1), delta)
    else some (q, delta)
  let step ← int32 (bb * (4 * p + 6))
  let delta ← int32 (delta + step)
  some (q, delta)

/-- A loop of {lit}`qp_ellipse`, for some rounds.  The first one counts {lit}`dx` up and
{lit}`dy` down; in the second one they have changed places, and {lit}`aa` and {lit}`bb` have. -/
def ellipseLoop (helper : ℤ → ℤ → Action π) (aa bb fa : ℤ) :
    ℕ → ℤ → ℤ → ℤ → Drawing π → Option (Drawing π × Option Bool)
  | 0, _, _, _, g => some (g, none)
  | n + 1, p, q, delta, g =>
    (int32 (bb * p)).bind fun left =>
    (int32 (aa * q)).bind fun right =>
    if left ≤ right then
      match helper p q g with
      | (g, some true) =>
        (ellipseStep bb fa p q delta).bind fun (q, delta) =>
        ellipseLoop helper aa bb fa n (toInt16 (p + 1)) q delta g
      | r => some r
    else some (g, some true)

/-- The start of {lit}`delta` -/
def ellipseDelta (aa bb : ℤ) (size : ℕ) : Option ℤ := do
  let first ← int32 (2 * bb)
  let second ← int32 (aa * (1 - 2 * size))
  int32 (first + second)

/-- The loops of {lit}`qp_ellipse`; the second one is entered even if a pixel of the first one
fails. -/
def ellipseLoops (rounds : ℕ) (helper : ℤ → ℤ → Action π) (aa bb fa fb : ℤ) (sizex sizey : ℕ)
    (g : Drawing π) : Option (Drawing π × Option Bool) :=
  (ellipseDelta aa bb sizey).bind fun delta =>
  (ellipseLoop helper aa bb fa rounds 0 (toInt16 sizey) delta g).bind fun
    | (g, none) => some (g, none)
    | (g, some ret) =>
      (ellipseDelta bb aa sizex).bind fun delta =>
      (ellipseLoop (fun dy dx => helper dx dy) bb aa fb rounds 0 (toInt16 sizex) delta g).map
        fun (g, second) => (g, second.map (ret && ·))

/-- {lit}`qp_ellipse`, with so many rounds of each loop -/
def qpEllipse (rounds x y sizex sizey : ℕ) (color : Hsv) (filled : Bool) (g : Drawing π) :
    Option (Drawing π × Option Bool) :=
  let helper (dx dy : ℤ) := ellipseHelperImpl d x y (toUint16 dx) (toUint16 dy) filled
  if d.validateOk = false then some (g, some false)
  else
    (int32 (sizex * sizex)).bind fun aa =>
    (int32 (sizey * sizey)).bind fun bb =>
    (int32 (4 * aa)).bind fun fa =>
    (int32 (4 * bb)).bind fun fb =>
    let g := fillPixdata d (max sizex sizey) color g
    if d.commsStart = false then some (g, some false)
    else ellipseLoops rounds helper aa bb fa fb sizex sizey g

end Painter
end VialQmk
