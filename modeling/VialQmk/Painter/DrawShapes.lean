import VialQmk.Painter.Shapes

/-!
# Quantum Painter - drawing shapes

The strokes of each shape as a list, without the driver.  On a display whose driver does not fail
the functions make the calls of these strokes, with the pixels that they have prepared.

Main results:

- Definition {lit}`Shape.strokes`, {lit}`Shape.prepared`: what is drawn for a shape.
- Theorem {lit}`Shape.draw_eq`: a shape is drawn as its strokes.
-/

namespace VialQmk
namespace Painter

/-! ## The offsets of a circle -/

/-- The offsets of the pixels of the loop of {lit}`qp_circle`, and whether it ends. -/
def circleOffsets : ℕ → CircleState → List CircleState × Bool
  | 0, _ => ([], false)
  | n + 1, s =>
    if s.xcalc < s.ycalc then
      let r := circleOffsets n (circleStep s)
      (circleStep s :: r.1, r.2)
    else ([], true)

/-- The offsets are at most the radius, whatever the error term is. -/
structure InCircle (r : ℕ) (s : CircleState) : Prop where
  xcalc_nonneg : 0 ≤ s.xcalc
  xcalc_le : s.xcalc ≤ r
  ycalc_ge : s.xcalc ≤ s.ycalc + 1
  ycalc_nonneg : 0 ≤ s.ycalc
  ycalc_le : s.ycalc ≤ r

theorem inCircle_start {r : ℕ} (hr : r ≤ 8192) : InCircle r (circleStart r) := by
  have hy : toInt16 (r : ℤ) = r := toInt16_eq ⟨by omega, by omega⟩
  unfold circleStart
  rw [hy]
  exact ⟨by dsimp only; omega, by dsimp only; omega, by dsimp only; omega, by dsimp only; omega,
    by dsimp only; omega⟩

theorem InCircle.step {r : ℕ} {s : CircleState} (hr : r ≤ 8192) (h : InCircle r s)
    (hloop : s.xcalc < s.ycalc) : InCircle r (circleStep s) := by
  obtain ⟨hx0, hx, hxy, hy0, hy⟩ := h
  have hxnext : toInt16 (s.xcalc + 1) = s.xcalc + 1 := toInt16_eq ⟨by omega, by omega⟩
  have hynext : toInt16 (s.ycalc - 1) = s.ycalc - 1 := toInt16_eq ⟨by omega, by omega⟩
  unfold circleStep
  split_ifs
  · exact ⟨by dsimp only; omega, by dsimp only; omega, by dsimp only; omega, hy0, hy⟩
  · exact ⟨by dsimp only; omega, by dsimp only; omega, by dsimp only; omega, by dsimp only; omega,
      by dsimp only; omega⟩

theorem circleOffsets_mem {r : ℕ} (hr : r ≤ 8192) (n : ℕ) {s : CircleState} (h : InCircle r s) :
    ∀ s' ∈ (circleOffsets n s).1, InCircle r s' := by
  induction n generalizing s with
  | zero => exact fun s' hs' => absurd hs' List.not_mem_nil
  | succ n ih =>
    unfold circleOffsets
    split_ifs with hloop
    · exact List.forall_mem_cons.mpr ⟨h.step hr hloop, ih (h.step hr hloop)⟩
    · exact fun s' hs' => absurd hs' List.not_mem_nil

/-! ## The strokes of a shape -/

/-- The pixels of {lit}`qp_line`, for some rounds of its loop, and whether it ends. -/
def lineDots (l : LineSetup) (x1 y1 : ℕ) : ℕ → LineState → List Stroke × Bool
  | 0, _ => ([], false)
  | n + 1, s =>
    if s.x ≠ x1 ∨ s.y ≠ y1 then
      let r := lineDots l x1 y1 n (lineStep l s)
      (.dot (toUint16 s.x) (toUint16 s.y) :: r.1, r.2)
    else ([.dot (toUint16 s.x) (toUint16 s.y)], true)

/-- The offsets of the pixels of {lit}`qp_ellipse` -/
def ellipsePoints (rounds sizex sizey : ℕ) : Option (List (ℤ × ℤ) × Bool) :=
  (int32 (sizex * sizex)).bind fun aa =>
  (int32 (sizey * sizey)).bind fun bb =>
  (int32 (4 * aa)).bind fun fa =>
  (int32 (4 * bb)).bind fun fb =>
  (ellipseDelta aa bb sizey).bind fun delta =>
  (ellipseOffsets aa bb fa rounds 0 (toInt16 sizey) delta).bind fun first =>
  if first.2 then
    (ellipseDelta bb aa sizex).bind fun delta =>
    (ellipseOffsets bb aa fb rounds 0 (toInt16 sizex) delta).map fun second =>
      (first.1 ++ second.1.map Prod.swap, second.2)
  else some (first.1, false)

namespace Shape

/-- The strokes of the shape, for so many rounds, and whether the loops end; {lit}`none` if
arithmetic overflows. -/
def strokes (rounds : ℕ) : Shape → Option (List Stroke × Bool)
  | rect left top right bottom filled =>
    let w := (rect left top right bottom filled).box
    let strokes : List Stroke :=
      if filled then [.bar w.left w.top w.right w.bottom]
      else
        [.bar w.left w.top w.right w.top, .bar w.left w.bottom w.right w.bottom,
          .bar w.left (w.top + 1) w.left (toUint16 ((w.bottom : ℤ) - 1)),
          .bar w.right (w.top + 1) w.right (toUint16 ((w.bottom : ℤ) - 1))]
    some (strokes, true)
  | line x0 y0 x1 y1 =>
    let w := (line x0 y0 x1 y1).box
    let l := lineSetup x0 y0 x1 y1
    if x0 = x1 ∨ y0 = y1 then some ([.bar w.left w.top w.right w.bottom], true)
    else some (lineDots l x1 y1 rounds (lineStart l x0 y0))
  | circle x y radius filled =>
    let start := circleStart radius
    let r := circleOffsets rounds start
    some ((start :: r.1).flatMap fun s =>
      circleStrokes x y s.xcalc.toNat s.ycalc.toNat filled, r.2)
  | ellipse x y sizex sizey filled =>
    (ellipsePoints rounds sizex sizey).map fun r =>
      (r.1.flatMap fun o => ellipseStrokes x y o.1.toNat o.2.toNat filled, r.2)

/-- The number of pixels that are prepared, if so many fit in the buffer. -/
def prepared : Shape → ℕ
  | rect left top right bottom filled =>
    let w := (rect left top right bottom filled).box
    if filled then w.width * w.height else max w.width w.height
  | line x0 y0 x1 y1 =>
    let w := (line x0 y0 x1 y1).box
    if x0 = x1 ∨ y0 = y1 then w.width * w.height else 1
  | circle _ _ radius _ => radius * 2 + 1
  | ellipse _ _ sizex sizey _ => max sizex sizey

end Shape

/-! ## Drawing -/

variable {π : Type*} {d : Device π}

/-- What is drawn with some strokes. -/
def withStrokes (d : Device π) (g : Drawing π) (r : List Stroke × Bool) :
    Drawing π × Option Bool :=
  (⟨g.buffer, g.calls ++ r.1.flatMap (Stroke.calls d.numPixelsInBuffer g.buffer)⟩,
    if r.2 then some true else none)

theorem Device.Works.preparedAndStarted (hd : d.Works) (n : ℕ) (color : Hsv) (action : Action π)
    (g : Drawing π) : preparedAndStarted d n color action g = action (fillPixdata d n color g) := by
  simp [Painter.preparedAndStarted, hd.validateOk, hd.commsStart]

theorem toUint16_toNat {v : ℤ} (hlow : 0 ≤ v) (hhigh : v ≤ 16384) : toUint16 v = v.toNat := by
  unfold toUint16
  omega

/-! ### Circles -/

theorem circleHelper_draws (hd : d.Works) {cx cy r : ℕ} (hx : OnDisplay cx r)
    (hy : OnDisplay cy r) (filled : Bool) {s : CircleState} (h : InCircle r s) (g : Drawing π) :
    circleHelperImpl d cx cy (toUint16 s.xcalc) (toUint16 s.ycalc) filled g =
      withStrokes d g (circleStrokes cx cy s.xcalc.toNat s.ycalc.toNat filled, true) := by
  have hxadd := hx.add_le
  have hyadd := hy.add_le
  have hxc := h.xcalc_le
  have hyc := h.ycalc_le
  have hox : s.xcalc.toNat ≤ r := by omega
  have hoy : s.ycalc.toNat ≤ r := by omega
  have hwithin := circleStrokes_within hx.le hy.le hox hoy filled
  rw [toUint16_toNat h.xcalc_nonneg (by omega), toUint16_toNat h.ycalc_nonneg (by omega),
    circleHelperImpl_eq hx hy hox hoy, hd.inOrder fun s hs =>
      (hwithin s hs).1.fits (by dsimp only; omega) (by dsimp only; omega)]
  rfl

theorem circleLoop_eq (hd : d.Works) {cx cy r : ℕ} (hx : OnDisplay cx r) (hy : OnDisplay cy r)
    (filled : Bool) (n : ℕ) {s : CircleState} (h : InCircle r s) (g : Drawing π) :
    circleLoop d cx cy filled n s g =
      withStrokes d g (((circleOffsets n s).1.flatMap fun s =>
        circleStrokes cx cy s.xcalc.toNat s.ycalc.toNat filled), (circleOffsets n s).2) := by
  have hr : r ≤ 8192 := by
    have hle := hx.le
    have hadd := hx.add_le
    omega
  induction n generalizing s g with
  | zero => simp [circleLoop, circleOffsets, withStrokes]
  | succ n ih =>
    unfold circleLoop circleOffsets
    split_ifs with hloop
    · have hnext := h.step hr hloop
      dsimp only
      rw [circleHelper_draws hd hx hy filled hnext]
      simp only [withStrokes, if_true]
      rw [ih hnext]
      simp [withStrokes, List.flatMap_append]
    · simp [withStrokes]

theorem qpCircle_eq (hd : d.Works) {cx cy r : ℕ} (hx : OnDisplay cx r) (hy : OnDisplay cy r)
    (rounds : ℕ) (color : Hsv) (filled : Bool) (g : Drawing π) :
    some (qpCircle d rounds cx cy r color filled g) =
      ((Shape.circle cx cy r filled).strokes rounds).map
        (withStrokes d (fillPixdata d (r * 2 + 1) color g)) := by
  have hstart : InCircle r (circleStart r) := by
    have hle := hx.le
    have hadd := hx.add_le
    exact inCircle_start (by omega)
  unfold qpCircle
  rw [hd.preparedAndStarted]
  simp only [inOrder, circleHelper_draws hd hx hy filled hstart, withStrokes, if_true]
  rw [circleLoop_eq hd hx hy filled rounds hstart]
  simp only [Shape.strokes, Option.map_some, withStrokes, List.flatMap_cons, List.flatMap_append,
    List.append_assoc]
  cases (circleOffsets rounds (circleStart r)).2 <;> rfl

/-! ### Lines -/

theorem lineLoop_dots (hd : d.Works) (l : LineSetup) (x1 y1 n : ℕ) (s : LineState)
    (g : Drawing π) :
    (match lineLoop d l x1 y1 n s g with
      | ((g, none), _) => (g, none)
      | ((g, some ret), s) =>
        let (g, last) := setpixelImpl d (toUint16 s.x) (toUint16 s.y) g
        (g, last.map (ret && ·))) = withStrokes d g (lineDots l x1 y1 n s) := by
  induction n generalizing s g with
  | zero => simp [lineLoop, lineDots, withStrokes]
  | succ n ih =>
    have hpixel : setpixelImpl d (toUint16 s.x) (toUint16 s.y) g = _ :=
      hd.action (Stroke.dot_fits (toUint16 s.x) (toUint16 s.y)) g
    unfold lineLoop lineDots
    split_ifs with hloop
    · simp only [hpixel, ih]
      simp [withStrokes]
    · simp only [hpixel]
      simp [withStrokes]

theorem qpLine_dots (hd : d.Works) {x0 y0 x1 y1 : ℕ} (hx : x0 ≠ x1) (hy : y0 ≠ y1) (rounds : ℕ)
    (color : Hsv) (g : Drawing π) :
    some (qpLine d rounds x0 y0 x1 y1 color g) =
      ((Shape.line x0 y0 x1 y1).strokes rounds).map
        (withStrokes d (fillPixdata d (Shape.line x0 y0 x1 y1).prepared color g)) := by
  have haxis : ¬ (x0 = x1 ∨ y0 = y1) := not_or.mpr ⟨hx, hy⟩
  simp only [Shape.strokes, Shape.prepared, if_neg haxis, Option.map_some]
  rw [← lineLoop_dots hd]
  unfold qpLine
  rw [if_neg haxis]
  exact congrArg some (congrFun (hd.started _) _)

/-! ### Rectangles -/

theorem box_width {left top right bottom : ℕ} (h : Small left top right bottom) (filled : Bool) :
    (max left right - min left right + 1) % 65536 =
      (Shape.rect left top right bottom filled).box.width := by
  obtain ⟨hleft, -, hright, -⟩ := h
  simp only [Shape.box, Window.width]
  omega

theorem box_height {left top right bottom : ℕ} (h : Small left top right bottom) (filled : Bool) :
    (max top bottom - min top bottom + 1) % 65536 =
      (Shape.rect left top right bottom filled).box.height := by
  obtain ⟨-, htop, -, hbottom⟩ := h
  simp only [Shape.box, Window.height]
  omega

theorem bar_fits {left top right bottom : ℕ} (hleft : left < 65535) (hright : right < 65535)
    (htop : 0 < top ∨ bottom < 65535) (htop' : top < 65535) (hbottom : bottom < 65536) :
    (Stroke.bar left top right bottom).Fits := by
  refine ⟨?_, ?_⟩
  · simp only [Stroke.window, Window.width]
    omega
  · simp only [Stroke.window, Window.height]
    omega

theorem toUint16_add_one {n : ℕ} (h : n ≤ 16384) : toUint16 ((n : ℤ) + 1) = n + 1 := by
  unfold toUint16
  omega

theorem qpRect_eq (hd : d.Works) {left top right bottom : ℕ} (h : Small left top right bottom)
    (filled : Bool) (color : Hsv) (rounds : ℕ) (g : Drawing π) :
    some (qpRect d left top right bottom color filled g) =
      ((Shape.rect left top right bottom filled).strokes rounds).map
        (withStrokes d
          (fillPixdata d (Shape.rect left top right bottom filled).prepared color g)) := by
  have hw := box_width h filled
  have hh := box_height h filled
  obtain ⟨hleft, htop, hright, hbottom⟩ := h
  unfold qpRect
  simp only [hd.started, hw, hh]
  cases filled with
  | true =>
    have hfits : (Stroke.bar (min left right) (min top bottom) (max left right)
        (max top bottom)).Fits := bar_fits (by omega) (by omega) (by omega) (by omega) (by omega)
    have hsize : (Shape.rect left top right bottom true).box.width *
        (Shape.rect left top right bottom true).box.height < 4294967296 := by
      rw [← hw, ← hh]
      exact Nat.mul_lt_mul'' (Nat.mod_lt _ (by decide)) (Nat.mod_lt _ (by decide))
    have hdraw := hd.action hfits
      (fillPixdata d (Shape.rect left top right bottom true).prepared color g)
    rw [if_pos rfl, Nat.mod_eq_of_lt hsize]
    refine congrArg some (Eq.trans hdraw ?_)
    simp only [withStrokes, Shape.box, if_true, List.flatMap_cons, List.flatMap_nil,
      List.append_nil]
  | false =>
    have hlt : toUint16 ((max top bottom : ℕ) - 1) < 65536 := by
      unfold toUint16
      omega
    have hfits : ∀ s ∈ [Stroke.bar (min left right) (min top bottom) (max left right)
          (min top bottom),
        .bar (min left right) (max top bottom) (max left right) (max top bottom),
        .bar (min left right) (min top bottom + 1) (min left right)
          (toUint16 ((max top bottom : ℕ) - 1)),
        .bar (max left right) (min top bottom + 1) (max left right)
          (toUint16 ((max top bottom : ℕ) - 1))], s.Fits := by
      simp only [List.forall_mem_cons, List.not_mem_nil, false_imp_iff, implies_true, and_true]
      exact ⟨bar_fits (by omega) (by omega) (by omega) (by omega) (by omega),
        bar_fits (by omega) (by omega) (by omega) (by omega) (by omega),
        bar_fits (by omega) (by omega) (by omega) (by omega) hlt,
        bar_fits (by omega) (by omega) (by omega) (by omega) hlt⟩
    have hdraw := hd.inOrder hfits
      (fillPixdata d (Shape.rect left top right bottom false).prepared color g)
    rw [if_neg Bool.false_ne_true, toUint16_add_one (by omega)]
    exact congrArg some hdraw

/-- A line along an axis is a rectangle. -/
theorem qpLine_rect (hd : d.Works) {x0 y0 x1 y1 : ℕ} (h : Small x0 y0 x1 y1)
    (haxis : x0 = x1 ∨ y0 = y1) (rounds : ℕ) (color : Hsv) (g : Drawing π) :
    some (qpLine d rounds x0 y0 x1 y1 color g) =
      ((Shape.line x0 y0 x1 y1).strokes rounds).map
        (withStrokes d (fillPixdata d (Shape.line x0 y0 x1 y1).prepared color g)) := by
  have hstrokes : (Shape.line x0 y0 x1 y1).strokes rounds =
      (Shape.rect x0 y0 x1 y1 true).strokes rounds := if_pos haxis
  have hprepared : (Shape.line x0 y0 x1 y1).prepared = (Shape.rect x0 y0 x1 y1 true).prepared :=
    if_pos haxis
  rw [hstrokes, hprepared, ← qpRect_eq hd h]
  unfold qpLine
  rw [if_pos haxis]

/-! ### Ellipses -/

theorem ellipseHelper_draws (hd : d.Works) {cx cy a b : ℕ} (hx : OnDisplay cx a)
    (hy : OnDisplay cy b) (filled : Bool) {p q : ℤ} (hp : 0 ≤ p ∧ p ≤ a) (hq : 0 ≤ q ∧ q ≤ b)
    (g : Drawing π) :
    ellipseHelperImpl d cx cy (toUint16 p) (toUint16 q) filled g =
      withStrokes d g (ellipseStrokes cx cy p.toNat q.toNat filled, true) := by
  have hxle := hx.le
  have hyle := hy.le
  have hxadd := hx.add_le
  have hyadd := hy.add_le
  have hox : p.toNat ≤ a := by omega
  have hoy : q.toNat ≤ b := by omega
  have hwithin := ellipseStrokes_within hx.le hy.le hox hoy filled
  rw [toUint16_toNat hp.1 (by omega), toUint16_toNat hq.1 (by omega),
    ellipseHelperImpl_eq hx hy hox hoy, hd.inOrder fun s hs =>
      (hwithin s hs).fits (by dsimp only; omega) (by dsimp only; omega)]
  rfl

/-- A loop of {lit}`qp_ellipse` draws its offsets. -/
theorem ellipseLoop_eq {a b : ℕ} (hs : Sizes a b) {helper : ℤ → ℤ → Action π}
    (pixels : ℤ × ℤ → List Stroke)
    (hhelper : ∀ p q : ℤ, 0 ≤ p ∧ p ≤ a → 0 ≤ q ∧ q ≤ b → ∀ g,
      helper p q g = withStrokes d g (pixels (p, q), true))
    (n : ℕ) {p q delta : ℤ} (h : AtEllipse a b p q delta) (g : Drawing π) :
    ellipseLoop helper (a * a) (b * b) (4 * (a * a)) n p q delta g =
      (ellipseOffsets (a * a) (b * b) (4 * (a * a)) n p q delta).map fun r =>
        withStrokes d g (r.1.flatMap pixels, r.2) := by
  induction n generalizing p q delta g with
  | zero => simp [ellipseLoop, ellipseOffsets, withStrokes]
  | succ n ih =>
    unfold ellipseLoop ellipseOffsets
    cases hleft : int32 (b * b * p) with
    | none => rfl
    | some left =>
      cases hright : int32 (a * a * q) with
      | none => rfl
      | some right =>
        obtain rfl := eq_of_int32 hleft
        obtain rfl := eq_of_int32 hright
        simp only [Option.bind_some]
        split_ifs with hloop
        · obtain ⟨hq0, hpa, -⟩ := h.le_sizes hs.pos hloop
          have hp0 := h.p_nonneg
          have hqb := h.q_le
          have hale := hs.a_le
          have hble := hs.b_le
          rw [hhelper p q ⟨hp0, hpa⟩ ⟨hq0, hqb⟩]
          simp only [withStrokes, if_true]
          cases hstep : ellipseStep (b * b) (4 * (a * a)) p q delta with
          | none => rfl
          | some r =>
            obtain rfl := eq_of_ellipseStep ⟨by omega, by omega⟩ hstep
            simp only [Option.bind_some]
            rw [toInt16_eq ⟨by omega, by omega⟩, ih (h.step hs.pos hloop)]
            simp only [Option.map_map, withStrokes, Function.comp_def, List.flatMap_cons,
              List.flatMap_append, List.append_assoc]
        · simp [withStrokes]

theorem ellipseDelta_eq {a b : ℕ} {delta : ℤ} (h : ellipseDelta (a * a) (b * b) b = some delta) :
    AtEllipse a b 0 b delta := by
  simp only [ellipseDelta, Option.bind_eq_bind, Option.bind_eq_some_iff] at h
  obtain ⟨first, hfirst, second, hsecond, hdelta⟩ := h
  obtain rfl := eq_of_int32 hfirst
  obtain rfl := eq_of_int32 hsecond
  obtain rfl := eq_of_int32 hdelta
  exact atEllipse_start a b

/-- The squares of the sizes are of 32 bits. -/
theorem Sizes.squares {a b : ℕ} (hs : Sizes a b) :
    int32 ((a : ℤ) * a) = some ((a : ℤ) * a) ∧ int32 ((b : ℤ) * b) = some ((b : ℤ) * b) ∧
      int32 (4 * ((a : ℤ) * a)) = some (4 * ((a : ℤ) * a)) ∧
      int32 (4 * ((b : ℤ) * b)) = some (4 * ((b : ℤ) * b)) := by
  have haa : (a : ℤ) * a ≤ 8192 * 8192 := by exact_mod_cast Nat.mul_le_mul hs.a_le hs.a_le
  have hbb : (b : ℤ) * b ≤ 8192 * 8192 := by exact_mod_cast Nat.mul_le_mul hs.b_le hs.b_le
  have haa0 : (0 : ℤ) ≤ a * a := mul_self_nonneg _
  have hbb0 : (0 : ℤ) ≤ b * b := mul_self_nonneg _
  exact ⟨int32_eq_some (by omega) (by omega), int32_eq_some (by omega) (by omega),
    int32_eq_some (by omega) (by omega), int32_eq_some (by omega) (by omega)⟩

theorem Sizes.swap {a b : ℕ} (hs : Sizes a b) : Sizes b a :=
  ⟨hs.b_le, hs.a_le, fun h => hs.pos h.symm⟩

theorem qpEllipse_eq (hd : d.Works) {cx cy a b : ℕ} (hx : OnDisplay cx a) (hy : OnDisplay cy b)
    (hs : Sizes a b) (rounds : ℕ) (color : Hsv) (filled : Bool) (g : Drawing π) :
    qpEllipse d rounds cx cy a b color filled g =
      ((Shape.ellipse cx cy a b filled).strokes rounds).map
        (withStrokes d (fillPixdata d (max a b) color g)) := by
  obtain ⟨haa, hbb, hfa, hfb⟩ := hs.squares
  have hale := hs.a_le
  have hble := hs.b_le
  unfold qpEllipse ellipseLoops
  simp only [Shape.strokes, ellipsePoints, hd.validateOk, hd.commsStart, Bool.true_eq_false,
    if_false, haa, hbb, hfa, hfb, Option.bind_some]
  rw [toInt16_eq (v := a) ⟨by omega, by omega⟩, toInt16_eq (v := b) ⟨by omega, by omega⟩]
  generalize fillPixdata d (max a b) color g = g
  cases hdelta : ellipseDelta (a * a) (b * b) b with
  | none => rfl
  | some delta =>
    have hfirst := fun g => ellipseLoop_eq (d := d) hs
      (fun o => ellipseStrokes cx cy o.1.toNat o.2.toNat filled)
      (fun p q hp hq g => ellipseHelper_draws hd hx hy filled hp hq g)
      rounds (ellipseDelta_eq hdelta) g
    simp only [Option.bind_some, hfirst, Option.bind_map, Option.map_bind, Function.comp_def]
    congr 1
    funext ⟨first, ends⟩
    cases ends with
    | false => simp [withStrokes]
    | true =>
      cases hdelta' : ellipseDelta (b * b) (a * a) a with
      | none => simp [withStrokes]
      | some delta' =>
        have hsecond := fun g => ellipseLoop_eq (d := d) hs.swap
          (fun o => ellipseStrokes cx cy o.2.toNat o.1.toNat filled)
          (fun p q hp hq g => ellipseHelper_draws hd hx hy filled hq hp g)
          rounds (ellipseDelta_eq hdelta') g
        simp only [withStrokes, if_true, Option.bind_some, hsecond, Option.map_map,
          Function.comp_def, List.flatMap_append, List.flatMap_map, List.append_assoc]
        congr 1
        funext ⟨second, ends⟩
        cases ends <;> rfl

/-! ### Shapes -/

/-- The ellipse without a size is left out. -/
def Shape.NonDegenerate : Shape → Prop
  | .ellipse _ _ sizex sizey _ => ¬ (sizex = 0 ∧ sizey = 0)
  | _ => True

/-- A shape is drawn as its strokes. -/
theorem Shape.draw_eq (hd : d.Works) {s : Shape} (h : s.InRange) (hne : s.NonDegenerate)
    (color : Hsv) (rounds : ℕ) (g : Drawing π) :
    s.draw d color rounds g =
      (s.strokes rounds).map (withStrokes d (fillPixdata d s.prepared color g)) := by
  cases s with
  | rect left top right bottom filled => exact qpRect_eq hd h filled color rounds g
  | line x0 y0 x1 y1 =>
    by_cases haxis : x0 = x1 ∨ y0 = y1
    · exact qpLine_rect hd h haxis rounds color g
    · rw [not_or] at haxis
      exact qpLine_dots hd haxis.1 haxis.2 rounds color g
  | circle x y radius filled =>
    obtain ⟨⟨hx, hx'⟩, hy, hy'⟩ := h
    exact qpCircle_eq hd ⟨hx, hx'⟩ ⟨hy, hy'⟩ rounds color filled g
  | ellipse x y sizex sizey filled =>
    obtain ⟨⟨hx, hx'⟩, hy, hy'⟩ := h
    exact qpEllipse_eq hd ⟨hx, hx'⟩ ⟨hy, hy'⟩ ⟨by omega, by omega, hne⟩ rounds color filled g

end Painter
end VialQmk
