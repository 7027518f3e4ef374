import VialQmk.Painter.Ellipses
import VialQmk.Painter.Strokes

/-!
# Quantum Painter - shapes

What is asked of the functions that draw shapes, and the strokes of each shape.

Main results:

- Definition {lit}`PaintsOnly`: what is asked of a shape.
- Definition {lit}`circleStrokes`, {lit}`ellipseStrokes`: the strokes for one pair of offsets.
- Theorem {lit}`circleStrokes_subset`, {lit}`ellipseStrokes_subset`: filled strokes have the pixels
  of the ones that are not filled.
-/

namespace VialQmk
namespace Painter

/-! ## Shapes -/

inductive Shape
  | rect (left top right bottom : ℕ) (filled : Bool)
  | line (x0 y0 x1 y1 : ℕ)
  | circle (x y radius : ℕ) (filled : Bool)
  | ellipse (x y sizex sizey : ℕ) (filled : Bool)

namespace Shape

/-- All coordinates of the shape are between 0 and {lit}`2 ^ 14`. -/
def InRange : Shape → Prop
  | rect left top right bottom _ => Small left top right bottom
  | line x0 y0 x1 y1 => Small x0 y0 x1 y1
  | circle x y radius _ => (radius ≤ x ∧ x + radius ≤ 16384) ∧ radius ≤ y ∧ y + radius ≤ 16384
  | ellipse x y sizex sizey _ =>
    (sizex ≤ x ∧ x + sizex ≤ 16384) ∧ sizey ≤ y ∧ y + sizey ≤ 16384

/-- The bounding box -/
def box : Shape → Window
  | rect left top right bottom _ =>
    ⟨min left right, min top bottom, max left right, max top bottom⟩
  | line x0 y0 x1 y1 => ⟨min x0 x1, min y0 y1, max x0 x1, max y0 y1⟩
  | circle x y radius _ => ⟨x - radius, y - radius, x + radius, y + radius⟩
  | ellipse x y sizex sizey _ => ⟨x - sizex, y - sizey, x + sizex, y + sizey⟩

/-- The same shape, filled -/
def fill : Shape → Shape
  | rect left top right bottom _ => rect left top right bottom true
  | line x0 y0 x1 y1 => line x0 y0 x1 y1
  | circle x y radius _ => circle x y radius true
  | ellipse x y sizex sizey _ => ellipse x y sizex sizey true

variable {π : Type*} (d : Device π)

/-- The function of the shape, with so many rounds of its loops. -/
def draw (color : Hsv) (rounds : ℕ) : Shape → Drawing π → Option (Drawing π × Option Bool)
  | rect left top right bottom filled, g => some (qpRect d left top right bottom color filled g)
  | line x0 y0 x1 y1, g => some (qpLine d rounds x0 y0 x1 y1 color g)
  | circle x y radius filled, g => some (qpCircle d rounds x y radius color filled g)
  | ellipse x y sizex sizey filled, g => qpEllipse d rounds x y sizex sizey color filled g

/-- A pixel that is written while the shape is drawn, with some earlier contents of the buffer. -/
def Writes (s : Shape) (color : Hsv) (buffer : ℕ → π) (p : ℕ × ℕ) (pixel : π) : Prop :=
  ∃ rounds g ret, s.draw d color rounds ⟨buffer, []⟩ = some (g, ret) ∧ (p, pixel) ∈ writes g.calls

/-- A place of the rectangle, or of its border. -/
def OnRect (w : Window) (filled : Bool) (x y : ℕ) : Prop :=
  w.Mem x y ∧ (filled = true ∨ (x = w.left ∨ x = w.right) ∨ y = w.top ∨ y = w.bottom)

end Shape

/-- The arithmetic is defined, all pixels that are written are of the color and in the bounding
box, a rectangle is exactly itself or its border, and the filled shape has all of them. -/
structure PaintsOnly {π : Type*} (d : Device π) (s : Shape) : Prop where
  defined : ∀ color rounds buffer, s.draw d color rounds ⟨buffer, []⟩ ≠ none
  color : ∀ color buffer p pixel, s.Writes d color buffer p pixel → pixel = d.paletteConvert color
  box : ∀ color buffer p pixel, s.Writes d color buffer p pixel → s.box.Mem p.1 p.2
  exact : ∀ left top right bottom filled, s = .rect left top right bottom filled →
    ∀ color buffer p,
      (∃ pixel, s.Writes d color buffer p pixel) ↔ Shape.OnRect s.box filled p.1 p.2
  subset : ∀ color buffer p, (∃ pixel, s.Writes d color buffer p pixel) →
    ∃ pixel, s.fill.Writes d color buffer p pixel

/-! ## Mirrored offsets -/

theorem toUint16_eq {n : ℕ} (h : n < 65536) : toUint16 n = n := by
  unfold toUint16
  omega

theorem mirror_add {c o : ℕ} (h : c + o ≤ 16384) :
    toUint16 (toInt16 (toInt16 c + toInt16 o)) = c + o := by
  rw [toInt16_eq (v := c) ⟨by omega, by omega⟩, toInt16_eq (v := o) ⟨by omega, by omega⟩,
    toInt16_eq ⟨by omega, by omega⟩]
  exact toUint16_eq (n := c + o) (by omega)

theorem mirror_sub {c o : ℕ} (hle : o ≤ c) (h : c ≤ 16384) :
    toUint16 (toInt16 (toInt16 c - toInt16 o)) = c - o := by
  rw [toInt16_eq (v := c) ⟨by omega, by omega⟩, toInt16_eq (v := o) ⟨by omega, by omega⟩,
    toInt16_eq ⟨by omega, by omega⟩, ← Int.ofNat_sub hle]
  exact toUint16_eq (by omega)

/-! ## Strokes of a circle and an ellipse -/

/-- The strokes of {lit}`qp_circle_helper_impl` -/
def circleStrokes (cx cy ox oy : ℕ) (filled : Bool) : List Stroke :=
  if ox = 0 then
    if filled then [.dot cx (cy + oy), .dot cx (cy - oy), .bar (cx + oy) cy (cx - oy) cy]
    else [.dot cx (cy + oy), .dot cx (cy - oy), .dot (cx + oy) cy, .dot (cx - oy) cy]
  else if ox = oy then
    if filled then
      [.bar (cx + oy) (cy + oy) (cx - oy) (cy + oy), .bar (cx + oy) (cy - oy) (cx - oy) (cy - oy)]
    else
      [.dot (cx + oy) (cy + oy), .dot (cx - oy) (cy + oy), .dot (cx + oy) (cy - oy),
        .dot (cx - oy) (cy - oy)]
  else if filled then
    [.bar (cx + ox) (cy + oy) (cx - ox) (cy + oy), .bar (cx + ox) (cy - oy) (cx - ox) (cy - oy),
      .bar (cx + oy) (cy + ox) (cx - oy) (cy + ox), .bar (cx + oy) (cy - ox) (cx - oy) (cy - ox)]
  else
    [.dot (cx + ox) (cy + oy), .dot (cx - ox) (cy + oy), .dot (cx + ox) (cy - oy),
      .dot (cx - ox) (cy - oy), .dot (cx + oy) (cy + ox), .dot (cx - oy) (cy + ox),
      .dot (cx + oy) (cy - ox), .dot (cx - oy) (cy - ox)]

/-- All coordinates with offsets up to this one are on the display. -/
structure OnDisplay (c r : ℕ) : Prop where
  le : r ≤ c
  add_le : c + r ≤ 16384

variable {π : Type*} {d : Device π}

theorem circleHelperImpl_eq {cx cy ox oy r : ℕ} (hx : OnDisplay cx r) (hy : OnDisplay cy r)
    (hox : ox ≤ r) (hoy : oy ≤ r) (filled : Bool) :
    circleHelperImpl d cx cy ox oy filled =
      inOrder ((circleStrokes cx cy ox oy filled).map (Stroke.action d)) := by
  obtain ⟨hxle, hxadd⟩ := hx
  obtain ⟨hyle, hyadd⟩ := hy
  unfold circleHelperImpl circleStrokes
  rw [mirror_add (c := cx) (o := ox) (by omega), mirror_add (c := cx) (o := oy) (by omega),
    mirror_add (c := cy) (o := ox) (by omega), mirror_add (c := cy) (o := oy) (by omega),
    mirror_sub (c := cx) (o := ox) (by omega) (by omega),
    mirror_sub (c := cx) (o := oy) (by omega) (by omega),
    mirror_sub (c := cy) (o := ox) (by omega) (by omega),
    mirror_sub (c := cy) (o := oy) (by omega) (by omega)]
  split_ifs <;> rfl

/-- The strokes of {lit}`qp_ellipse_helper_impl` -/
def ellipseStrokes (cx cy ox oy : ℕ) (filled : Bool) : List Stroke :=
  if ox = 0 then [.dot (cx + ox) (cy + oy), .dot (cx + ox) (cy - oy)]
  else if filled then
    .bar (cx + ox) (cy + oy) (cx - ox) (cy + oy) ::
      if 0 < oy then [.bar (cx + ox) (cy - oy) (cx - ox) (cy - oy)] else []
  else
    [.dot (cx + ox) (cy + oy), .dot (cx + ox) (cy - oy), .dot (cx - ox) (cy + oy),
      .dot (cx - ox) (cy - oy)]

theorem ellipseHelperImpl_eq {cx cy ox oy a b : ℕ} (hx : OnDisplay cx a) (hy : OnDisplay cy b)
    (hox : ox ≤ a) (hoy : oy ≤ b) (filled : Bool) :
    ellipseHelperImpl d cx cy ox oy filled =
      inOrder ((ellipseStrokes cx cy ox oy filled).map (Stroke.action d)) := by
  obtain ⟨hxle, hxadd⟩ := hx
  obtain ⟨hyle, hyadd⟩ := hy
  unfold ellipseHelperImpl ellipseStrokes
  rw [mirror_add (c := cx) (o := ox) (by omega), mirror_add (c := cy) (o := oy) (by omega),
    mirror_sub (c := cx) (o := ox) (by omega) (by omega),
    mirror_sub (c := cy) (o := oy) (by omega) (by omega)]
  split_ifs <;> rfl

/-! ## Where strokes are -/

namespace Stroke

/-- All places of the stroke are in the window. -/
structure Within (w : Window) (s : Stroke) : Prop where
  left_le : w.left ≤ s.window.left
  le_right : s.window.right ≤ w.right
  top_le : w.top ≤ s.window.top
  le_bottom : s.window.bottom ≤ w.bottom

variable {s : Stroke} {w : Window} {x y : ℕ}

theorem Within.mem (h : s.Within w) (hcovers : s.Covers x y) : w.Mem x y :=
  ⟨h.left_le.trans hcovers.left_le, hcovers.le_right.trans h.le_right,
    h.top_le.trans hcovers.top_le, hcovers.le_bottom.trans h.le_bottom⟩

theorem Within.fits (h : s.Within w) (hright : w.right < 65535) (hbottom : w.bottom < 65535) :
    s.Fits := by
  have hle := h.le_right
  have hle' := h.le_bottom
  exact ⟨by unfold Window.width; omega, by unfold Window.height; omega⟩

theorem dot_fits (x y : ℕ) : (dot x y).Fits :=
  ⟨by simp [window, Window.width], by simp [window, Window.height]⟩

theorem dot_covers {a b : ℕ} : (dot a b).Covers x y ↔ x = a ∧ y = b := by
  constructor
  · rintro ⟨hleft, hright, htop, hbottom⟩
    exact ⟨Nat.le_antisymm hright hleft, Nat.le_antisymm hbottom htop⟩
  · rintro ⟨rfl, rfl⟩
    exact ⟨le_refl _, le_refl _, le_refl _, le_refl _⟩

theorem bar_covers {left top right bottom : ℕ} :
    (bar left top right bottom).Covers x y ↔
      (min left right ≤ x ∧ x ≤ max left right) ∧ min top bottom ≤ y ∧ y ≤ max top bottom :=
  ⟨fun h => ⟨⟨h.left_le, h.le_right⟩, h.top_le, h.le_bottom⟩,
    fun ⟨⟨hleft, hright⟩, htop, hbottom⟩ => ⟨hleft, hright, htop, hbottom⟩⟩

theorem dot_size (a b : ℕ) : (dot a b).size = 1 := by
  simp [size, window, Window.width, Window.height]

/-- The number of pixels of a row. -/
theorem row_size {c o : ℕ} (h : o ≤ c) (y : ℕ) : (bar (c + o) y (c - o) y).size = 2 * o + 1 := by
  have hwidth : (bar (c + o) y (c - o) y).window.width = 2 * o + 1 := by
    simp only [window, Window.width]
    omega
  have hheight : (bar (c + o) y (c - o) y).window.height = 1 := by
    simp [window, Window.height]
  rw [size, hwidth, hheight, Nat.mul_one]

/-- A row has its two ends. -/
theorem row_covers_right (c o y : ℕ) : (bar (c + o) y (c - o) y).Covers (c + o) y := by
  rw [bar_covers]
  omega

theorem row_covers_left (c o y : ℕ) : (bar (c + o) y (c - o) y).Covers (c - o) y := by
  rw [bar_covers]
  omega

theorem dot_within (hx : w.left ≤ x ∧ x ≤ w.right) (hy : w.top ≤ y ∧ y ≤ w.bottom) :
    (dot x y).Within w :=
  ⟨hx.1, hx.2, hy.1, hy.2⟩

theorem row_within {c o : ℕ} (hx : w.left ≤ c - o ∧ c + o ≤ w.right)
    (hy : w.top ≤ y ∧ y ≤ w.bottom) : (bar (c + o) y (c - o) y).Within w where
  left_le := by simp only [window]; omega
  le_right := by simp only [window]; omega
  top_le := by simp only [window]; omega
  le_bottom := by simp only [window]; omega

end Stroke

theorem circleStrokes_within {cx cy ox oy r : ℕ} (hx : r ≤ cx) (hy : r ≤ cy) (hox : ox ≤ r)
    (hoy : oy ≤ r) (filled : Bool) :
    ∀ s ∈ circleStrokes cx cy ox oy filled,
      s.Within ⟨cx - r, cy - r, cx + r, cy + r⟩ ∧ s.size ≤ r * 2 + 1 := by
  have hdot : ∀ x y, (cx - r ≤ x ∧ x ≤ cx + r) → (cy - r ≤ y ∧ y ≤ cy + r) →
      (Stroke.dot x y).Within ⟨cx - r, cy - r, cx + r, cy + r⟩ ∧
        (Stroke.dot x y).size ≤ r * 2 + 1 :=
    fun x y hx hy => ⟨Stroke.dot_within hx hy, by rw [Stroke.dot_size]; omega⟩
  have hrow : ∀ o y, o ≤ r → (cy - r ≤ y ∧ y ≤ cy + r) →
      (Stroke.bar (cx + o) y (cx - o) y).Within ⟨cx - r, cy - r, cx + r, cy + r⟩ ∧
        (Stroke.bar (cx + o) y (cx - o) y).size ≤ r * 2 + 1 :=
    fun o y ho hy => ⟨Stroke.row_within ⟨by dsimp only; omega, by dsimp only; omega⟩ hy,
      by rw [Stroke.row_size (by omega)]; omega⟩
  unfold circleStrokes
  split_ifs <;> simp only [List.forall_mem_cons, List.not_mem_nil, false_imp_iff, implies_true,
    and_true]
  · exact ⟨hdot _ _ (by omega) (by omega), hdot _ _ (by omega) (by omega), hrow _ _ hoy (by omega)⟩
  · exact ⟨hdot _ _ (by omega) (by omega), hdot _ _ (by omega) (by omega),
      hdot _ _ (by omega) (by omega), hdot _ _ (by omega) (by omega)⟩
  · exact ⟨hrow _ _ hoy (by omega), hrow _ _ hoy (by omega)⟩
  · exact ⟨hdot _ _ (by omega) (by omega), hdot _ _ (by omega) (by omega),
      hdot _ _ (by omega) (by omega), hdot _ _ (by omega) (by omega)⟩
  · exact ⟨hrow _ _ hox (by omega), hrow _ _ hox (by omega), hrow _ _ hoy (by omega),
      hrow _ _ hoy (by omega)⟩
  · exact ⟨hdot _ _ (by omega) (by omega), hdot _ _ (by omega) (by omega),
      hdot _ _ (by omega) (by omega), hdot _ _ (by omega) (by omega),
      hdot _ _ (by omega) (by omega), hdot _ _ (by omega) (by omega),
      hdot _ _ (by omega) (by omega), hdot _ _ (by omega) (by omega)⟩

/-- The filled circle has the pixels of the circle that is not filled. -/
theorem circleStrokes_subset (cx cy ox oy : ℕ) {x y : ℕ} {s : Stroke}
    (hs : s ∈ circleStrokes cx cy ox oy false) (hcovers : s.Covers x y) :
    ∃ s' ∈ circleStrokes cx cy ox oy true, s'.Covers x y := by
  have hright := fun o y => Stroke.row_covers_right cx o y
  have hleft := fun o y => Stroke.row_covers_left cx o y
  unfold circleStrokes at hs ⊢
  by_cases hzero : ox = 0
  · simp only [if_pos hzero, Bool.false_eq_true, if_false, if_true, List.mem_cons,
      List.not_mem_nil, or_false, exists_eq_or_imp, exists_eq_left] at hs ⊢
    rcases hs with rfl | rfl | rfl | rfl
    · exact .inl hcovers
    · exact .inr (.inl hcovers)
    · obtain ⟨rfl, rfl⟩ := Stroke.dot_covers.mp hcovers
      exact .inr (.inr (hright _ _))
    · obtain ⟨rfl, rfl⟩ := Stroke.dot_covers.mp hcovers
      exact .inr (.inr (hleft _ _))
  · by_cases heq : ox = oy
    · simp only [if_neg hzero, if_pos heq, Bool.false_eq_true, if_false, if_true, List.mem_cons,
        List.not_mem_nil, or_false, exists_eq_or_imp, exists_eq_left] at hs ⊢
      rcases hs with rfl | rfl | rfl | rfl <;> obtain ⟨rfl, rfl⟩ := Stroke.dot_covers.mp hcovers
      · exact .inl (hright _ _)
      · exact .inl (hleft _ _)
      · exact .inr (hright _ _)
      · exact .inr (hleft _ _)
    · simp only [if_neg hzero, if_neg heq, Bool.false_eq_true, if_false, if_true, List.mem_cons,
        List.not_mem_nil, or_false, exists_eq_or_imp, exists_eq_left] at hs ⊢
      rcases hs with rfl | rfl | rfl | rfl | rfl | rfl | rfl | rfl <;>
        obtain ⟨rfl, rfl⟩ := Stroke.dot_covers.mp hcovers
      · exact .inl (hright _ _)
      · exact .inl (hleft _ _)
      · exact .inr (.inl (hright _ _))
      · exact .inr (.inl (hleft _ _))
      · exact .inr (.inr (.inl (hright _ _)))
      · exact .inr (.inr (.inl (hleft _ _)))
      · exact .inr (.inr (.inr (hright _ _)))
      · exact .inr (.inr (.inr (hleft _ _)))

theorem ellipseStrokes_within {cx cy ox oy a b : ℕ} (hx : a ≤ cx) (hy : b ≤ cy) (hox : ox ≤ a)
    (hoy : oy ≤ b) (filled : Bool) :
    ∀ s ∈ ellipseStrokes cx cy ox oy filled, s.Within ⟨cx - a, cy - b, cx + a, cy + b⟩ := by
  have hdot : ∀ x y, (cx - a ≤ x ∧ x ≤ cx + a) → (cy - b ≤ y ∧ y ≤ cy + b) →
      (Stroke.dot x y).Within ⟨cx - a, cy - b, cx + a, cy + b⟩ :=
    fun x y hx hy => Stroke.dot_within hx hy
  have hrow : ∀ y, (cy - b ≤ y ∧ y ≤ cy + b) →
      (Stroke.bar (cx + ox) y (cx - ox) y).Within ⟨cx - a, cy - b, cx + a, cy + b⟩ :=
    fun y hy => Stroke.row_within ⟨by dsimp only; omega, by dsimp only; omega⟩ hy
  unfold ellipseStrokes
  split_ifs <;> simp only [List.forall_mem_cons, List.not_mem_nil, false_imp_iff, implies_true,
    and_true]
  · exact ⟨hdot _ _ (by omega) (by omega), hdot _ _ (by omega) (by omega)⟩
  · exact ⟨hrow _ (by omega), hrow _ (by omega)⟩
  · exact hrow _ (by omega)
  · exact ⟨hdot _ _ (by omega) (by omega), hdot _ _ (by omega) (by omega),
      hdot _ _ (by omega) (by omega), hdot _ _ (by omega) (by omega)⟩

/-- The rows of a filled ellipse. -/
theorem ellipseStrokes_size {cx cy ox oy : ℕ} (hox : ox ≤ cx) {filled : Bool} {s : Stroke}
    (hs : s ∈ ellipseStrokes cx cy ox oy filled) :
    s.size = 1 ∨ filled = true ∧ 0 < ox ∧ s.size = 2 * ox + 1 := by
  unfold ellipseStrokes at hs
  have hrow := fun y => Stroke.row_size hox y
  split_ifs at hs with hzero hfilled hoy
  · simp only [List.mem_cons, List.not_mem_nil, or_false] at hs
    rcases hs with rfl | rfl <;> exact .inl (Stroke.dot_size _ _)
  · simp only [List.mem_cons, List.not_mem_nil, or_false] at hs
    rcases hs with rfl | rfl <;> exact .inr ⟨hfilled, by omega, hrow _⟩
  · obtain rfl := List.mem_singleton.mp hs
    exact .inr ⟨hfilled, by omega, hrow _⟩
  · simp only [List.mem_cons, List.not_mem_nil, or_false] at hs
    rcases hs with rfl | rfl | rfl | rfl <;> exact .inl (Stroke.dot_size _ _)

/-- The filled ellipse has the pixels of the ellipse that is not filled. -/
theorem ellipseStrokes_subset (cx cy ox oy : ℕ) {x y : ℕ} {s : Stroke}
    (hs : s ∈ ellipseStrokes cx cy ox oy false) (hcovers : s.Covers x y) :
    ∃ s' ∈ ellipseStrokes cx cy ox oy true, s'.Covers x y := by
  have hright := fun y => Stroke.row_covers_right cx ox y
  have hleft := fun y => Stroke.row_covers_left cx ox y
  unfold ellipseStrokes at hs ⊢
  by_cases hzero : ox = 0
  · rw [if_pos hzero] at hs ⊢
    exact ⟨s, hs, hcovers⟩
  · simp only [if_neg hzero, Bool.false_eq_true, if_false, if_true, List.mem_cons,
      List.not_mem_nil, or_false, exists_eq_or_imp] at hs ⊢
    by_cases hoy : 0 < oy
    · simp only [if_pos hoy, List.mem_singleton, exists_eq_left]
      rcases hs with rfl | rfl | rfl | rfl <;> obtain ⟨rfl, rfl⟩ := Stroke.dot_covers.mp hcovers
      · exact .inl (hright _)
      · exact .inr (hright _)
      · exact .inl (hleft _)
      · exact .inr (hleft _)
    · obtain rfl : oy = 0 := by omega
      rcases hs with rfl | rfl | rfl | rfl <;> obtain ⟨rfl, rfl⟩ := Stroke.dot_covers.mp hcovers
      · exact .inl (hright _)
      · exact .inl (hright _)
      · exact .inl (hleft _)
      · exact .inl (hleft _)

end Painter
end VialQmk
