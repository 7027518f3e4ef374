import VialQmk.Painter.DrawShapes
import VialQmk.Painter.LostLines

/-!
# Quantum Painter - shapes paint only themselves

What is asked of a shape is a question about its strokes: where they are, and whether they stream
no more pixels of the buffer than were prepared.  It has the answer yes but for four kinds of
shapes: a border of one row, a line whose error term overflows, an ellipse that is so large that
its arithmetic overflows or that has no size, and a filled ellipse that is wider than high.

Main results:

- Theorem {lit}`paintsOnly_iff_strokes`: what is asked of the strokes.
- Theorem {lit}`paintsOnly_iff`: exactly the shapes that fit paint only themselves.
-/

namespace VialQmk
namespace Painter

variable {π : Type*} {d : Device π}

/-! ## The pixels in the buffer -/

theorem foldl_update_apply (n i : ℕ) (pixel : π) (buffer : ℕ → π) :
    (List.range n).foldl (fun buffer i => Function.update buffer i pixel) buffer i =
      if i < n then pixel else buffer i := by
  induction n with
  | zero => rfl
  | succ n ih =>
    rw [List.range_succ, List.foldl_append, List.foldl_cons, List.foldl_nil]
    by_cases hi : i = n
    · rw [hi, Function.update_self, if_pos (Nat.lt_succ_self n)]
    · rw [Function.update_of_ne hi, ih]
      by_cases hlt : i < n
      · rw [if_pos hlt, if_pos (by omega)]
      · rw [if_neg hlt, if_neg (by omega)]

theorem fillPixdata_buffer (d : Device π) (n : ℕ) (color : Hsv) (g : Drawing π) (i : ℕ) :
    (fillPixdata d n color g).buffer i =
      if i < min d.numPixelsInBuffer n then d.paletteConvert color else g.buffer i :=
  foldl_update_apply _ _ _ _

/-! ## What is asked of the strokes -/

namespace Shape

/-- A place where the shape has a stroke. -/
def Painted (s : Shape) (x y : ℕ) : Prop :=
  ∃ rounds r, s.strokes rounds = some r ∧ ∃ t ∈ r.1, t.Covers x y

theorem fill_inRange {s : Shape} (h : s.InRange) : s.fill.InRange := by
  cases s <;> exact h

theorem fill_nonDegenerate {s : Shape} (h : s.NonDegenerate) : s.fill.NonDegenerate := by
  cases s <;> exact h

/-- The pixels that are written are the ones of the strokes. -/
theorem writes_iff (hd : d.Works) {s : Shape} (h : s.InRange) (hne : s.NonDegenerate)
    (color : Hsv) (buffer : ℕ → π) (p : ℕ × ℕ) (pixel : π) :
    s.Writes d color buffer p pixel ↔ ∃ rounds r, s.strokes rounds = some r ∧ ∃ t ∈ r.1,
      (p, pixel) ∈ Stroke.writes d.numPixelsInBuffer
        (fillPixdata d s.prepared color ⟨buffer, []⟩).buffer t := by
  have hwrites : ∀ r : List Stroke × Bool,
      writes (withStrokes d (fillPixdata d s.prepared color ⟨buffer, []⟩) r).1.calls =
        r.1.flatMap (Stroke.writes d.numPixelsInBuffer
          (fillPixdata d s.prepared color ⟨buffer, []⟩).buffer) := fun r =>
    writesFrom_strokes d.numPixelsInBuffer_pos _ _ _ _
  constructor
  · rintro ⟨rounds, g, ret, hdraw, hmem⟩
    rw [s.draw_eq hd h hne, Option.map_eq_some_iff] at hdraw
    obtain ⟨r, hr, hg⟩ := hdraw
    obtain rfl : _ = g := congrArg Prod.fst hg
    rw [hwrites, List.mem_flatMap] at hmem
    exact ⟨rounds, r, hr, hmem⟩
  · rintro ⟨rounds, r, hr, hmem⟩
    refine ⟨rounds, (withStrokes d (fillPixdata d s.prepared color ⟨buffer, []⟩) r).1,
      (withStrokes d (fillPixdata d s.prepared color ⟨buffer, []⟩) r).2, ?_, ?_⟩
    · rw [s.draw_eq hd h hne, hr]
      rfl
    · rw [hwrites, List.mem_flatMap]
      exact hmem

theorem exists_writes_iff (hd : d.Works) {s : Shape} (h : s.InRange) (hne : s.NonDegenerate)
    (color : Hsv) (buffer : ℕ → π) (p : ℕ × ℕ) :
    (∃ pixel, s.Writes d color buffer p pixel) ↔ s.Painted p.1 p.2 := by
  simp only [writes_iff hd h hne, Painted, Stroke.covers_iff d.numPixelsInBuffer
    (fillPixdata d s.prepared color ⟨buffer, []⟩).buffer]
  constructor
  · rintro ⟨pixel, rounds, r, hr, t, ht, hmem⟩
    exact ⟨rounds, r, hr, t, ht, pixel, hmem⟩
  · rintro ⟨rounds, r, hr, t, ht, pixel, hmem⟩
    exact ⟨pixel, rounds, r, hr, t, ht, hmem⟩

end Shape

/-- What is asked of the strokes; the buffer has room for so many pixels. -/
structure StrokesOnly (capacity : ℕ) (s : Shape) : Prop where
  defined : ∀ rounds, s.strokes rounds ≠ none
  used_le : ∀ rounds r, s.strokes rounds = some r → ∀ t ∈ r.1,
    t.size ≤ s.prepared ∨ capacity ≤ s.prepared
  box : ∀ x y, s.Painted x y → s.box.Mem x y
  exact : ∀ left top right bottom filled, s = .rect left top right bottom filled →
    ∀ x y, s.Painted x y ↔ Shape.OnRect s.box filled x y
  subset : ∀ x y, s.Painted x y → s.fill.Painted x y

theorem paintsOnly_iff_strokes [Nontrivial π] (hd : d.Works) {s : Shape} (h : s.InRange)
    (hne : s.NonDegenerate) : PaintsOnly d s ↔ StrokesOnly d.numPixelsInBuffer s := by
  have hexists := fun color buffer p => Shape.exists_writes_iff hd h hne color buffer p
  have hfill := fun color buffer p => Shape.exists_writes_iff hd (Shape.fill_inRange h)
    (Shape.fill_nonDegenerate hne) color buffer p
  have hvalue := fun color buffer t => Stroke.value_iff d.numPixelsInBuffer_pos
    (fillPixdata d s.prepared color ⟨buffer, []⟩).buffer t
  let color : Hsv := ⟨0, 0, 0⟩
  obtain ⟨old, hold⟩ := exists_ne (d.paletteConvert color)
  constructor
  · intro hpaints
    refine ⟨fun rounds hnone => ?_, fun rounds r hr t ht => ?_, fun x y hxy => ?_, ?_, ?_⟩
    · refine hpaints.defined color rounds (fun _ => old) ?_
      rw [s.draw_eq hd h hne, hnone, Option.map_none]
    · by_contra hmore
      rw [not_or, not_le, not_le] at hmore
      -- the first pixel that was not prepared is streamed
      have hused : s.prepared < t.used d.numPixelsInBuffer := lt_min hmore.1 hmore.2
      have hpixel : (fillPixdata d s.prepared color ⟨fun _ => old, []⟩).buffer s.prepared =
          old := by
        rw [fillPixdata_buffer, if_neg (by omega)]
      obtain ⟨p, hp⟩ := (hvalue color (fun _ => old) t old).mpr ⟨s.prepared, hused, hpixel.symm⟩
      exact hold (hpaints.color color (fun _ => old) p old
        ((Shape.writes_iff hd h hne _ _ _ _).mpr ⟨rounds, r, hr, t, ht, hp⟩))
    · obtain ⟨pixel, hwrites⟩ := (hexists color (fun _ => old) (x, y)).mpr hxy
      exact hpaints.box _ _ _ _ hwrites
    · intro left top right bottom filled hs x y
      rw [← hpaints.exact left top right bottom filled hs color (fun _ => old) (x, y), hexists]
    · intro x y hxy
      rw [← hfill color (fun _ => old) (x, y)]
      exact hpaints.subset _ _ _ ((hexists color (fun _ => old) (x, y)).mpr hxy)
  · intro hstrokes
    refine ⟨fun color rounds buffer hnone => ?_, fun color buffer p pixel hwrites => ?_,
      fun color buffer p pixel hwrites => ?_, ?_, ?_⟩
    · rw [s.draw_eq hd h hne, Option.map_eq_none_iff] at hnone
      exact hstrokes.defined rounds hnone
    · obtain ⟨rounds, r, hr, t, ht, hmem⟩ := (Shape.writes_iff hd h hne _ _ _ _).mp hwrites
      obtain ⟨i, hi, rfl⟩ := (hvalue color buffer t pixel).mp ⟨p, hmem⟩
      have hused := hstrokes.used_le rounds r hr t ht
      unfold Stroke.used at hi
      rw [fillPixdata_buffer, if_pos (by omega)]
    · exact hstrokes.box _ _ ((hexists color buffer p).mp ⟨pixel, hwrites⟩)
    · intro left top right bottom filled hs color buffer p
      rw [hexists, hstrokes.exact left top right bottom filled hs]
    · intro color buffer p hwrites
      exact (hfill color buffer p).mpr (hstrokes.subset _ _ ((hexists color buffer p).mp hwrites))

/-! ## Rectangles and circles -/

theorem painted_iff {s : Shape} {strokes : List Stroke}
    (h : ∀ rounds, s.strokes rounds = some (strokes, true)) (x y : ℕ) :
    s.Painted x y ↔ ∃ t ∈ strokes, t.Covers x y := by
  constructor
  · rintro ⟨rounds, r, hr, hmem⟩
    obtain rfl := Option.some.inj ((h rounds).symm.trans hr)
    exact hmem
  · exact fun hmem => ⟨0, _, h 0, hmem⟩

namespace Stroke

variable {x y : ℕ}

theorem bar_window {w : Window} (h : w.Valid) : (bar w.left w.top w.right w.bottom).window = w := by
  simp only [window, min_eq_left h.left_le, min_eq_left h.top_le, max_eq_right h.left_le,
    max_eq_right h.top_le]

theorem across_size (left right y : ℕ) :
    (bar left y right y).size = max left right + 1 - min left right := by
  simp [size, window, Window.width, Window.height]

theorem down_size (x top bottom : ℕ) :
    (bar x top x bottom).size = max top bottom + 1 - min top bottom := by
  simp [size, window, Window.width, Window.height]

end Stroke

theorem rect_box_valid (left top right bottom : ℕ) (filled : Bool) :
    (Shape.rect left top right bottom filled).box.Valid :=
  ⟨by simp [Shape.box], by simp [Shape.box]⟩

/-- A block of pixels. -/
theorem strokesOnly_block (capacity : ℕ) {s : Shape} (hvalid : s.box.Valid)
    (hstrokes : ∀ rounds, s.strokes rounds =
      some ([.bar s.box.left s.box.top s.box.right s.box.bottom], true))
    (hprepared : s.prepared = s.box.width * s.box.height) (hfill : s.fill = s) :
    StrokesOnly capacity s := by
  have hpainted : ∀ x y, s.Painted x y ↔ s.box.Mem x y := fun x y => by
    rw [painted_iff hstrokes]
    simp only [List.mem_singleton, exists_eq_left, Stroke.Covers, Stroke.bar_window hvalid]
  refine ⟨fun rounds => by rw [hstrokes]; exact Option.some_ne_none _, fun rounds r hr t ht => ?_,
    fun x y => (hpainted x y).mp, fun left top right bottom filled hs x y => ?_, fun x y hxy => ?_⟩
  · obtain rfl := Option.some.inj ((hstrokes rounds).symm.trans hr)
    obtain rfl := List.mem_singleton.mp ht
    left
    rw [hprepared, Stroke.size, Stroke.bar_window hvalid]
  · rw [hs] at hfill
    obtain rfl : true = filled := by injection hfill
    rw [hpainted]
    exact ⟨fun hmem => ⟨hmem, .inl rfl⟩, And.left⟩
  · rw [hfill]
    exact hxy

theorem strokesOnly_filled (capacity left top right bottom : ℕ) :
    StrokesOnly capacity (.rect left top right bottom true) :=
  strokesOnly_block capacity (rect_box_valid left top right bottom true) (fun _ => rfl) rfl rfl

theorem strokesOnly_axis (capacity : ℕ) {x0 y0 x1 y1 : ℕ} (haxis : x0 = x1 ∨ y0 = y1) :
    StrokesOnly capacity (.line x0 y0 x1 y1) :=
  strokesOnly_block capacity ⟨by simp [Shape.box], by simp [Shape.box]⟩ (fun _ => if_pos haxis)
    (if_pos haxis) rfl

/-- The strokes of a border. -/
def borderStrokes (w : Window) : List Stroke :=
  [.bar w.left w.top w.right w.top, .bar w.left w.bottom w.right w.bottom,
    .bar w.left (w.top + 1) w.left (toUint16 ((w.bottom : ℤ) - 1)),
    .bar w.right (w.top + 1) w.right (toUint16 ((w.bottom : ℤ) - 1))]

theorem borderStrokes_covers {w : Window} {x y : ℕ} :
    (∃ t ∈ borderStrokes w, t.Covers x y) ↔
      (min w.left w.right ≤ x ∧ x ≤ max w.left w.right) ∧ (y = w.top ∨ y = w.bottom) ∨
      (x = w.left ∨ x = w.right) ∧ min (w.top + 1) (toUint16 ((w.bottom : ℤ) - 1)) ≤ y ∧
        y ≤ max (w.top + 1) (toUint16 ((w.bottom : ℤ) - 1)) := by
  simp only [borderStrokes, List.mem_cons, List.not_mem_nil, or_false, exists_eq_or_imp,
    exists_eq_left, Stroke.bar_covers]
  omega

/-- A border is drawn if it has more than one row. -/
theorem strokesOnly_border (capacity : ℕ) {left top right bottom : ℕ}
    (h : Small left top right bottom) :
    StrokesOnly capacity (.rect left top right bottom false) ↔ top ≠ bottom := by
  obtain ⟨hleft, htop, hright, hbottom⟩ := h
  have hfilled := strokesOnly_filled capacity left top right bottom
  generalize hs : Shape.rect left top right bottom false = s
  have hvalid : s.box.Valid := hs ▸ rect_box_valid left top right bottom false
  have hstrokes : ∀ rounds, s.strokes rounds = some (borderStrokes s.box, true) := fun rounds => by
    subst hs
    rfl
  have hpainted := fun x y => (painted_iff hstrokes x y).trans borderStrokes_covers
  have hbox : s.box = ⟨min left right, min top bottom, max left right, max top bottom⟩ := by
    subst hs
    rfl
  have hprepared : s.prepared = max s.box.width s.box.height := by
    subst hs
    rfl
  constructor
  · rintro hstrokes rfl
    -- the bar beside the border reaches the row below it
    have hmem := hstrokes.box (min left right) (top + 1)
      ((hpainted _ _).mpr (.inr ⟨.inl (by rw [hbox]), ?_⟩))
    · have hle := hmem.le_bottom
      rw [hbox] at hle
      dsimp only at hle
      omega
    · rw [hbox]
      dsimp only
      unfold toUint16
      omega
  · intro hne
    have hlower : toUint16 ((s.box.bottom : ℤ) - 1) = s.box.bottom - 1 := by
      rw [hbox]
      unfold toUint16
      dsimp only
      omega
    have hlt : s.box.top < s.box.bottom := by
      rw [hbox]
      dsimp only
      omega
    obtain ⟨hleft_le, htop_le⟩ := hvalid
    have hborder : ∀ x y, s.Painted x y ↔ Shape.OnRect s.box false x y := by
      intro x y
      rw [hpainted, hlower]
      constructor
      · intro hplace
        exact ⟨⟨by omega, by omega, by omega, by omega⟩, .inr (by omega)⟩
      · rintro ⟨⟨hx, hx', hy, hy'⟩, hedge | hedge⟩
        · exact absurd hedge Bool.false_ne_true
        · omega
    refine ⟨fun rounds => by rw [hstrokes]; exact Option.some_ne_none _, fun rounds r hr t ht => ?_,
      fun x y hxy => ((hborder x y).mp hxy).1, fun left top right bottom filled hs' x y => ?_,
      fun x y hxy => ?_⟩
    · obtain rfl := Option.some.inj ((hstrokes rounds).symm.trans hr)
      left
      rw [hprepared]
      simp only [borderStrokes, hlower, List.mem_cons, List.not_mem_nil, or_false] at ht
      unfold Window.width Window.height
      rcases ht with rfl | rfl | rfl | rfl
      · rw [Stroke.across_size]
        omega
      · rw [Stroke.across_size]
        omega
      · rw [Stroke.down_size]
        omega
      · rw [Stroke.down_size]
        omega
    · rw [← hs] at hs'
      obtain rfl : false = filled := by injection hs'
      exact hborder x y
    · have hfill : s.fill = .rect left top right bottom true := by
        subst hs
        rfl
      rw [hfill, hfilled.exact _ _ _ _ _ rfl]
      have hmem := ((hborder x y).mp hxy).1
      rw [← hs] at hmem
      exact ⟨hmem, .inl rfl⟩

/-- A circle is always drawn. -/
theorem strokesOnly_circle (capacity : ℕ) {x y radius : ℕ} {filled : Bool}
    (h : (Shape.circle x y radius filled).InRange) :
    StrokesOnly capacity (.circle x y radius filled) := by
  obtain ⟨⟨hx, hx'⟩, hy, hy'⟩ := h
  have hr : radius ≤ 8192 := by omega
  have hstart := inCircle_start hr
  have hmem : ∀ rounds, ∀ s ∈ circleStart radius :: (circleOffsets rounds (circleStart radius)).1,
      InCircle radius s := fun rounds =>
    List.forall_mem_cons.mpr ⟨hstart, circleOffsets_mem hr rounds hstart⟩
  have hwithin : ∀ rounds r, (Shape.circle x y radius filled).strokes rounds = some r →
      ∀ t ∈ r.1, t.Within (Shape.circle x y radius filled).box ∧ t.size ≤ radius * 2 + 1 := by
    intro rounds r hr t ht
    obtain rfl := Option.some.inj hr
    obtain ⟨s, hs, ht⟩ := List.mem_flatMap.mp ht
    have hin := hmem rounds s hs
    have hxc := hin.xcalc_le
    have hyc := hin.ycalc_le
    exact circleStrokes_within hx hy (by omega) (by omega) filled t ht
  refine ⟨fun rounds => Option.some_ne_none _,
    fun rounds r hr t ht => .inl (hwithin rounds r hr t ht).2, ?_,
    fun _ _ _ _ _ hs => (by injection hs), ?_⟩
  · rintro x' y' ⟨rounds, r, hr, t, ht, hcovers⟩
    exact (hwithin rounds r hr t ht).1.mem hcovers
  · rintro x' y' ⟨rounds, r, hr, t, ht, hcovers⟩
    obtain rfl := Option.some.inj hr
    obtain ⟨s, hs, ht⟩ := List.mem_flatMap.mp ht
    refine ⟨rounds, _, rfl, ?_⟩
    cases filled with
    | false =>
      obtain ⟨t', ht', hcovers'⟩ := circleStrokes_subset _ _ _ _ ht hcovers
      exact ⟨t', List.mem_flatMap.mpr ⟨s, hs, ht'⟩, hcovers'⟩
    | true => exact ⟨t, List.mem_flatMap.mpr ⟨s, hs, ht⟩, hcovers⟩

/-! ## Lines -/

/-- The pixels of a line, up to its end. -/
theorem mem_lineDots {l : LineSetup} {x1 y1 n : ℕ} {s : LineState} {t : Stroke} :
    t ∈ (lineDots l x1 y1 n s).1 ↔ ∃ k < n, (∀ j < k, ¬ AtEnd x1 y1 ((lineStep l)^[j] s)) ∧
      t = .dot (toUint16 ((lineStep l)^[k] s).x) (toUint16 ((lineStep l)^[k] s).y) := by
  induction n generalizing s with
  | zero => simp [lineDots]
  | succ n ih =>
    unfold lineDots
    by_cases hloop : s.x ≠ x1 ∨ s.y ≠ y1
    · have hnot : ¬ AtEnd x1 y1 s := fun hend => by
        obtain ⟨hx, hy⟩ := hend
        tauto
      rw [if_pos hloop, List.mem_cons, ih]
      constructor
      · rintro (rfl | ⟨k, hk, hbefore, rfl⟩)
        · exact ⟨0, by omega, fun j hj => absurd hj (Nat.not_lt_zero j), rfl⟩
        · refine ⟨k + 1, by omega, fun j hj => ?_, rfl⟩
          cases j with
          | zero => exact hnot
          | succ j => exact hbefore j (by omega)
      · rintro ⟨k, hk, hbefore, rfl⟩
        cases k with
        | zero => exact .inl rfl
        | succ k => exact .inr ⟨k, by omega, fun j hj => hbefore (j + 1) (by omega), rfl⟩
    · have hend : AtEnd x1 y1 s := by
        rw [not_or, not_not, not_not] at hloop
        exact hloop
      rw [if_neg hloop, List.mem_singleton]
      constructor
      · rintro rfl
        exact ⟨0, by omega, fun j hj => absurd hj (Nat.not_lt_zero j), rfl⟩
      · rintro ⟨k, hk, hbefore, rfl⟩
        cases k with
        | zero => rfl
        | succ k => exact absurd hend (hbefore 0 (Nat.zero_lt_succ k))

section Lines

variable {x0 y0 x1 y1 : ℕ}

/-- The places of a line are the ones of its walk, up to its end. -/
theorem line_painted (hx : x0 ≠ x1) (hy : y0 ≠ y1) (x y : ℕ) :
    (Shape.line x0 y0 x1 y1).Painted x y ↔
      ∃ k, (∀ j < k, ¬ AtEnd x1 y1 (lineStates x0 y0 x1 y1 j)) ∧
        x = toUint16 (lineStates x0 y0 x1 y1 k).x ∧ y = toUint16 (lineStates x0 y0 x1 y1 k).y := by
  have haxis : ¬ (x0 = x1 ∨ y0 = y1) := not_or.mpr ⟨hx, hy⟩
  simp only [Shape.Painted, Shape.strokes, if_neg haxis, Option.some.injEq]
  constructor
  · rintro ⟨rounds, r, rfl, t, ht, hcovers⟩
    obtain ⟨k, -, hbefore, rfl⟩ := mem_lineDots.mp ht
    exact ⟨k, hbefore, Stroke.dot_covers.mp hcovers⟩
  · rintro ⟨k, hbefore, hplace⟩
    exact ⟨k + 1, _, rfl, _, mem_lineDots.mpr ⟨k, Nat.lt_succ_self k, hbefore, rfl⟩,
      Stroke.dot_covers.mpr hplace⟩

theorem inBox_of_steps {a b i : ℕ} (ha : a ≤ 16384) (hb : b ≤ 16384) (hi : i ≤ span a b) :
    min a b ≤ toUint16 (a + slope a b * i) ∧ toUint16 (a + slope a b * i) ≤ max a b := by
  unfold span at hi
  unfold toUint16 slope
  split_ifs <;> omega

theorem strokesOnly_line (capacity : ℕ) (h : Small x0 y0 x1 y1) (hx : x0 ≠ x1) (hy : y0 ≠ y1) :
    StrokesOnly capacity (.line x0 y0 x1 y1) ↔ LineFits x0 y0 x1 y1 := by
  have haxis : ¬ (x0 = x1 ∨ y0 = y1) := not_or.mpr ⟨hx, hy⟩
  have hpainted := fun x y => line_painted hx hy x y
  constructor
  · intro hstrokes
    by_contra hfits
    obtain ⟨m, hbefore, houtside⟩ := exists_outside h hx hy hfits
    have hmem := hstrokes.box _ _ ((hpainted _ _).mpr ⟨m, hbefore, rfl, rfl⟩)
    exact houtside ⟨⟨hmem.left_le, hmem.le_right⟩, hmem.top_le, hmem.le_bottom⟩
  · intro hfits
    rw [lineFits_iff h hx hy] at hfits
    have hstate : ∀ k ≤ rounds x0 y0 x1 y1,
        lineStates x0 y0 x1 y1 k = idealState x0 y0 x1 y1 (idealSteps x0 y0 x1 y1 k) :=
      fun k hk => lineStates_eq h hx hy hk fun j hj => hfits j (by omega)
    have hend : AtEnd x1 y1 (lineStates x0 y0 x1 y1 (rounds x0 y0 x1 y1)) := by
      rw [hstate _ le_rfl, idealSteps_rounds hx hy]
      exact idealState_end x0 y0 x1 y1
    refine ⟨fun rounds => ?_, fun rounds r hr t ht => .inl ?_, fun x y hxy => ?_,
      fun _ _ _ _ _ hs => (by injection hs), fun x y hxy => hxy⟩
    · simp only [Shape.strokes, if_neg haxis]
      exact Option.some_ne_none _
    · simp only [Shape.strokes, if_neg haxis, Option.some.injEq] at hr
      subst hr
      obtain ⟨k, -, -, rfl⟩ := mem_lineDots.mp ht
      simp only [Shape.prepared, if_neg haxis, Stroke.dot_size, le_refl]
    · obtain ⟨k, hbefore, rfl, rfl⟩ := (hpainted x y).mp hxy
      have hk : k ≤ rounds x0 y0 x1 y1 := by
        by_contra hlt
        exact hbefore _ (by omega) hend
      obtain ⟨hi, hj⟩ := idealSteps_le hx hy hk
      rw [hstate k hk]
      obtain ⟨hleft, hright⟩ := inBox_of_steps h.x0_le h.x1_le hi
      obtain ⟨htop, hbottom⟩ := inBox_of_steps h.y0_le h.y1_le hj
      exact ⟨hleft, hright, htop, hbottom⟩

end Lines

/-! ## Ellipses -/

section Ellipses

variable {a b : ℕ}

/-- A run of the loops without an overflow. -/
theorem ellipsePoints_eq_some (hs : Sizes a b) {rounds : ℕ} {r : List (ℤ × ℤ) × Bool}
    (h : ellipsePoints rounds a b = some r) :
    ∃ delta first, AtEllipse a b 0 b delta ∧
      ellipseOffsets (a * a) (b * b) (4 * (a * a)) rounds 0 b delta = some first ∧
      (first.2 = false ∧ r = (first.1, false) ∨ first.2 = true ∧ ∃ delta' second,
        AtEllipse b a 0 a delta' ∧
        ellipseOffsets (b * b) (a * a) (4 * (b * b)) rounds 0 a delta' = some second ∧
        r = (first.1 ++ second.1.map Prod.swap, second.2)) := by
  obtain ⟨haa, hbb, hfa, hfb⟩ := hs.squares
  have hale := hs.a_le
  have hble := hs.b_le
  simp only [ellipsePoints, haa, hbb, hfa, hfb, Option.bind_some] at h
  rw [toInt16_eq (v := a) ⟨by omega, by omega⟩, toInt16_eq (v := b) ⟨by omega, by omega⟩] at h
  simp only [Option.bind_eq_some_iff] at h
  obtain ⟨delta, hdelta, first, hfirst, h⟩ := h
  refine ⟨delta, first, ellipseDelta_eq hdelta, hfirst, ?_⟩
  split_ifs at h with hends
  · simp only [Option.bind_eq_some_iff, Option.map_eq_some_iff] at h
    obtain ⟨delta', hdelta', second, hsecond, rfl⟩ := h
    exact .inr ⟨hends, delta', second, ellipseDelta_eq hdelta', hsecond, rfl⟩
  · exact .inl ⟨by simpa using hends, (Option.some.inj h).symm⟩

/-- No offset of an ellipse is above its size. -/
theorem ellipsePoints_mem (hs : Sizes a b) {rounds : ℕ} {r : List (ℤ × ℤ) × Bool}
    (h : ellipsePoints rounds a b = some r) :
    ∀ o ∈ r.1, (0 ≤ o.1 ∧ o.1 ≤ a) ∧ 0 ≤ o.2 ∧ o.2 ≤ b := by
  obtain ⟨delta, first, hstart, hfirst, hcases⟩ := ellipsePoints_eq_some hs h
  have hmem := ellipseOffsets_mem hs hstart hfirst
  obtain ⟨-, rfl⟩ | ⟨-, delta', second, hstart', hsecond, rfl⟩ := hcases
  · exact hmem
  · intro o ho
    rw [List.mem_append, List.mem_map] at ho
    obtain ho | ⟨o', ho', rfl⟩ := ho
    · exact hmem o ho
    · exact (ellipseOffsets_mem hs.swap hstart' hsecond o' ho').symm

theorem ellipseDelta_ne_none (hs : Sizes a b) (hfirst : FirstStepFits a b) :
    ∃ delta, ellipseDelta (a * a) (b * b) b = some delta ∧ -2147483648 ≤ delta := by
  have haa : (a : ℤ) * a ≤ 8192 * 8192 := by exact_mod_cast Nat.mul_le_mul hs.a_le hs.a_le
  have hbb : (b : ℤ) * b ≤ 8192 * 8192 := by exact_mod_cast Nat.mul_le_mul hs.b_le hs.b_le
  have haa0 : (0 : ℤ) ≤ a * a := mul_self_nonneg _
  have hbb0 : (0 : ℤ) ≤ b * b := mul_self_nonneg _
  have haab : (0 : ℤ) ≤ a * a * b := mul_nonneg haa0 (Int.natCast_nonneg b)
  unfold FirstStepFits at hfirst
  have hlow : -2147483648 ≤ (a : ℤ) * a * (1 - 2 * b) := by linarith
  have hhigh : (a : ℤ) * a * (1 - 2 * b) ≤ a * a := by linarith
  refine ⟨2 * (b * b) + a * a * (1 - 2 * b), ?_, by omega⟩
  simp only [ellipseDelta, Option.bind_eq_bind]
  rw [int32_eq_some (by omega) (by omega), Option.bind_some, int32_eq_some hlow (by omega),
    Option.bind_some, int32_eq_some (by omega) (by omega)]

/-- The arithmetic of an ellipse overflows exactly where a first step does not fit. -/
theorem ellipsePoints_ne_none_iff (hs : Sizes a b) :
    (∀ rounds, ellipsePoints rounds a b ≠ none) ↔ FirstStepFits a b ∧ FirstStepFits b a := by
  constructor
  · intro hnever
    obtain ⟨r, hr⟩ := Option.ne_none_iff_exists'.mp (hnever (a + b + 2))
    obtain ⟨delta, first, hstart, hfirst, hcases⟩ := ellipsePoints_eq_some hs hr
    have hends := ellipseOffsets_ends hs hstart (by omega) (by push_cast; omega) hfirst
    constructor
    · by_contra hnot
      have hnone := ellipseOffsets_eq_none hs hnot (a + b + 2) hstart (.inl rfl)
        (by push_cast; omega)
      exact absurd (hnone.symm.trans hfirst) (Option.some_ne_none _).symm
    · by_contra hnot
      obtain ⟨hrunning, -⟩ | ⟨-, delta', second, hstart', hsecond, -⟩ := hcases
      · rw [hrunning] at hends
        exact Bool.false_ne_true hends
      · have hnone := ellipseOffsets_eq_none hs.swap hnot (a + b + 2) hstart' (.inl rfl)
          (by push_cast; omega)
        exact absurd (hnone.symm.trans hsecond) (Option.some_ne_none _).symm
  · rintro ⟨hfirst, hsecond⟩ rounds
    obtain ⟨haa, hbb, hfa, hfb⟩ := hs.squares
    have hale := hs.a_le
    have hble := hs.b_le
    obtain ⟨delta, hdelta, hlow⟩ := ellipseDelta_ne_none hs hfirst
    obtain ⟨delta', hdelta', hlow'⟩ := ellipseDelta_ne_none hs.swap hsecond
    obtain ⟨r, hr⟩ := Option.ne_none_iff_exists'.mp (ellipseOffsets_ne_none hs hfirst hsecond rounds
      (ellipseDelta_eq hdelta) (.inl (by decide)) hlow)
    obtain ⟨r', hr'⟩ := Option.ne_none_iff_exists'.mp (ellipseOffsets_ne_none hs.swap hsecond hfirst
      rounds (ellipseDelta_eq hdelta') (.inl (by decide)) hlow')
    simp only [ellipsePoints, haa, hbb, hfa, hfb, Option.bind_some]
    rw [toInt16_eq (v := a) ⟨by omega, by omega⟩, toInt16_eq (v := b) ⟨by omega, by omega⟩, hdelta,
      Option.bind_some, hr, Option.bind_some, hdelta', Option.bind_some, hr', Option.map_some]
    split_ifs
    · exact Option.some_ne_none _
    · exact Option.some_ne_none _

/-- An ellipse has its leftmost and its rightmost pixel. -/
theorem exists_widest (hs : Sizes a b) (hnever : ∀ rounds, ellipsePoints rounds a b ≠ none) :
    ∃ rounds r, ellipsePoints rounds a b = some r ∧ ((a : ℤ), 0) ∈ r.1 := by
  obtain ⟨r, hr⟩ := Option.ne_none_iff_exists'.mp (hnever (a + 2))
  obtain ⟨delta, first, hstart, hfirst, hcases⟩ := ellipsePoints_eq_some hs hr
  have hends := ellipseOffsets_ends hs hstart (by omega) (by push_cast; omega) hfirst
  refine ⟨a + 2, r, hr, ?_⟩
  obtain ⟨hrunning, -⟩ | ⟨-, delta', second, hstart', hsecond, rfl⟩ := hcases
  · rw [hrunning] at hends
    exact absurd hends Bool.false_ne_true
  · have hloop : (a : ℤ) * a * 0 ≤ b * b * a := by
      rw [mul_zero]
      exact mul_nonneg (mul_self_nonneg _) (Int.natCast_nonneg a)
    obtain ⟨hlt, -⟩ | ⟨-, r', -, rfl⟩ := ellipseOffsets_succ hs.swap hstart' hsecond
    · omega
    · simp

theorem strokesOnly_ellipse (capacity : ℕ) {x y a b : ℕ} {filled : Bool}
    (h : (Shape.ellipse x y a b filled).InRange) (hne : ¬ (a = 0 ∧ b = 0)) :
    StrokesOnly capacity (.ellipse x y a b filled) ↔
      FirstStepFits a b ∧ FirstStepFits b a ∧
        (filled = true → a = 0 ∨ 2 * a + 1 ≤ b ∨ capacity ≤ max a b) := by
  obtain ⟨⟨hx, hx'⟩, hy, hy'⟩ := h
  have hs : Sizes a b := ⟨by omega, by omega, hne⟩
  have hdefined : (∀ rounds, (Shape.ellipse x y a b filled).strokes rounds ≠ none) ↔
      ∀ rounds, ellipsePoints rounds a b ≠ none :=
    forall_congr' fun rounds => not_congr Option.map_eq_none_iff
  have hstroke : ∀ rounds r, (Shape.ellipse x y a b filled).strokes rounds = some r →
      ∀ t ∈ r.1, ∃ ox oy, (ox ≤ a ∧ oy ≤ b) ∧ t ∈ ellipseStrokes x y ox oy filled := by
    intro rounds r hr t ht
    obtain ⟨r', hr', rfl⟩ := Option.map_eq_some_iff.mp hr
    obtain ⟨o, ho, ht⟩ := List.mem_flatMap.mp ht
    obtain ⟨hp, hq⟩ := ellipsePoints_mem hs hr' o ho
    exact ⟨o.1.toNat, o.2.toNat, ⟨by omega, by omega⟩, ht⟩
  constructor
  · intro hstrokes
    have hnever := hdefined.mp hstrokes.defined
    obtain ⟨hfirst, hsecond⟩ := (ellipsePoints_ne_none_iff hs).mp hnever
    refine ⟨hfirst, hsecond, ?_⟩
    rintro rfl
    by_contra hwide
    rw [not_or, not_or] at hwide
    obtain ⟨ha, hb, hcapacity⟩ := hwide
    -- the widest row needs more pixels than are prepared
    obtain ⟨rounds, r, hr, hmem⟩ := exists_widest hs hnever
    have hrow : Stroke.bar (x + a) y (x - a) y ∈ ellipseStrokes x y a 0 true := by
      simp [ellipseStrokes, ha]
    have hused := hstrokes.used_le rounds _ (Option.map_eq_some_iff.mpr ⟨r, hr, rfl⟩)
      (.bar (x + a) y (x - a) y) (List.mem_flatMap.mpr ⟨_, hmem, hrow⟩)
    rw [Stroke.row_size hx] at hused
    simp only [Shape.prepared] at hused
    omega
  · rintro ⟨hfirst, hsecond, hwide⟩
    have hwithin : ∀ rounds r, (Shape.ellipse x y a b filled).strokes rounds = some r →
        ∀ t ∈ r.1, t.Within (Shape.ellipse x y a b filled).box := by
      intro rounds r hr t ht
      obtain ⟨ox, oy, ⟨hox, hoy⟩, ht⟩ := hstroke rounds r hr t ht
      exact ellipseStrokes_within hx hy hox hoy filled t ht
    refine ⟨hdefined.mpr ((ellipsePoints_ne_none_iff hs).mpr ⟨hfirst, hsecond⟩),
      fun rounds r hr t ht => ?_, ?_, fun _ _ _ _ _ hs => (by injection hs), ?_⟩
    · obtain ⟨ox, oy, ⟨hox, hoy⟩, ht⟩ := hstroke rounds r hr t ht
      simp only [Shape.prepared]
      obtain hsize | ⟨rfl, hpos, hsize⟩ := ellipseStrokes_size (by omega) ht
      · omega
      · have hwide := hwide rfl
        omega
    · rintro x' y' ⟨rounds, r, hr, t, ht, hcovers⟩
      exact (hwithin rounds r hr t ht).mem hcovers
    · rintro x' y' ⟨rounds, r, hr, t, ht, hcovers⟩
      obtain ⟨r', hr', rfl⟩ := Option.map_eq_some_iff.mp hr
      obtain ⟨o, ho, ht⟩ := List.mem_flatMap.mp ht
      refine ⟨rounds, _, Option.map_eq_some_iff.mpr ⟨r', hr', rfl⟩, ?_⟩
      cases filled with
      | false =>
        obtain ⟨t', ht', hcovers'⟩ := ellipseStrokes_subset _ _ _ _ ht hcovers
        exact ⟨t', List.mem_flatMap.mpr ⟨o, ho, ht'⟩, hcovers'⟩
      | true => exact ⟨t, List.mem_flatMap.mpr ⟨o, ho, ht⟩, hcovers⟩

/-- An ellipse without a size draws a pixel that is not prepared. -/
theorem not_paintsOnly_degenerate [Nontrivial π] (hd : d.Works) {x y : ℕ} {filled : Bool}
    (hx : x ≤ 16384) (hy : y ≤ 16384) : ¬ PaintsOnly d (.ellipse x y 0 0 filled) := by
  intro hpaints
  obtain ⟨old, hold⟩ := exists_ne (d.paletteConvert ⟨0, 0, 0⟩)
  refine hold (hpaints.color ⟨0, 0, 0⟩ (fun _ => old) (x, y) old ⟨1, ?_⟩)
  have hdisplay : ∀ c ≤ 16384, OnDisplay c 0 := fun c hc => ⟨Nat.zero_le c, hc⟩
  have hhelper := ellipseHelper_draws hd (hdisplay x hx) (hdisplay y hy) filled
    (p := 0) (q := 0) ⟨le_rfl, le_rfl⟩ ⟨le_rfl, le_rfl⟩
    (fillPixdata d 0 ⟨0, 0, 0⟩ ⟨fun _ => old, []⟩)
  have hstrokes : ellipseStrokes x y (0 : ℤ).toNat (0 : ℤ).toNat filled = [.dot x y, .dot x y] := by
    simp [ellipseStrokes]
  have hbuffer : (fillPixdata d 0 ⟨0, 0, 0⟩ ⟨fun _ => old, []⟩).buffer 0 = old := by
    rw [fillPixdata_buffer, if_neg (by omega)]
  rw [hstrokes] at hhelper
  refine ⟨(withStrokes d (fillPixdata d 0 ⟨0, 0, 0⟩ ⟨fun _ => old, []⟩)
    ([.dot x y, .dot x y], true)).1, none, ?_, ?_⟩
  · have hzero : int32 0 = some 0 := rfl
    have hdelta : ellipseDelta 0 0 0 = some 0 := rfl
    have hstep : ellipseStep 0 0 0 0 0 = some (-1, 0) := rfl
    have hsize : toInt16 0 = 0 := rfl
    simp only [Shape.draw, qpEllipse, ellipseLoops, hd.validateOk, hd.commsStart, Nat.cast_zero,
      mul_zero, hzero, Option.bind_some, Bool.true_eq_false, if_false, max_self, hdelta, hsize,
      ellipseLoop, le_refl, if_true, hhelper, hstep]
    simp [withStrokes]
  · have hwrites : writes (withStrokes d (fillPixdata d 0 ⟨0, 0, 0⟩ ⟨fun _ => old, []⟩)
        ([.dot x y, .dot x y], true)).1.calls = _ :=
      writesFrom_strokes d.numPixelsInBuffer_pos _ _ _ _
    rw [hwrites, List.mem_flatMap]
    refine ⟨.dot x y, List.mem_cons_self, List.mem_map.mpr ⟨0, ?_, ?_⟩⟩
    · rw [List.mem_range]
      exact Stroke.size_pos _
    · rw [Nat.zero_mod, hbuffer]
      simp [Stroke.window, Window.place]

end Ellipses

/-! ## Shapes -/

/-- The border of a rectangle has more than one row; the error term of a line fits; the first
steps of an ellipse fit, it has a size, and where it is filled its rows are no longer than the
pixels that are prepared. -/
def Shape.Fits (capacity : ℕ) : Shape → Prop
  | .rect _ top _ bottom filled => filled = true ∨ top ≠ bottom
  | .line x0 y0 x1 y1 => (x0 = x1 ∨ y0 = y1) ∨ LineFits x0 y0 x1 y1
  | .circle _ _ _ _ => True
  | .ellipse _ _ a b filled =>
    ¬ (a = 0 ∧ b = 0) ∧ FirstStepFits a b ∧ FirstStepFits b a ∧
      (filled = true → a = 0 ∨ 2 * a + 1 ≤ b ∨ capacity ≤ max a b)

/-- Exactly the shapes that fit paint only themselves. -/
theorem paintsOnly_iff [Nontrivial π] (hd : d.Works) {s : Shape} (h : s.InRange) :
    PaintsOnly d s ↔ s.Fits d.numPixelsInBuffer := by
  cases s with
  | rect left top right bottom filled =>
    rw [paintsOnly_iff_strokes hd h trivial]
    cases filled with
    | true => exact iff_of_true (strokesOnly_filled _ _ _ _ _) (.inl rfl)
    | false =>
      rw [strokesOnly_border _ h]
      simp [Shape.Fits]
  | line x0 y0 x1 y1 =>
    rw [paintsOnly_iff_strokes hd h trivial]
    by_cases haxis : x0 = x1 ∨ y0 = y1
    · exact iff_of_true (strokesOnly_axis _ haxis) (.inl haxis)
    · obtain ⟨hx, hy⟩ := not_or.mp haxis
      rw [strokesOnly_line _ h hx hy]
      exact (or_iff_right haxis).symm
  | circle x y radius filled =>
    rw [paintsOnly_iff_strokes hd h trivial]
    exact iff_of_true (strokesOnly_circle _ h) trivial
  | ellipse x y a b filled =>
    by_cases hne : a = 0 ∧ b = 0
    · obtain ⟨rfl, rfl⟩ := hne
      obtain ⟨⟨-, hx⟩, -, hy⟩ := h
      exact iff_of_false (not_paintsOnly_degenerate hd hx hy) fun hfits => hfits.1 ⟨rfl, rfl⟩
    · rw [paintsOnly_iff_strokes hd h hne, strokesOnly_ellipse _ h hne]
      exact (and_iff_right hne).symm

instance : Nontrivial Hsv :=
  ⟨⟨0, 0, 0⟩, ⟨1, 0, 0⟩, fun h => by injection h with hhue; exact absurd hhue (by decide)⟩

theorem paintsOnly_narrow : PaintsOnly someDevice (.ellipse 20 20 3 7 true) := by
  have hrange : (Shape.ellipse 20 20 3 7 true).InRange :=
    ⟨⟨by decide, by decide⟩, by decide, by decide⟩
  have hfirst : FirstStepFits 3 7 := by
    unfold FirstStepFits
    decide
  have hsecond : FirstStepFits 7 3 := by
    unfold FirstStepFits
    decide
  exact (paintsOnly_iff someDevice_works hrange).mpr
    ⟨by decide, hfirst, hsecond, fun _ => by decide⟩

/-- The border of one row writes the row below it, and a filled ellipse that is wider than high
writes pixels that were not prepared. -/
theorem not_paintsOnly_row :
    ¬ PaintsOnly someDevice (.rect 3 3 5 3 false) ∧
      ¬ PaintsOnly someDevice (.ellipse 20 20 3 3 true) := by
  have hrange : (Shape.rect 3 3 5 3 false).InRange :=
    ⟨by decide, by decide, by decide, by decide⟩
  have hrange' : (Shape.ellipse 20 20 3 3 true).InRange :=
    ⟨⟨by decide, by decide⟩, by decide, by decide⟩
  constructor
  · intro hpaints
    have hstrokes := (paintsOnly_iff_strokes someDevice_works hrange trivial).mp hpaints
    exact (strokesOnly_border _ hrange).mp hstrokes rfl
  · intro hpaints
    have hne : ¬ (3 = 0 ∧ 3 = 0) := by decide
    have hstrokes := (paintsOnly_iff_strokes someDevice_works hrange' hne).mp hpaints
    obtain ⟨-, -, hwide⟩ := (strokesOnly_ellipse _ hrange' hne).mp hstrokes
    exact absurd (hwide rfl) (by decide)

end Painter
end VialQmk
