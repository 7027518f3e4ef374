import VialQmk.Library.DigitalLine
import VialQmk.Painter.DrawCore
import Mathlib.Logic.Function.Iterate

/-!
# Quantum Painter - lines

{lit}`qp_line` walks a digital line.  Its error term says how far the walk is from the ideal line,
and the next step keeps it so, as long as twice the error term is a number of 16 bits.  That is
not so on all lines below {lit}`2 ^ 14`: on a long line that is nearly level the error term grows
to one and a half of its length.

Main results:

- Definition {lit}`DrawsLine`: what is asked of a line.
- Theorem {lit}`lineStep_ideal`: one round of the loop.
- Theorem {lit}`drawsLine_iff`: exactly the lines whose largest error fits are drawn.
-/

namespace VialQmk
namespace Painter

open DigitalLine

/-! ## The property -/

/-- Nothing fails. -/
structure Device.Works {π : Type*} (d : Device π) : Prop where
  validateOk : d.validateOk = true
  commsStart : d.commsStart = true
  ok : ∀ calls, d.ok calls = true

/-- A value of 16 bits with a sign. -/
def InInt16 (v : ℤ) : Prop :=
  -32768 ≤ v ∧ v ≤ 32767

instance (v : ℤ) : Decidable (InInt16 v) :=
  inferInstanceAs (Decidable (_ ∧ _))

/-- The values at the start, before they are put into 16 bits. -/
def startValues (x0 y0 x1 y1 : ℕ) : List ℤ :=
  let l := lineSetup x0 y0 x1 y1
  [x0, y0, (toInt16 x1 - toInt16 x0).natAbs, -(toInt16 y1 - toInt16 y0).natAbs, l.dx + l.dy,
    2 * toInt16 (l.dx + l.dy)]

/-- The values of a round, before they are put into 16 bits. -/
def roundValues (l : LineSetup) (s : LineState) : List ℤ :=
  let e2 := toInt16 (2 * s.e)
  let x := if l.dy ≤ e2 then s.x + l.slopex else s.x
  let e := if l.dy ≤ e2 then s.e + l.dy else s.e
  [2 * s.e, x, e, if e2 ≤ l.dx then s.y + l.slopey else s.y,
    if e2 ≤ l.dx then toInt16 e + l.dx else e]

/-- The state after some rounds. -/
def lineStates (x0 y0 x1 y1 k : ℕ) : LineState :=
  (lineStep (lineSetup x0 y0 x1 y1))^[k] (lineStart (lineSetup x0 y0 x1 y1) x0 y0)

variable {π : Type*}

/-- The calls for one pixel. -/
def pixelCalls (pixel : π) (s : LineState) : List (Call π) :=
  [.viewport (toUint16 s.x) (toUint16 s.y) (toUint16 s.x) (toUint16 s.y), .pixdata [pixel]]

/-- The loop ends, the values are of 16 bits, and the pixels go from the first end to the second
one, each at most half a pixel beside the ideal line. -/
structure DrawsLine (d : Device π) (x0 y0 x1 y1 : ℕ) (color : Hsv) (g : Drawing π) (n : ℕ) :
    Prop where
  ends : ∃ rounds, qpLine d rounds x0 y0 x1 y1 color g =
    (⟨(fillPixdata d 1 color g).buffer, g.calls ++ (List.range (n + 1)).flatMap fun k =>
      pixelCalls (d.paletteConvert color) (lineStates x0 y0 x1 y1 k)⟩, some true)
  start_mem : ∀ v ∈ startValues x0 y0 x1 y1, InInt16 v
  round_mem : ∀ k < n, ∀ v ∈ roundValues (lineSetup x0 y0 x1 y1) (lineStates x0 y0 x1 y1 k),
    InInt16 v
  length_eq : n + 1 = max ((x1 : ℤ) - x0).natAbs ((y1 : ℤ) - y0).natAbs + 1
  first : (lineStates x0 y0 x1 y1 0).x = x0 ∧ (lineStates x0 y0 x1 y1 0).y = y0
  last : (lineStates x0 y0 x1 y1 n).x = x1 ∧ (lineStates x0 y0 x1 y1 n).y = y1
  next : ∀ k < n,
    let s := lineStates x0 y0 x1 y1 k
    let s' := lineStates x0 y0 x1 y1 (k + 1)
    (s'.x - s.x).natAbs ≤ 1 ∧ (s'.y - s.y).natAbs ≤ 1 ∧
      (((y1 : ℤ) - y0).natAbs ≤ ((x1 : ℤ) - x0).natAbs → (s'.x - s.x).natAbs = 1) ∧
      (((x1 : ℤ) - x0).natAbs ≤ ((y1 : ℤ) - y0).natAbs → (s'.y - s.y).natAbs = 1)
  near : ∀ k ≤ n,
    let s := lineStates x0 y0 x1 y1 k
    let beside := ((s.y - y0) * (x1 - x0) - (s.x - x0) * (y1 - y0)).natAbs
    (((y1 : ℤ) - y0).natAbs ≤ ((x1 : ℤ) - x0).natAbs → 2 * beside ≤ ((x1 : ℤ) - x0).natAbs) ∧
      (((x1 : ℤ) - x0).natAbs ≤ ((y1 : ℤ) - y0).natAbs → 2 * beside ≤ ((y1 : ℤ) - y0).natAbs)

/-- Twice the largest error term is of 16 bits. -/
def LineFits (x0 y0 x1 y1 : ℕ) : Prop :=
  let dx := ((x1 : ℤ) - x0).natAbs
  let dy := ((y1 : ℤ) - y0).natAbs
  if dy ≤ dx then 2 * (dx - dy + maxError dx dy) ≤ 32767
  else 2 * (dy - dx + maxError dy dx) ≤ 32768

/-! ## Drawing -/

section Drawing

variable {d : Device π}

theorem Device.Works.callDriver (h : d.Works) (call : Call π) (g : Drawing π) :
    callDriver d call g = ({ g with calls := g.calls ++ [call] }, some true) := by
  unfold Painter.callDriver
  rw [h.ok]

theorem Device.Works.setpixelImpl (h : d.Works) (x y : ℕ) (g : Drawing π) :
    setpixelImpl d x y g =
      (⟨g.buffer, g.calls ++ [.viewport x y x y, .pixdata [g.buffer 0]]⟩, some true) := by
  unfold Painter.setpixelImpl
  simp only [inOrder, h.callDriver, pixdata, List.append_assoc]
  rfl

theorem Device.Works.started (h : d.Works) (action : Action π) : started d action = action := by
  funext g
  unfold Painter.started
  rw [h.validateOk, h.commsStart]
  rfl

/-- The loop, if it ends after some rounds. -/
theorem lineLoop_eq (h : d.Works) (l : LineSetup) {x1 y1 n : ℕ} {s : LineState}
    (hbefore : ∀ k < n, ¬ (((lineStep l)^[k] s).x = x1 ∧ ((lineStep l)^[k] s).y = y1))
    (hend : ((lineStep l)^[n] s).x = x1 ∧ ((lineStep l)^[n] s).y = y1) (g : Drawing π) :
    lineLoop d l x1 y1 (n + 1) s g =
      ((⟨g.buffer, g.calls ++ (List.range n).flatMap fun k =>
        pixelCalls (g.buffer 0) ((lineStep l)^[k] s)⟩, some true), (lineStep l)^[n] s) := by
  induction n generalizing s g with
  | zero =>
    have hdone : ¬ (s.x ≠ x1 ∨ s.y ≠ y1) := by
      rw [not_or, not_not, not_not]
      exact hend
    unfold lineLoop
    rw [if_neg hdone, List.range_zero, List.flatMap_nil, List.append_nil]
    rfl
  | succ n ih =>
    have hmore : s.x ≠ x1 ∨ s.y ≠ y1 := by
      have hfirst := hbefore 0 (Nat.zero_lt_succ n)
      rw [Function.iterate_zero, id] at hfirst
      tauto
    unfold lineLoop
    rw [if_pos hmore, h.setpixelImpl]
    have hrest := ih (s := lineStep l s)
      (fun k hk => hbefore (k + 1) (Nat.succ_lt_succ hk)) hend
      ⟨g.buffer, g.calls ++ pixelCalls (g.buffer 0) s⟩
    refine Eq.trans hrest ?_
    rw [List.range_succ_eq_map, List.flatMap_cons, List.flatMap_map, ← List.append_assoc]
    rfl

end Drawing

/-! ## The ideal run -/

theorem toInt16_eq {v : ℤ} (h : InInt16 v) : toInt16 v = v := by
  obtain ⟨hlow, hhigh⟩ := h
  exact Int.bmod_eq_of_le (by omega) (by omega)

/-- A round with values of 16 bits. -/
theorem lineStep_eq {l : LineSetup} {s : LineState} (h : ∀ v ∈ roundValues l s, InInt16 v) :
    lineStep l s =
      ⟨if l.dy ≤ 2 * s.e then s.x + l.slopex else s.x,
        if 2 * s.e ≤ l.dx then s.y + l.slopey else s.y,
        if 2 * s.e ≤ l.dx then (if l.dy ≤ 2 * s.e then s.e + l.dy else s.e) + l.dx
        else if l.dy ≤ 2 * s.e then s.e + l.dy else s.e⟩ := by
  have he2 : toInt16 (2 * s.e) = 2 * s.e := toInt16_eq (h _ List.mem_cons_self)
  simp only [roundValues, he2, List.forall_mem_cons] at h
  obtain ⟨-, hx, he, hy, hlast, -⟩ := h
  rw [toInt16_eq he] at hlast
  simp only [lineStep, he2]
  by_cases hdy : l.dy ≤ 2 * s.e
  · simp only [if_pos hdy] at hx he hlast ⊢
    rw [toInt16_eq hx, toInt16_eq he]
    by_cases hdx : 2 * s.e ≤ l.dx
    · simp only [if_pos hdx] at hy hlast ⊢
      rw [toInt16_eq hy, toInt16_eq hlast]
    · simp only [if_neg hdx]
  · simp only [if_neg hdy] at hlast ⊢
    by_cases hdx : 2 * s.e ≤ l.dx
    · simp only [if_pos hdx] at hy hlast ⊢
      rw [toInt16_eq hy, toInt16_eq hlast]
    · simp only [if_neg hdx]

/-- The direction from one place to another. -/
def slope (a b : ℕ) : ℤ :=
  if a < b then 1 else -1

/-- The distance of two places. -/
def span (a b : ℕ) : ℕ :=
  ((b : ℤ) - a).natAbs

theorem slope_mul_span (a b : ℕ) : slope a b * span a b = b - a := by
  unfold slope span
  split_ifs <;> omega

section Ideal

variable (x0 y0 x1 y1 : ℕ)

/-- The state after so many steps along each axis. -/
def idealState (p : ℕ × ℕ) : LineState :=
  ⟨x0 + slope x0 x1 * p.1, y0 + slope y0 y1 * p.2,
    span x0 x1 - span y0 y1 + (p.2 * span x0 x1 - p.1 * span y0 y1)⟩

/-- The steps along each axis after some rounds. -/
def idealSteps (k : ℕ) : ℕ × ℕ :=
  if span y0 y1 ≤ span x0 x1 then (k, side (span x0 x1) (span y0 y1) k)
  else (side (span y0 y1) (span x0 x1) k, k)

/-- The rounds. -/
def rounds : ℕ :=
  max (span x0 x1) (span y0 y1)

variable {x0 y0 x1 y1}

/-- No coordinate is above {lit}`2 ^ 14`. -/
structure Small (x0 y0 x1 y1 : ℕ) : Prop where
  x0_le : x0 ≤ 16384
  y0_le : y0 ≤ 16384
  x1_le : x1 ≤ 16384
  y1_le : y1 ≤ 16384

theorem span_le {a b : ℕ} (ha : a ≤ 16384) (hb : b ≤ 16384) : span a b ≤ 16384 := by
  unfold span
  omega

theorem span_pos {a b : ℕ} (h : a ≠ b) : 0 < span a b := by
  unfold span
  omega

theorem lineSetup_eq (h : Small x0 y0 x1 y1) :
    lineSetup x0 y0 x1 y1 = ⟨slope x0 x1, slope y0 y1, span x0 x1, -span y0 y1⟩ := by
  obtain ⟨hx0, hy0, hx1, hy1⟩ := h
  have hmem : ∀ a : ℕ, a ≤ 16384 → toInt16 a = a := fun a ha =>
    toInt16_eq ⟨by omega, by omega⟩
  unfold lineSetup
  rw [hmem x0 hx0, hmem y0 hy0, hmem x1 hx1, hmem y1 hy1,
    toInt16_eq ⟨by omega, by omega⟩, toInt16_eq ⟨by omega, by omega⟩]
  simp only [Nat.cast_lt]
  rfl

theorem lineStart_eq (h : Small x0 y0 x1 y1) :
    lineStart (lineSetup x0 y0 x1 y1) x0 y0 = idealState x0 y0 x1 y1 (0, 0) := by
  have hx := span_le h.x0_le h.x1_le
  have hy := span_le h.y0_le h.y1_le
  have hx0 := h.x0_le
  have hy0 := h.y0_le
  rw [lineSetup_eq h]
  simp only [lineStart, idealState]
  rw [toInt16_eq (v := x0) ⟨by omega, by omega⟩, toInt16_eq (v := y0) ⟨by omega, by omega⟩,
    toInt16_eq ⟨by omega, by omega⟩]
  simp only [Nat.cast_zero, mul_zero, zero_mul, sub_self, add_zero]
  rfl

/-- Between the ends of the line. -/
theorem between {a b i : ℕ} (ha : a ≤ 16384) (hb : b ≤ 16384) (hi : i ≤ span a b) :
    0 ≤ (a : ℤ) + slope a b * i ∧ (a : ℤ) + slope a b * i ≤ 16384 := by
  unfold span at hi
  unfold slope
  split_ifs <;> omega

/-- One round, where twice the error term is of 16 bits. -/
theorem lineStep_ideal (h : Small x0 y0 x1 y1) {p p' : ℕ × ℕ}
    (hfits : InInt16 (2 * (idealState x0 y0 x1 y1 p).e))
    (hx : p'.1 = if -(span y0 y1 : ℤ) ≤ 2 * (idealState x0 y0 x1 y1 p).e then p.1 + 1 else p.1)
    (hy : p'.2 = if 2 * (idealState x0 y0 x1 y1 p).e ≤ span x0 x1 then p.2 + 1 else p.2)
    (hle : p'.1 ≤ span x0 x1 ∧ p'.2 ≤ span y0 y1) :
    (∀ v ∈ roundValues (lineSetup x0 y0 x1 y1) (idealState x0 y0 x1 y1 p), InInt16 v) ∧
      lineStep (lineSetup x0 y0 x1 y1) (idealState x0 y0 x1 y1 p) = idealState x0 y0 x1 y1 p' := by
  have hxmem := between h.x0_le h.x1_le hle.1
  have hymem := between h.y0_le h.y1_le hle.2
  have hspanx := span_le h.x0_le h.x1_le
  have hspany := span_le h.y0_le h.y1_le
  have hxnext : (if -(span y0 y1 : ℤ) ≤ 2 * (idealState x0 y0 x1 y1 p).e
      then (idealState x0 y0 x1 y1 p).x + slope x0 x1 else (idealState x0 y0 x1 y1 p).x) =
      x0 + slope x0 x1 * p'.1 := by
    rw [hx]
    split_ifs
    · rw [idealState]
      push_cast
      ring
    · rfl
  have hynext : (if 2 * (idealState x0 y0 x1 y1 p).e ≤ span x0 x1
      then (idealState x0 y0 x1 y1 p).y + slope y0 y1 else (idealState x0 y0 x1 y1 p).y) =
      y0 + slope y0 y1 * p'.2 := by
    rw [hy]
    split_ifs
    · rw [idealState]
      push_cast
      ring
    · rfl
  have henext : (if 2 * (idealState x0 y0 x1 y1 p).e ≤ span x0 x1
      then (if -(span y0 y1 : ℤ) ≤ 2 * (idealState x0 y0 x1 y1 p).e
        then (idealState x0 y0 x1 y1 p).e + -span y0 y1 else (idealState x0 y0 x1 y1 p).e) +
          span x0 x1
      else if -(span y0 y1 : ℤ) ≤ 2 * (idealState x0 y0 x1 y1 p).e
        then (idealState x0 y0 x1 y1 p).e + -span y0 y1 else (idealState x0 y0 x1 y1 p).e) =
      (idealState x0 y0 x1 y1 p').e := by
    have hlast : (idealState x0 y0 x1 y1 p').e =
        span x0 x1 - span y0 y1 + (p'.2 * span x0 x1 - p'.1 * span y0 y1) := rfl
    rw [hlast, hx, hy]
    split_ifs
    · rw [idealState]
      push_cast
      ring
    · rw [idealState]
      push_cast
      ring
    · rw [idealState]
      push_cast
      ring
    · rfl
  have hvalues : ∀ v ∈ roundValues (lineSetup x0 y0 x1 y1) (idealState x0 y0 x1 y1 p),
      InInt16 v := by
    rw [lineSetup_eq h]
    simp only [roundValues, toInt16_eq hfits, List.forall_mem_cons]
    obtain ⟨hlow, hhigh⟩ := hfits
    have he : InInt16 (if -(span y0 y1 : ℤ) ≤ 2 * (idealState x0 y0 x1 y1 p).e
        then (idealState x0 y0 x1 y1 p).e + -span y0 y1 else (idealState x0 y0 x1 y1 p).e) := by
      split_ifs
      · exact ⟨by omega, by omega⟩
      · exact ⟨by omega, by omega⟩
    rw [toInt16_eq he, hxnext, hynext]
    refine ⟨⟨hlow, hhigh⟩, ⟨by omega, by omega⟩, he, ⟨by omega, by omega⟩, ?_, fun v hv =>
      absurd hv List.not_mem_nil⟩
    split_ifs
    · exact ⟨by omega, by omega⟩
    · exact ⟨by omega, by omega⟩
    · exact ⟨by omega, by omega⟩
    · exact ⟨by omega, by omega⟩
  refine ⟨hvalues, ?_⟩
  rw [lineStep_eq hvalues, lineSetup_eq h]
  dsimp only
  rw [hxnext, hynext, henext]
  rfl

/-- The error term of a line that is longer along the first axis. -/
theorem e_of_le (hxy : span y0 y1 ≤ span x0 x1) (k : ℕ) :
    idealSteps x0 y0 x1 y1 k = (k, side (span x0 x1) (span y0 y1) k) ∧
      (idealState x0 y0 x1 y1 (idealSteps x0 y0 x1 y1 k)).e =
        span x0 x1 - span y0 y1 + error (span x0 x1) (span y0 y1) k := by
  have hsteps : idealSteps x0 y0 x1 y1 k = (k, side (span x0 x1) (span y0 y1) k) := if_pos hxy
  exact ⟨hsteps, by rw [hsteps]; rfl⟩

/-- The error term of a line that is longer along the second one. -/
theorem e_of_lt (hxy : span x0 x1 < span y0 y1) (k : ℕ) :
    idealSteps x0 y0 x1 y1 k = (side (span y0 y1) (span x0 x1) k, k) ∧
      (idealState x0 y0 x1 y1 (idealSteps x0 y0 x1 y1 k)).e =
        span x0 x1 - span y0 y1 - error (span y0 y1) (span x0 x1) k := by
  have hsteps : idealSteps x0 y0 x1 y1 k = (side (span y0 y1) (span x0 x1) k, k) :=
    if_neg (Nat.not_le.mpr hxy)
  refine ⟨hsteps, ?_⟩
  rw [hsteps]
  unfold idealState error
  ring

/-- The next steps are seen at the error term. -/
theorem idealSteps_succ (hx : x0 ≠ x1) (hy : y0 ≠ y1) (k : ℕ) :
    let e := (idealState x0 y0 x1 y1 (idealSteps x0 y0 x1 y1 k)).e
    (idealSteps x0 y0 x1 y1 (k + 1)).1 =
        (if -(span y0 y1 : ℤ) ≤ 2 * e then (idealSteps x0 y0 x1 y1 k).1 + 1
          else (idealSteps x0 y0 x1 y1 k).1) ∧
      (idealSteps x0 y0 x1 y1 (k + 1)).2 =
        if 2 * e ≤ span x0 x1 then (idealSteps x0 y0 x1 y1 k).2 + 1
          else (idealSteps x0 y0 x1 y1 k).2 := by
  intro e
  have hspanx := span_pos hx
  have hspany := span_pos hy
  by_cases hxy : span y0 y1 ≤ span x0 x1
  · obtain ⟨hsteps, he⟩ := e_of_le hxy k
    obtain ⟨hlow, hhigh⟩ := error_bounds hspanx (span y0 y1) k
    have he' : e = span x0 x1 - span y0 y1 + error (span x0 x1) (span y0 y1) k := he
    rw [hsteps, (e_of_le hxy (k + 1)).1, he', if_pos (by omega), side_succ hspanx hxy]
    refine ⟨rfl, ?_⟩
    by_cases hside : 2 * (error (span x0 x1) (span y0 y1) k - span y0 y1 + span x0 x1) ≤ span x0 x1
    · rw [if_pos hside, if_pos (by omega)]
    · rw [if_neg hside, if_neg (by omega)]
  · rw [Nat.not_le] at hxy
    obtain ⟨hsteps, he⟩ := e_of_lt hxy k
    obtain ⟨hlow, hhigh⟩ := error_bounds hspany (span x0 x1) k
    have he' : e = span x0 x1 - span y0 y1 - error (span y0 y1) (span x0 x1) k := he
    rw [hsteps, (e_of_lt hxy (k + 1)).1, he', side_succ hspany hxy.le]
    refine ⟨?_, (if_pos (by omega)).symm⟩
    by_cases hside : 2 * (error (span y0 y1) (span x0 x1) k - span x0 x1 + span y0 y1) ≤ span y0 y1
    · rw [if_pos hside, if_pos (by omega)]
    · rw [if_neg hside, if_neg (by omega)]

/-- After all rounds the walk is at its end, and not before. -/
theorem idealSteps_rounds (hx : x0 ≠ x1) (hy : y0 ≠ y1) :
    idealSteps x0 y0 x1 y1 (rounds x0 y0 x1 y1) = (span x0 x1, span y0 y1) := by
  unfold rounds
  by_cases hxy : span y0 y1 ≤ span x0 x1
  · rw [max_eq_left hxy, (e_of_le hxy _).1, side_long (span_pos hx)]
  · rw [Nat.not_le] at hxy
    rw [max_eq_right hxy.le, (e_of_lt hxy _).1, side_long (span_pos hy)]

theorem idealSteps_le (hx : x0 ≠ x1) (hy : y0 ≠ y1) {k : ℕ} (hk : k ≤ rounds x0 y0 x1 y1) :
    (idealSteps x0 y0 x1 y1 k).1 ≤ span x0 x1 ∧ (idealSteps x0 y0 x1 y1 k).2 ≤ span y0 y1 := by
  unfold rounds at hk
  by_cases hxy : span y0 y1 ≤ span x0 x1
  · rw [max_eq_left hxy] at hk
    rw [(e_of_le hxy k).1]
    exact ⟨hk, side_le (span_pos hx) hk⟩
  · rw [Nat.not_le] at hxy
    rw [max_eq_right hxy.le] at hk
    rw [(e_of_lt hxy k).1]
    exact ⟨side_le (span_pos hy) hk, hk⟩

/-- Twice the error term is of 16 bits in a round. -/
def FitsAt (x0 y0 x1 y1 k : ℕ) : Prop :=
  InInt16 (2 * (idealState x0 y0 x1 y1 (idealSteps x0 y0 x1 y1 k)).e)

/-- One round of the walk. -/
theorem round_ideal (h : Small x0 y0 x1 y1) (hx : x0 ≠ x1) (hy : y0 ≠ y1) {k : ℕ}
    (hk : k < rounds x0 y0 x1 y1) (hfits : FitsAt x0 y0 x1 y1 k) :
    (∀ v ∈ roundValues (lineSetup x0 y0 x1 y1)
        (idealState x0 y0 x1 y1 (idealSteps x0 y0 x1 y1 k)), InInt16 v) ∧
      lineStep (lineSetup x0 y0 x1 y1) (idealState x0 y0 x1 y1 (idealSteps x0 y0 x1 y1 k)) =
        idealState x0 y0 x1 y1 (idealSteps x0 y0 x1 y1 (k + 1)) := by
  obtain ⟨hnextx, hnexty⟩ := idealSteps_succ hx hy k
  exact lineStep_ideal h hfits hnextx hnexty (idealSteps_le hx hy hk)

/-- The walk as far as its rounds fit. -/
theorem lineStates_eq (h : Small x0 y0 x1 y1) (hx : x0 ≠ x1) (hy : y0 ≠ y1) {k : ℕ}
    (hk : k ≤ rounds x0 y0 x1 y1) (hfits : ∀ j < k, FitsAt x0 y0 x1 y1 j) :
    lineStates x0 y0 x1 y1 k = idealState x0 y0 x1 y1 (idealSteps x0 y0 x1 y1 k) := by
  induction k with
  | zero =>
    have hzero : idealSteps x0 y0 x1 y1 0 = (0, 0) := by
      unfold idealSteps
      split_ifs
      · rw [side_zero (span_pos hx)]
      · rw [side_zero (span_pos hy)]
    rw [hzero, ← lineStart_eq h]
    rfl
  | succ k ih =>
    have hstate := ih (by omega) fun j hj => hfits j (by omega)
    rw [← (round_ideal h hx hy hk (hfits k (by omega))).2, ← hstate]
    exact Function.iterate_succ_apply' _ _ _

/-- The largest error decides. -/
theorem lineFits_iff (h : Small x0 y0 x1 y1) (hx : x0 ≠ x1) (hy : y0 ≠ y1) :
    LineFits x0 y0 x1 y1 ↔ ∀ k < rounds x0 y0 x1 y1, FitsAt x0 y0 x1 y1 k := by
  have hspanx := span_le h.x0_le h.x1_le
  have hspany := span_le h.y0_le h.y1_le
  by_cases hxy : span y0 y1 ≤ span x0 x1
  · have hfits : LineFits x0 y0 x1 y1 ↔
        2 * (span x0 x1 - span y0 y1 + maxError (span x0 x1) (span y0 y1)) ≤ 32767 := by
      unfold LineFits
      exact iff_of_eq (if_pos hxy)
    have hat : ∀ k, FitsAt x0 y0 x1 y1 k ↔
        2 * (span x0 x1 - span y0 y1 + error (span x0 x1) (span y0 y1) k) ≤ 32767 := by
      intro k
      obtain ⟨hlow, hhigh⟩ := error_bounds (span_pos hx) (span y0 y1) k
      unfold FitsAt InInt16
      rw [(e_of_le hxy k).2]
      exact and_iff_right (by omega)
    rw [hfits, rounds, max_eq_left hxy]
    constructor
    · intro hmax k _
      have hle := error_le (span_pos hx) (span y0 y1) k
      rw [hat]
      omega
    · intro hall
      obtain ⟨k, hk, herror⟩ := exists_error_eq (span_pos hx) (span y0 y1)
      have hlast := (hat k).mp (hall k hk)
      rw [herror] at hlast
      omega
  · rw [Nat.not_le] at hxy
    have hfits : LineFits x0 y0 x1 y1 ↔
        2 * (span y0 y1 - span x0 x1 + maxError (span y0 y1) (span x0 x1)) ≤ 32768 := by
      unfold LineFits
      exact iff_of_eq (if_neg (Nat.not_le.mpr hxy))
    have hat : ∀ k, FitsAt x0 y0 x1 y1 k ↔
        2 * (span y0 y1 - span x0 x1 + error (span y0 y1) (span x0 x1) k) ≤ 32768 := by
      intro k
      obtain ⟨hlow, hhigh⟩ := error_bounds (span_pos hy) (span x0 x1) k
      unfold FitsAt InInt16
      rw [(e_of_lt hxy k).2]
      constructor
      · intro hmem
        have := hmem.1
        omega
      · intro hle
        exact ⟨by omega, by omega⟩
    rw [hfits, rounds, max_eq_right hxy.le]
    constructor
    · intro hmax k _
      have hle := error_le (span_pos hy) (span x0 x1) k
      rw [hat]
      omega
    · intro hall
      obtain ⟨k, hk, herror⟩ := exists_error_eq (span_pos hy) (span x0 x1)
      have hlast := (hat k).mp (hall k hk)
      rw [herror] at hlast
      omega

theorem slope_mul_inj {a b i : ℕ} (h : (a : ℤ) + slope a b * i = b) : i = span a b := by
  unfold slope at h
  unfold span
  split_ifs at h <;> omega

theorem idealState_end (x0 y0 x1 y1 : ℕ) :
    (idealState x0 y0 x1 y1 (span x0 x1, span y0 y1)).x = x1 ∧
      (idealState x0 y0 x1 y1 (span x0 x1, span y0 y1)).y = y1 := by
  have hx := slope_mul_span x0 x1
  have hy := slope_mul_span y0 y1
  simp only [idealState]
  omega

theorem not_end_of_lt {k : ℕ} (hk : k < rounds x0 y0 x1 y1) :
    ¬ ((idealState x0 y0 x1 y1 (idealSteps x0 y0 x1 y1 k)).x = x1 ∧
      (idealState x0 y0 x1 y1 (idealSteps x0 y0 x1 y1 k)).y = y1) := by
  rintro ⟨hx, hy⟩
  have hi := slope_mul_inj hx
  have hj := slope_mul_inj hy
  unfold rounds at hk
  by_cases hxy : span y0 y1 ≤ span x0 x1
  · rw [max_eq_left hxy] at hk
    rw [(e_of_le hxy k).1] at hi
    exact hk.ne hi
  · rw [Nat.not_le] at hxy
    rw [max_eq_right hxy.le] at hk
    rw [(e_of_lt hxy k).1] at hj
    exact hk.ne hj

theorem natAbs_slope_mul (a b : ℕ) (n : ℤ) : (slope a b * n).natAbs = n.natAbs := by
  unfold slope
  split_ifs
  · rw [one_mul]
  · rw [neg_one_mul, Int.natAbs_neg]

/-- The error term in the longer direction. -/
theorem e_bounds (hx : x0 ≠ x1) (hy : y0 ≠ y1) (k : ℕ) :
    let e := (idealState x0 y0 x1 y1 (idealSteps x0 y0 x1 y1 k)).e
    (span y0 y1 ≤ span x0 x1 → -(span y0 y1 : ℤ) ≤ 2 * e) ∧
      (span x0 x1 ≤ span y0 y1 → 2 * e ≤ span x0 x1) := by
  intro e
  by_cases hxy : span y0 y1 ≤ span x0 x1
  · have he : e = span x0 x1 - span y0 y1 + error (span x0 x1) (span y0 y1) k := (e_of_le hxy k).2
    obtain ⟨hlow, hhigh⟩ := error_bounds (span_pos hx) (span y0 y1) k
    rw [he]
    exact ⟨fun _ => by omega, fun hyx => by omega⟩
  · rw [Nat.not_le] at hxy
    have he : e = span x0 x1 - span y0 y1 - error (span y0 y1) (span x0 x1) k := (e_of_lt hxy k).2
    obtain ⟨hlow, hhigh⟩ := error_bounds (span_pos hy) (span x0 x1) k
    rw [he]
    exact ⟨fun hyx => by omega, fun _ => by omega⟩

/-- Places along the walk differ by at most one step, and by one in the longer direction. -/
theorem ideal_next (hx : x0 ≠ x1) (hy : y0 ≠ y1) (k : ℕ) :
    let s := idealState x0 y0 x1 y1 (idealSteps x0 y0 x1 y1 k)
    let s' := idealState x0 y0 x1 y1 (idealSteps x0 y0 x1 y1 (k + 1))
    (s'.x - s.x).natAbs ≤ 1 ∧ (s'.y - s.y).natAbs ≤ 1 ∧
      (span y0 y1 ≤ span x0 x1 → (s'.x - s.x).natAbs = 1) ∧
      (span x0 x1 ≤ span y0 y1 → (s'.y - s.y).natAbs = 1) := by
  intro s s'
  obtain ⟨hnextx, hnexty⟩ := idealSteps_succ hx hy k
  obtain ⟨hlongx, hlongy⟩ := e_bounds hx hy k
  have hdiffx : s'.x - s.x = slope x0 x1 *
      ((idealSteps x0 y0 x1 y1 (k + 1)).1 - (idealSteps x0 y0 x1 y1 k).1) := by
    simp only [s, s', idealState]
    ring
  have hdiffy : s'.y - s.y = slope y0 y1 *
      ((idealSteps x0 y0 x1 y1 (k + 1)).2 - (idealSteps x0 y0 x1 y1 k).2) := by
    simp only [s, s', idealState]
    ring
  rw [hdiffx, hdiffy, natAbs_slope_mul, natAbs_slope_mul]
  refine ⟨?_, ?_, fun hxy => ?_, fun hyx => ?_⟩
  · rw [hnextx]
    split_ifs <;> omega
  · rw [hnexty]
    split_ifs <;> omega
  · rw [hnextx, if_pos (hlongx hxy)]
    omega
  · rw [hnexty, if_pos (hlongy hyx)]
    omega

/-- The walk is at most half a pixel beside the ideal line. -/
theorem ideal_near (hx : x0 ≠ x1) (hy : y0 ≠ y1) (k : ℕ) :
    let s := idealState x0 y0 x1 y1 (idealSteps x0 y0 x1 y1 k)
    let beside := ((s.y - y0) * (x1 - x0) - (s.x - x0) * (y1 - y0)).natAbs
    (span y0 y1 ≤ span x0 x1 → 2 * beside ≤ span x0 x1) ∧
      (span x0 x1 ≤ span y0 y1 → 2 * beside ≤ span y0 y1) := by
  intro s beside
  have hbeside : beside = (((idealSteps x0 y0 x1 y1 k).2 : ℤ) * span x0 x1 -
      (idealSteps x0 y0 x1 y1 k).1 * span y0 y1).natAbs := by
    rw [← natAbs_slope_mul x0 x1, ← natAbs_slope_mul y0 y1]
    simp only [beside, s, idealState, ← slope_mul_span]
    congr 1
    ring
  by_cases hxy : span y0 y1 ≤ span x0 x1
  · obtain ⟨hlow, hhigh⟩ := error_bounds (span_pos hx) (span y0 y1) k
    have hplace : beside = (error (span x0 x1) (span y0 y1) k).natAbs := by
      rw [hbeside, (e_of_le hxy k).1]
      rfl
    rw [hplace]
    exact ⟨fun _ => by omega, fun hyx => by omega⟩
  · rw [Nat.not_le] at hxy
    obtain ⟨hlow, hhigh⟩ := error_bounds (span_pos hy) (span x0 x1) k
    have hplace : beside = (error (span y0 y1) (span x0 x1) k).natAbs := by
      rw [hbeside, (e_of_lt hxy k).1, ← Int.natAbs_neg, neg_sub]
      rfl
    rw [hplace]
    exact ⟨fun hyx => by omega, fun _ => by omega⟩

end Ideal

/-! ## Lines that are drawn -/

theorem fillPixdata_one (d : Device π) (color : Hsv) (g : Drawing π) :
    (fillPixdata d 1 color g).buffer 0 = d.paletteConvert color := by
  have hone : min d.numPixelsInBuffer 1 = 1 := Nat.min_eq_right d.numPixelsInBuffer_pos
  simp [fillPixdata, hone, List.range_succ]

/-- The calls of a line whose loop ends after some rounds. -/
theorem qpLine_eq {d : Device π} (hd : d.Works) {x0 y0 x1 y1 n : ℕ} (hx : x0 ≠ x1) (hy : y0 ≠ y1)
    (hbefore : ∀ k < n, ¬ ((lineStates x0 y0 x1 y1 k).x = x1 ∧ (lineStates x0 y0 x1 y1 k).y = y1))
    (hend : (lineStates x0 y0 x1 y1 n).x = x1 ∧ (lineStates x0 y0 x1 y1 n).y = y1)
    (color : Hsv) (g : Drawing π) :
    qpLine d (n + 1) x0 y0 x1 y1 color g =
      (⟨(fillPixdata d 1 color g).buffer, g.calls ++ (List.range (n + 1)).flatMap fun k =>
        pixelCalls (d.paletteConvert color) (lineStates x0 y0 x1 y1 k)⟩, some true) := by
  have hloop := lineLoop_eq hd (lineSetup x0 y0 x1 y1) hbefore hend (fillPixdata d 1 color g)
  have hcalls : (fillPixdata d 1 color g).calls = g.calls := rfl
  unfold qpLine
  rw [if_neg (not_or.mpr ⟨hx, hy⟩), hd.started]
  simp only [hloop, hd.setpixelImpl, fillPixdata_one, hcalls, List.append_assoc, List.range_succ,
    List.flatMap_append, List.flatMap_singleton, Option.map_some, Bool.and_self]
  rfl

theorem start_inInt16 {x0 y0 x1 y1 : ℕ} (h : Small x0 y0 x1 y1) (hx : x0 ≠ x1) (hy : y0 ≠ y1) :
    ∀ v ∈ startValues x0 y0 x1 y1, InInt16 v := by
  have hposx := span_pos hx
  have hposy := span_pos hy
  have hspanx := span_le h.x0_le h.x1_le
  have hspany := span_le h.y0_le h.y1_le
  obtain ⟨hx0, hy0, hx1, hy1⟩ := h
  have hmem : ∀ a : ℕ, a ≤ 16384 → toInt16 a = a := fun a ha =>
    toInt16_eq ⟨by omega, by omega⟩
  have hvalues : startValues x0 y0 x1 y1 = [(x0 : ℤ), (y0 : ℤ), (span x0 x1 : ℤ),
      -(span y0 y1 : ℤ), span x0 x1 + -span y0 y1, 2 * (span x0 x1 + -span y0 y1)] := by
    unfold startValues
    rw [lineSetup_eq ⟨hx0, hy0, hx1, hy1⟩, hmem x0 hx0, hmem x1 hx1, hmem y0 hy0, hmem y1 hy1]
    dsimp only
    rw [toInt16_eq ⟨by omega, by omega⟩]
    rfl
  rw [hvalues]
  intro v hv
  simp only [List.mem_cons, List.not_mem_nil, or_false] at hv
  unfold InInt16
  omega

section Iff

variable {d : Device π} {x0 y0 x1 y1 : ℕ}

theorem drawsLine_of_fits (hd : d.Works) (h : Small x0 y0 x1 y1) (hx : x0 ≠ x1) (hy : y0 ≠ y1)
    (hfits : ∀ k < rounds x0 y0 x1 y1, FitsAt x0 y0 x1 y1 k) (color : Hsv) (g : Drawing π) :
    DrawsLine d x0 y0 x1 y1 color g (rounds x0 y0 x1 y1) := by
  have hstate : ∀ k ≤ rounds x0 y0 x1 y1,
      lineStates x0 y0 x1 y1 k = idealState x0 y0 x1 y1 (idealSteps x0 y0 x1 y1 k) :=
    fun k hk => lineStates_eq h hx hy hk fun j hj => hfits j (by omega)
  have hend := idealState_end x0 y0 x1 y1
  rw [← idealSteps_rounds hx hy, ← hstate _ (Nat.le_refl _)] at hend
  refine ⟨⟨_, qpLine_eq hd hx hy (fun k hk => ?_) hend color g⟩, start_inInt16 h hx hy,
    fun k hk => ?_, rfl, ?_, hend, fun k hk => ?_, fun k hk => ?_⟩
  · rw [hstate k hk.le]
    exact not_end_of_lt hk
  · rw [hstate k hk.le]
    exact (round_ideal h hx hy hk (hfits k hk)).1
  · rw [hstate 0 (Nat.zero_le _), ← hstate 0 (Nat.zero_le _)]
    have hstart : lineStates x0 y0 x1 y1 0 = lineStart (lineSetup x0 y0 x1 y1) x0 y0 := rfl
    rw [hstart, lineStart_eq h]
    simp [idealState]
  · rw [hstate k hk.le, hstate (k + 1) hk]
    exact ideal_next hx hy k
  · rw [hstate k hk]
    exact ideal_near hx hy k

/-- Where the values of a walk are of 16 bits up to its end, all its rounds fit. -/
theorem fits_of_drawsLine (h : Small x0 y0 x1 y1) (hx : x0 ≠ x1) (hy : y0 ≠ y1) {n : ℕ}
    {color : Hsv} {g : Drawing π} (hdraws : DrawsLine d x0 y0 x1 y1 color g n) :
    ∀ k < rounds x0 y0 x1 y1, FitsAt x0 y0 x1 y1 k := by
  have hupto : ∀ k ≤ min n (rounds x0 y0 x1 y1), ∀ j < k, FitsAt x0 y0 x1 y1 j := by
    intro k
    induction k with
    | zero => exact fun _ j hj => absurd hj (Nat.not_lt_zero j)
    | succ k ih =>
      intro hk j hj
      have hbefore := ih (by omega)
      by_cases hjk : j = k
      · subst hjk
        have hstate := lineStates_eq h hx hy (by omega) hbefore
        have hvalue := hdraws.round_mem j (by omega) _ List.mem_cons_self
        rw [hstate] at hvalue
        exact hvalue
      · exact hbefore j (by omega)
  have hle : rounds x0 y0 x1 y1 ≤ n := by
    by_contra hlt
    have hstate := lineStates_eq h hx hy (k := n) (by omega) (hupto n (by omega))
    have hlast := hdraws.last
    rw [hstate] at hlast
    exact not_end_of_lt (by omega) hlast
  exact fun k hk => hupto (rounds x0 y0 x1 y1) (by omega) k hk

/-- Exactly the lines with twice the largest error term of 16 bits are drawn. -/
theorem drawsLine_iff (hd : d.Works) (h : Small x0 y0 x1 y1) (hx : x0 ≠ x1) (hy : y0 ≠ y1)
    (color : Hsv) (g : Drawing π) :
    (∃ n, DrawsLine d x0 y0 x1 y1 color g n) ↔ LineFits x0 y0 x1 y1 := by
  rw [lineFits_iff h hx hy]
  exact ⟨fun ⟨n, hdraws⟩ => fits_of_drawsLine h hx hy hdraws,
    fun hfits => ⟨_, drawsLine_of_fits hd h hx hy hfits color g⟩⟩

end Iff

/-- A display of 24 bits whose driver never fails. -/
def someDevice : Device Hsv where
  validateOk := true
  commsStart := true
  bufferSize := 1024
  nativeBitsPerPixel := 24
  bits_pos := by decide
  bits_le := by decide
  paletteConvert := id
  ok := fun _ => true

theorem someDevice_works : someDevice.Works :=
  ⟨rfl, rfl, fun _ => rfl⟩

theorem drawsLine_short :
    ∃ n, DrawsLine someDevice 9 3 2 6 ⟨0, 255, 255⟩ ⟨fun _ => ⟨0, 0, 0⟩, []⟩ n :=
  (drawsLine_iff someDevice_works ⟨by decide, by decide, by decide, by decide⟩ (by decide)
    (by decide) ⟨0, 255, 255⟩ ⟨fun _ => ⟨0, 0, 0⟩, []⟩).mpr (by unfold LineFits; decide +kernel)

/-- The error term of the longest line that is nearly level does not fit. -/
theorem not_drawsLine_long :
    ¬ ∃ n, DrawsLine someDevice 0 0 16383 1 ⟨0, 255, 255⟩ ⟨fun _ => ⟨0, 0, 0⟩, []⟩ n := by
  have hsmall : Small 0 0 16383 1 := ⟨by decide, by decide, by decide, by decide⟩
  rintro ⟨n, hdraws⟩
  have hfits := fits_of_drawsLine hsmall (by decide) (by decide) hdraws
  rw [← lineFits_iff hsmall (by decide) (by decide)] at hfits
  exact absurd hfits (by unfold LineFits; decide +kernel)

end Painter
end VialQmk
