import VialQmk.Painter.Lines

/-!
# Quantum Painter - lines that are lost

When twice the error term does not fit in 16 bits, the walk of {lit}`qp_line` has turned away from
its line.  From then on the error term is wrong by whole turns, and it never comes back: the walk
leaves the rectangle of its two ends.

Main results:

- Theorem {lit}`Lost.step`: one round of a walk that is lost.
- Theorem {lit}`exists_outside`: a line whose error term does not fit leaves the rectangle.
-/

namespace VialQmk
namespace Painter

open DigitalLine

theorem toInt16_spec (v : ℤ) :
    (∃ w : ℤ, toInt16 v = v + 65536 * w) ∧ -32768 ≤ toInt16 v ∧ toInt16 v ≤ 32767 := by
  have hlow := Int.le_bmod (x := v) (m := 65536) (by decide)
  have hhigh := Int.bmod_lt (x := v) (m := 65536) (by decide)
  have hdvd := Int.dvd_bmod_sub_self (x := v) (m := 65536)
  unfold toInt16
  obtain ⟨w, hw⟩ := hdvd
  push_cast at hw
  exact ⟨⟨w, by omega⟩, by omega, by omega⟩

section Walk

variable {x0 y0 x1 y1 : ℕ} {s : LineState} {i j : ℕ} {v : ℤ}

/-- The walk is at its end. -/
def AtEnd (x1 y1 : ℕ) (s : LineState) : Prop :=
  s.x = x1 ∧ s.y = y1

/-- The pixel is in the rectangle of the two ends. -/
def InBox (x0 y0 x1 y1 : ℕ) (s : LineState) : Prop :=
  (min x0 x1 ≤ toUint16 s.x ∧ toUint16 s.x ≤ max x0 x1) ∧
    min y0 y1 ≤ toUint16 s.y ∧ toUint16 s.y ≤ max y0 y1

/-- The walk after some steps along each axis; the error term is {lit}`v`, but for whole turns. -/
structure Walk (x0 y0 x1 y1 : ℕ) (s : LineState) (i j : ℕ) (v : ℤ) : Prop where
  x_eq : s.x = x0 + slope x0 x1 * i
  y_eq : s.y = y0 + slope y0 y1 * j
  v_eq : v = span x0 x1 - span y0 y1 + (j * span x0 x1 - i * span y0 y1)
  e_eq : ∃ w : ℤ, s.e = v + 65536 * w

/-- Twice the error term does not fit, on the side of the longer axis. -/
def Lost (x0 y0 x1 y1 : ℕ) (v : ℤ) : Prop :=
  if span y0 y1 ≤ span x0 x1 then 32768 ≤ 2 * v else 2 * v ≤ -32769

theorem slope_cases (a b : ℕ) : slope a b = 1 ∨ slope a b = -1 := by
  unfold slope
  split_ifs
  · exact .inl rfl
  · exact .inr rfl

/-- One round of a walk that is lost. -/
theorem Lost.step (h : Small x0 y0 x1 y1) (hwalk : Walk x0 y0 x1 y1 s i j v)
    (hlost : Lost x0 y0 x1 y1 v) (hi : i ≤ span x0 x1) (hj : j ≤ span y0 y1) :
    ∃ i' j' v', Walk x0 y0 x1 y1 (lineStep (lineSetup x0 y0 x1 y1) s) i' j' v' ∧
      Lost x0 y0 x1 y1 v' ∧ i' ≤ i + 1 ∧ j' ≤ j + 1 ∧ i + j < i' + j' := by
  obtain ⟨hx, hy, hv, w, he⟩ := hwalk
  have hspanx := span_le h.x0_le h.x1_le
  have hspany := span_le h.y0_le h.y1_le
  have hbetweenx := between h.x0_le h.x1_le hi
  have hbetweeny := between h.y0_le h.y1_le hj
  have hx16 : toInt16 (s.x + slope x0 x1) = s.x + slope x0 x1 := by
    rcases slope_cases x0 x1 with hslope | hslope <;> rw [hslope] at hx hbetweenx ⊢ <;>
      exact toInt16_eq ⟨by omega, by omega⟩
  have hy16 : toInt16 (s.y + slope y0 y1) = s.y + slope y0 y1 := by
    rcases slope_cases y0 y1 with hslope | hslope <;> rw [hslope] at hy hbetweeny ⊢ <;>
      exact toInt16_eq ⟨by omega, by omega⟩
  obtain ⟨⟨w2, he2⟩, hlow, hhigh⟩ := toInt16_spec (2 * s.e)
  rw [lineSetup_eq h]
  unfold lineStep
  unfold Lost at hlost ⊢
  generalize toInt16 (2 * s.e) = e2 at he2 hlow hhigh
  by_cases hstepx : -(span y0 y1 : ℤ) ≤ e2
  · obtain ⟨⟨w3, he3⟩, -, -⟩ := toInt16_spec (s.e + -(span y0 y1 : ℤ))
    by_cases hstepy : e2 ≤ span x0 x1
    · obtain ⟨⟨w4, he4⟩, -, -⟩ := toInt16_spec (toInt16 (s.e + -(span y0 y1 : ℤ)) + span x0 x1)
      refine ⟨i + 1, j + 1, v - span y0 y1 + span x0 x1, ?_, ?_, le_refl _, le_refl _, by omega⟩
      · simp only [if_pos hstepx, if_pos hstepy, hx16, hy16]
        refine ⟨?_, ?_, ?_, w + w3 + w4, ?_⟩
        · rw [hx]
          push_cast
          ring
        · rw [hy]
          push_cast
          ring
        · rw [hv]
          push_cast
          ring
        · dsimp only
          omega
      · split_ifs at hlost ⊢ <;> omega
    · refine ⟨i + 1, j, v - span y0 y1, ?_, ?_, le_refl _, by omega, by omega⟩
      · simp only [if_pos hstepx, if_neg hstepy, hx16]
        refine ⟨?_, hy, ?_, w + w3, ?_⟩
        · rw [hx]
          push_cast
          ring
        · rw [hv]
          push_cast
          ring
        · dsimp only
          omega
      · split_ifs at hlost ⊢ <;> omega
  · have hstepy : e2 ≤ span x0 x1 := by omega
    obtain ⟨⟨w3, he3⟩, -, -⟩ := toInt16_spec (s.e + span x0 x1)
    refine ⟨i, j + 1, v + span x0 x1, ?_, ?_, by omega, le_refl _, by omega⟩
    · simp only [if_neg hstepx, if_pos hstepy, hy16]
      refine ⟨hx, ?_, ?_, w + w3, ?_⟩
      · rw [hy]
        push_cast
        ring
      · rw [hv]
        push_cast
        ring
      · dsimp only
        omega
    · split_ifs at hlost ⊢ <;> omega

end Walk

section Outside

variable {x0 y0 x1 y1 : ℕ} {s : LineState} {i j : ℕ} {v : ℤ}

/-- A walk that is lost is not at its end. -/
theorem Lost.not_atEnd (h : Small x0 y0 x1 y1) (hx : x0 ≠ x1) (hy : y0 ≠ y1)
    (hwalk : Walk x0 y0 x1 y1 s i j v) (hlost : Lost x0 y0 x1 y1 v) : ¬ AtEnd x1 y1 s := by
  rintro ⟨hxend, hyend⟩
  have hspanx := span_le h.x0_le h.x1_le
  have hspany := span_le h.y0_le h.y1_le
  have hposx := span_pos hx
  have hposy := span_pos hy
  obtain rfl := slope_mul_inj (hwalk.x_eq.symm.trans hxend)
  obtain rfl := slope_mul_inj (hwalk.y_eq.symm.trans hyend)
  have hv := hwalk.v_eq
  rw [mul_comm (span y0 y1 : ℤ), sub_self, add_zero] at hv
  unfold Lost at hlost
  split_ifs at hlost <;> omega

/-- One step beyond an end is outside of the rectangle. -/
theorem outside_of_beyond {a b i : ℕ} (ha : a ≤ 16384) (hb : b ≤ 16384) (hi : i = span a b + 1) :
    ¬ (min a b ≤ toUint16 (a + slope a b * i) ∧ toUint16 (a + slope a b * i) ≤ max a b) := by
  unfold span at hi
  unfold toUint16 slope
  split_ifs <;> omega

/-- A walk that is lost leaves the rectangle. -/
theorem Lost.outside (h : Small x0 y0 x1 y1) (hx : x0 ≠ x1) (hy : y0 ≠ y1) (n : ℕ)
    (hwalk : Walk x0 y0 x1 y1 s i j v) (hlost : Lost x0 y0 x1 y1 v) (hi : i ≤ span x0 x1)
    (hj : j ≤ span y0 y1) (hn : span x0 x1 + span y0 y1 < n + (i + j)) :
    ∃ m, (∀ k < m, ¬ AtEnd x1 y1 ((lineStep (lineSetup x0 y0 x1 y1))^[k] s)) ∧
      ¬ InBox x0 y0 x1 y1 ((lineStep (lineSetup x0 y0 x1 y1))^[m] s) := by
  induction n generalizing s i j v with
  | zero => omega
  | succ n ih =>
    have hnot := hlost.not_atEnd h hx hy hwalk
    obtain ⟨i', j', v', hwalk', hlost', hi', hj', hmore⟩ := hlost.step h hwalk hi hj
    by_cases hinside : i' ≤ span x0 x1 ∧ j' ≤ span y0 y1
    · obtain ⟨m, hbefore, houtside⟩ := ih hwalk' hlost' hinside.1 hinside.2 (by omega)
      refine ⟨m + 1, fun k hk => ?_, ?_⟩
      · cases k with
        | zero =>
          rw [Function.iterate_zero, id]
          exact hnot
        | succ k =>
          rw [Function.iterate_succ_apply]
          exact hbefore k (Nat.lt_of_succ_lt_succ hk)
      · rw [Function.iterate_succ_apply]
        exact houtside
    · refine ⟨1, fun k hk => ?_, fun hbox => ?_⟩
      · rw [Nat.lt_one_iff.mp hk, Function.iterate_zero, id]
        exact hnot
      · obtain ⟨hboxx, hboxy⟩ := hbox
        rw [Function.iterate_one, hwalk'.x_eq] at hboxx
        rw [Function.iterate_one, hwalk'.y_eq] at hboxy
        by_cases hbeyond : span x0 x1 < i'
        · exact outside_of_beyond h.x0_le h.x1_le (by omega) hboxx
        · exact outside_of_beyond h.y0_le h.y1_le (by omega) hboxy

/-- A line whose error term does not fit leaves the rectangle of its ends. -/
theorem exists_outside (h : Small x0 y0 x1 y1) (hx : x0 ≠ x1) (hy : y0 ≠ y1)
    (hfits : ¬ LineFits x0 y0 x1 y1) :
    ∃ m, (∀ k < m, ¬ AtEnd x1 y1 (lineStates x0 y0 x1 y1 k)) ∧
      ¬ InBox x0 y0 x1 y1 (lineStates x0 y0 x1 y1 m) := by
  have hexists : ∃ k, k < rounds x0 y0 x1 y1 ∧ ¬ FitsAt x0 y0 x1 y1 k := by
    rw [lineFits_iff h hx hy] at hfits
    push Not at hfits
    exact hfits
  classical
  -- the first round in which it does not fit
  obtain ⟨hk, hover⟩ := Nat.find_spec hexists
  have hfirst : ∀ j < Nat.find hexists, FitsAt x0 y0 x1 y1 j := fun j hj => by
    by_contra hnot
    exact Nat.find_min hexists hj ⟨by omega, hnot⟩
  generalize Nat.find hexists = first at hk hover hfirst
  have hstate : ∀ k ≤ first,
      lineStates x0 y0 x1 y1 k = idealState x0 y0 x1 y1 (idealSteps x0 y0 x1 y1 k) :=
    fun k hk' => lineStates_eq h hx hy (by omega) fun j hj => hfirst j (by omega)
  obtain ⟨hi, hj⟩ := idealSteps_le hx hy hk.le
  have hwalk : Walk x0 y0 x1 y1 (lineStates x0 y0 x1 y1 first)
      (idealSteps x0 y0 x1 y1 first).1 (idealSteps x0 y0 x1 y1 first).2
      (idealState x0 y0 x1 y1 (idealSteps x0 y0 x1 y1 first)).e := by
    rw [hstate first le_rfl]
    exact ⟨rfl, rfl, rfl, 0, by omega⟩
  have hlost : Lost x0 y0 x1 y1 (idealState x0 y0 x1 y1 (idealSteps x0 y0 x1 y1 first)).e := by
    have hspanx := span_le h.x0_le h.x1_le
    have hspany := span_le h.y0_le h.y1_le
    unfold FitsAt InInt16 at hover
    unfold Lost
    by_cases hxy : span y0 y1 ≤ span x0 x1
    · obtain ⟨hlow, hhigh⟩ := error_bounds (span_pos hx) (span y0 y1) first
      rw [if_pos hxy]
      rw [(e_of_le hxy first).2] at hover ⊢
      omega
    · rw [Nat.not_le] at hxy
      obtain ⟨hlow, hhigh⟩ := error_bounds (span_pos hy) (span x0 x1) first
      rw [if_neg (Nat.not_le.mpr hxy)]
      rw [(e_of_lt hxy first).2] at hover ⊢
      omega
  obtain ⟨m, hbefore, houtside⟩ := hlost.outside h hx hy (span x0 x1 + span y0 y1 + 1) hwalk hi hj
    (by omega)
  have hiterate : ∀ k, (lineStep (lineSetup x0 y0 x1 y1))^[k] (lineStates x0 y0 x1 y1 first) =
      lineStates x0 y0 x1 y1 (k + first) := fun k => (Function.iterate_add_apply _ k first _).symm
  refine ⟨m + first, fun k hk' => ?_, ?_⟩
  · by_cases hlt : k < first
    · rw [hstate k hlt.le]
      exact not_end_of_lt (by omega)
    · have hnot := hbefore (k - first) (by omega)
      rw [hiterate, Nat.sub_add_cancel (by omega)] at hnot
      exact hnot
  · rw [← hiterate]
    exact houtside

end Outside

end Painter
end VialQmk
