import VialQmk.Painter.DrawRound
import VialQmk.Painter.Lines

/-!
# Quantum Painter - the arithmetic of ellipses

A loop of {lit}`qp_ellipse` computes the offsets of its pixels with {lit}`delta`, which is a
polynomial of the offsets.  The polynomial says that the offsets stay below the sizes, and how
large the results of 32 bits get.  They fit exactly where the first pixel that is lower than the
top can be computed.

Main results:

- Theorem {lit}`AtEllipse.step`: one round of a loop.
- Theorem {lit}`ellipseOffsets_mem`: the offsets are at most the sizes.
- Theorem {lit}`ellipseOffsets_ne_none`, {lit}`ellipseOffsets_eq_none`: when the arithmetic
  overflows.
-/

namespace VialQmk
namespace Painter

/-! ## Results of 32 bits -/

theorem int32_eq_some {v : ℤ} (hlow : -2147483648 ≤ v) (hhigh : v ≤ 2147483647) :
    int32 v = some v :=
  if_pos ⟨hlow, hhigh⟩

theorem eq_of_int32 {v w : ℤ} (h : int32 v = some w) : w = v := by
  unfold int32 at h
  split_ifs at h
  exact (Option.some.inj h).symm

theorem int32_eq_none {v : ℤ} (h : v < -2147483648) : int32 v = none :=
  if_neg fun hv => absurd hv.1 (by omega)

/-! ## Offsets -/

/-- The offsets of the pixels of a loop of {lit}`qp_ellipse`, and whether it ends. -/
def ellipseOffsets (aa bb fa : ℤ) : ℕ → ℤ → ℤ → ℤ → Option (List (ℤ × ℤ) × Bool)
  | 0, _, _, _ => some ([], false)
  | n + 1, p, q, delta =>
    (int32 (bb * p)).bind fun left =>
    (int32 (aa * q)).bind fun right =>
    if left ≤ right then
      (ellipseStep bb fa p q delta).bind fun (q', delta) =>
      (ellipseOffsets aa bb fa n (toInt16 (p + 1)) q' delta).map fun (offsets, ends) =>
        ((p, q) :: offsets, ends)
    else some ([], true)

/-- The variables at the head of a loop, for an ellipse of some sizes. -/
structure AtEllipse (a b : ℕ) (p q delta : ℤ) : Prop where
  p_nonneg : 0 ≤ p
  q_ge : -1 ≤ q
  q_le : q ≤ b
  delta_eq : delta =
    2 * (b * b) * (p + 1) ^ 2 + a * a * (q ^ 2 + (q - 1) ^ 2) - 2 * (a * a) * (b * b)
  delta_lt : p = 0 ∧ q = b ∨ 1 ≤ p ∧ (b * b * p ≤ a * a * q → delta < b * b * (4 * p + 2))

/-- The next value of the variable that is counted down. -/
def nextOffset (q delta : ℤ) : ℤ :=
  if 0 ≤ delta then q - 1 else q

/-- {lit}`delta`, if the variable is counted down. -/
def loweredDelta (aa q delta : ℤ) : ℤ :=
  if 0 ≤ delta then delta + 4 * aa * (1 - q) else delta

/-- The next {lit}`delta` -/
def nextDelta (aa bb p q delta : ℤ) : ℤ :=
  loweredDelta aa q delta + bb * (4 * p + 6)

variable {a b : ℕ} {p q delta : ℤ}

theorem atEllipse_start (a b : ℕ) :
    AtEllipse a b 0 b (2 * (b * b) + a * a * (1 - 2 * b)) where
  p_nonneg := le_refl 0
  q_ge := by omega
  q_le := le_refl _
  delta_eq := by ring
  delta_lt := .inl ⟨rfl, rfl⟩

namespace AtEllipse

/-- Where a pixel is drawn, after the first one, the point halfway to it is in the ellipse. -/
theorem inside (h : AtEllipse a b p q delta) (hp : 1 ≤ p) (hloop : (b : ℤ) * b * p ≤ a * a * q) :
    2 * ((b : ℤ) * b) * p ^ 2 + a * a * (q ^ 2 + (q - 1) ^ 2) < 2 * (a * a) * (b * b) := by
  obtain ⟨-, -, -, hdelta, ⟨hp0, -⟩ | ⟨-, hlt⟩⟩ := h
  · omega
  · have hlt := hlt hloop
    rw [hdelta] at hlt
    nlinarith only [hlt]

/-- Where a pixel is drawn, its offsets are at most the sizes. -/
theorem le_sizes (h : AtEllipse a b p q delta) (hne : ¬ (a = 0 ∧ b = 0))
    (hloop : (b : ℤ) * b * p ≤ a * a * q) : 0 ≤ q ∧ p ≤ a ∧ (p = 0 ∨ p < a) := by
  have hp := h.p_nonneg
  have hcases := h.delta_lt
  have ha : (0 : ℤ) ≤ a := Int.natCast_nonneg a
  have hb : (0 : ℤ) ≤ b := Int.natCast_nonneg b
  have hleft : 0 ≤ (b : ℤ) * b * p := mul_nonneg (mul_nonneg hb hb) hp
  have hq : 0 ≤ q := by
    obtain ⟨-, rfl⟩ | ⟨hp1, hlt⟩ := hcases
    · exact hb
    · by_contra hneg
      rw [not_le] at hneg
      have hlt := hlt hloop
      have hright : (a : ℤ) * a * q ≤ 0 := mul_nonpos_of_nonneg_of_nonpos (mul_nonneg ha ha) hneg.le
      have hbzero : (b : ℤ) * b * p = 0 := by omega
      have hazero : (a : ℤ) * a * q = 0 := by omega
      have hb0 : (b : ℤ) = 0 := by
        rcases mul_eq_zero.mp hbzero with hbb | hp0
        · exact mul_self_eq_zero.mp hbb
        · omega
      have ha0 : (a : ℤ) = 0 := by
        rcases mul_eq_zero.mp hazero with haa | hq0
        · exact mul_self_eq_zero.mp haa
        · omega
      omega
  have hpa : p = 0 ∨ p < a := by
    by_cases hp0 : p = 0
    · exact .inl hp0
    · right
      have hinside := h.inside (by omega) hloop
      by_contra hge
      rw [not_lt] at hge
      have hsquare : (a : ℤ) * a ≤ p * p := mul_self_le_mul_self ha hge
      have hbsquare := mul_le_mul_of_nonneg_left hsquare (mul_nonneg hb hb)
      have haq : 0 ≤ (a : ℤ) * a * (q ^ 2 + (q - 1) ^ 2) :=
        mul_nonneg (mul_nonneg ha ha) (add_nonneg (sq_nonneg q) (sq_nonneg (q - 1)))
      nlinarith only [hinside, hbsquare, haq]
  exact ⟨hq, by omega, hpa⟩

/-- One round. -/
theorem step (h : AtEllipse a b p q delta) (hne : ¬ (a = 0 ∧ b = 0))
    (hloop : (b : ℤ) * b * p ≤ a * a * q) :
    AtEllipse a b (p + 1) (nextOffset q delta) (nextDelta (a * a) (b * b) p q delta) := by
  obtain ⟨hq0, -, -⟩ := h.le_sizes hne hloop
  obtain ⟨hp, -, hq, hdelta, hcases⟩ := h
  have ha : (0 : ℤ) ≤ a * a := mul_self_nonneg _
  have hb : (0 : ℤ) ≤ b * b := mul_self_nonneg _
  unfold nextDelta loweredDelta nextOffset
  by_cases hneg : 0 ≤ delta
  · simp only [if_pos hneg]
    refine ⟨by omega, by omega, by omega, by rw [hdelta]; ring, .inr ⟨by omega, fun hnext => ?_⟩⟩
    obtain ⟨rfl, rfl⟩ | ⟨-, hlt⟩ := hcases
    · rw [hdelta]
      by_cases hb0 : b = 0
      · subst hb0
        have ha0 : (a : ℤ) ≠ 0 := by omega
        have hpos : 0 < (a : ℤ) * a := by positivity
        simp only [Nat.cast_zero] at hnext
        nlinarith only [hnext, hpos]
      · have hb1 : (1 : ℤ) ≤ b := by omega
        have hbpos : 0 < (b : ℤ) * b := by positivity
        have hab : (a : ℤ) * a * 1 ≤ a * a * b := mul_le_mul_of_nonneg_left hb1 ha
        nlinarith only [hnext, hab, hbpos]
    · have hlt := hlt hloop
      by_cases hb0 : (b : ℤ) = 0
      · rw [hb0] at hlt
        omega
      · have hbpos : 0 < (b : ℤ) * b := by positivity
        nlinarith only [hnext, hlt, hbpos]
  · simp only [if_neg hneg]
    refine ⟨by omega, by omega, hq, by rw [hdelta]; ring, .inr ⟨by omega, fun _ => ?_⟩⟩
    rw [not_le] at hneg
    nlinarith only [hneg]

end AtEllipse

/-! ## Runs of a loop -/

/-- The sizes of an ellipse on a display. -/
structure Sizes (a b : ℕ) : Prop where
  a_le : a ≤ 8192
  b_le : b ≤ 8192
  pos : ¬ (a = 0 ∧ b = 0)

theorem eq_of_ellipseStep {aa bb : ℤ} {r : ℤ × ℤ} (hq : InInt16 (q - 1))
    (h : ellipseStep bb (4 * aa) p q delta = some r) :
    r = (nextOffset q delta, nextDelta aa bb p q delta) := by
  unfold ellipseStep at h
  unfold nextDelta loweredDelta nextOffset
  by_cases hneg : 0 ≤ delta
  · simp only [if_pos hneg, Option.bind_eq_bind, Option.bind_eq_some_iff, Option.some.injEq] at h ⊢
    obtain ⟨step, hstep, delta', hdelta', lowered, rfl, up, hup, next, hnext, rfl⟩ := h
    rw [eq_of_int32 hnext, eq_of_int32 hup, eq_of_int32 hdelta', eq_of_int32 hstep, toInt16_eq hq]
  · simp only [if_neg hneg, Option.bind_eq_bind, Option.bind_eq_some_iff, Option.some.injEq] at h ⊢
    obtain ⟨lowered, rfl, up, hup, next, hnext, rfl⟩ := h
    rw [eq_of_int32 hnext, eq_of_int32 hup]

/-- A round of a loop without an overflow. -/
theorem ellipseOffsets_succ (hs : Sizes a b) (h : AtEllipse a b p q delta) {n : ℕ}
    {r : List (ℤ × ℤ) × Bool}
    (hr : ellipseOffsets (a * a) (b * b) (4 * (a * a)) (n + 1) p q delta = some r) :
    (a : ℤ) * a * q < b * b * p ∧ r = ([], true) ∨
      (b : ℤ) * b * p ≤ a * a * q ∧ ∃ r',
        ellipseOffsets (a * a) (b * b) (4 * (a * a)) n (p + 1) (nextOffset q delta)
          (nextDelta (a * a) (b * b) p q delta) = some r' ∧ r = ((p, q) :: r'.1, r'.2) := by
  simp only [ellipseOffsets, Option.bind_eq_some_iff] at hr
  obtain ⟨left, hleft, right, hright, hr⟩ := hr
  rw [eq_of_int32 hleft, eq_of_int32 hright] at hr
  by_cases hloop : (b : ℤ) * b * p ≤ a * a * q
  · obtain ⟨hq0, hpa, -⟩ := h.le_sizes hs.pos hloop
    have hale := hs.a_le
    have hble := hs.b_le
    have hqle := h.q_le
    have hp0 := h.p_nonneg
    simp only [if_pos hloop, Option.bind_eq_some_iff, Option.map_eq_some_iff] at hr
    obtain ⟨next, hnext, r', hr', rfl⟩ := hr
    rw [eq_of_ellipseStep ⟨by omega, by omega⟩ hnext, toInt16_eq ⟨by omega, by omega⟩] at hr'
    exact .inr ⟨hloop, r', hr', rfl⟩
  · rw [if_neg hloop] at hr
    exact .inl ⟨by omega, (Option.some.inj hr).symm⟩

/-- The offsets are at most the sizes. -/
theorem ellipseOffsets_mem (hs : Sizes a b) {n : ℕ} {r : List (ℤ × ℤ) × Bool}
    (h : AtEllipse a b p q delta)
    (hr : ellipseOffsets (a * a) (b * b) (4 * (a * a)) n p q delta = some r) :
    ∀ o ∈ r.1, (0 ≤ o.1 ∧ o.1 ≤ a) ∧ 0 ≤ o.2 ∧ o.2 ≤ b := by
  induction n generalizing p q delta r with
  | zero =>
    obtain rfl := Option.some.inj hr
    exact fun o ho => absurd ho List.not_mem_nil
  | succ n ih =>
    obtain ⟨-, rfl⟩ | ⟨hloop, r', hr', rfl⟩ := ellipseOffsets_succ hs h hr
    · exact fun o ho => absurd ho List.not_mem_nil
    · obtain ⟨hq0, hpa, -⟩ := h.le_sizes hs.pos hloop
      exact List.forall_mem_cons.mpr
        ⟨⟨⟨h.p_nonneg, hpa⟩, hq0, h.q_le⟩, ih (r := r') (h.step hs.pos hloop) hr'⟩

/-- A loop ends. -/
theorem ellipseOffsets_ends (hs : Sizes a b) {n : ℕ} {r : List (ℤ × ℤ) × Bool}
    (h : AtEllipse a b p q delta) (hp : p ≤ a + 1) (hn : (a : ℤ) + 1 < p + n)
    (hr : ellipseOffsets (a * a) (b * b) (4 * (a * a)) n p q delta = some r) : r.2 = true := by
  induction n generalizing p q delta r with
  | zero => omega
  | succ n ih =>
    obtain ⟨-, rfl⟩ | ⟨hloop, r', hr', rfl⟩ := ellipseOffsets_succ hs h hr
    · rfl
    · obtain ⟨-, hpa, -⟩ := h.le_sizes hs.pos hloop
      exact ih (r := r') (h.step hs.pos hloop) (by omega) (by push_cast at hn; omega) hr'

/-! ## Overflows -/

/-- The first pixel that is lower than the top can be computed. -/
def FirstStepFits (a b : ℕ) : Prop :=
  4 * ((a : ℤ) * a) * (b - 1) ≤ 2147483648

theorem bound_of_wide {A B p : ℤ} (hA : 2048 < A) (hA' : A ≤ 8192) (hB : 0 ≤ B)
    (hpA : p ≤ A) (hfirst : 4 * (A * A) * (B - 1) ≤ 2147483648) :
    B * B * (4 * p + 6) + 4 * (A * A) + 2 * (B * B) ≤ 2147483647 := by
  have hB' : B ≤ 128 := by
    by_contra hlt
    nlinarith only [hlt, hfirst, hA]
  have hBB : B * B ≤ 128 * 128 := by nlinarith only [hB, hB']
  have hAA : A * A ≤ 8192 * 8192 := by nlinarith only [hA, hA']
  have hBBp : B * B * p ≤ 128 * 128 * 8192 := by
    nlinarith only [hBB, hpA, hA', mul_self_nonneg B]
  nlinarith only [hBB, hAA, hBBp]

theorem bound_of_high {A B p q : ℤ} (hB : 2048 < B) (hB' : B ≤ 8192) (hA : 0 ≤ A) (hq : q ≤ B)
    (hloop : B * B * p ≤ A * A * q) (hsecond : 4 * (B * B) * (A - 1) ≤ 2147483648) :
    B * B * (4 * p + 6) + 4 * (A * A) + 2 * (B * B) ≤ 2147483647 := by
  have hA' : A ≤ 128 := by
    by_contra hlt
    nlinarith only [hlt, hsecond, hB]
  have hAA : A * A ≤ 128 * 128 := by nlinarith only [hA, hA']
  have hBB : B * B ≤ 8192 * 8192 := by nlinarith only [hB, hB']
  have hAAq : A * A * q ≤ 128 * 128 * 8192 := by
    nlinarith only [hAA, hq, hB, hB', mul_self_nonneg A]
  nlinarith only [hBB, hAA, hAAq, hloop]

/-- Both sizes are small; the point is far from one of the axes. -/
theorem bound_of_small {A B p q : ℤ} (hA : 0 < A) (hA' : A ≤ 2048) (hB : 0 ≤ B) (hB' : B ≤ 2048)
    (hfirst : 4 * (A * A) * (B - 1) ≤ 2147483648)
    (hsecond : 4 * (B * B) * (A - 1) ≤ 2147483648) (hloop : B * B * p ≤ A * A * q)
    (hinside : 2 * (B * B) * p ^ 2 + A * A * (q ^ 2 + (q - 1) ^ 2) < 2 * (A * A) * (B * B)) :
    B * B * (4 * p + 6) + 4 * (A * A) + 2 * (B * B) ≤ 2147483647 := by
  have hAA : A * A ≤ 2048 * 2048 := by nlinarith only [hA, hA']
  have hBB : B * B ≤ 2048 * 2048 := by nlinarith only [hB, hB']
  by_cases hpA : 4 * p ≤ 3 * A
  · have hBBp : B * B * (4 * p) ≤ B * B * (3 * A) :=
      mul_le_mul_of_nonneg_left hpA (mul_self_nonneg B)
    nlinarith only [hAA, hBB, hBBp, hsecond]
  · have hqB : 4 * (q - 1) ≤ 3 * B := by
      by_contra hlt
      have hpp : 9 * (A * A) ≤ 16 * p ^ 2 := by nlinarith only [hpA, hA]
      have hqq : 9 * (B * B) ≤ 16 * (q - 1) ^ 2 := by nlinarith only [hlt, hB]
      have hqq' : (q - 1) ^ 2 ≤ q ^ 2 := by nlinarith only [hlt, hB]
      have hBpp := mul_le_mul_of_nonneg_left hpp (mul_self_nonneg B)
      have hAqq := mul_le_mul_of_nonneg_left hqq (mul_self_nonneg A)
      have hAqq' := mul_le_mul_of_nonneg_left hqq' (mul_self_nonneg A)
      nlinarith only [hBpp, hAqq, hAqq', hinside,
        mul_nonneg (mul_self_nonneg A) (mul_self_nonneg B)]
    have hAAq : A * A * (4 * (q - 1)) ≤ A * A * (3 * B) :=
      mul_le_mul_of_nonneg_left hqB (mul_self_nonneg A)
    nlinarith only [hAA, hBB, hAAq, hfirst, hloop]

/-- How large the results of a round get. -/
theorem AtEllipse.bound (h : AtEllipse a b p q delta) (hs : Sizes a b) (hfirst : FirstStepFits a b)
    (hsecond : FirstStepFits b a) (hloop : (b : ℤ) * b * p ≤ a * a * q) :
    (b : ℤ) * b * (4 * p + 6) + 4 * (a * a) + 2 * (b * b) ≤ 2147483647 := by
  obtain ⟨hq0, hpa, hcases⟩ := h.le_sizes hs.pos hloop
  have ha : (a : ℤ) ≤ 8192 := by exact_mod_cast hs.a_le
  have hb : (b : ℤ) ≤ 8192 := by exact_mod_cast hs.b_le
  have ha0 : (0 : ℤ) ≤ a := Int.natCast_nonneg a
  have hb0 : (0 : ℤ) ≤ b := Int.natCast_nonneg b
  by_cases hwide : (2048 : ℤ) < a
  · exact bound_of_wide hwide ha hb0 hpa hfirst
  · by_cases hhigh : (2048 : ℤ) < b
    · exact bound_of_high hhigh hb ha0 h.q_le hloop hsecond
    · by_cases hp : p = 0
      · have haa : (a : ℤ) * a ≤ 2048 * 2048 := by nlinarith only [ha0, hwide]
        have hbb : (b : ℤ) * b ≤ 2048 * 2048 := by nlinarith only [hb0, hhigh]
        rw [hp]
        omega
      · have hp1 : 1 ≤ p := by
          have hp0 := h.p_nonneg
          omega
        exact bound_of_small (by omega) (by omega) hb0 (by omega) hfirst hsecond hloop
          (h.inside hp1 hloop)

/-- A round does not overflow. -/
theorem ellipseStep_eq (h : AtEllipse a b p q delta) (hs : Sizes a b) (hfirst : FirstStepFits a b)
    (hsecond : FirstStepFits b a) (hloop : (b : ℤ) * b * p ≤ a * a * q)
    (hdelta : -2147483648 ≤ delta) :
    ellipseStep (b * b) (4 * (a * a)) p q delta =
        some (nextOffset q delta, nextDelta (a * a) (b * b) p q delta) ∧
      -2147483648 ≤ nextDelta (a * a) (b * b) p q delta := by
  have hbound := h.bound hs hfirst hsecond hloop
  obtain ⟨hq0, hpa, -⟩ := h.le_sizes hs.pos hloop
  obtain ⟨hp0, -, hqb, heq, hcases⟩ := h
  obtain ⟨hale, hble, -⟩ := hs
  have haa : (a : ℤ) * a ≤ 8192 * 8192 := by exact_mod_cast Nat.mul_le_mul hale hale
  have hbb : (b : ℤ) * b ≤ 8192 * 8192 := by exact_mod_cast Nat.mul_le_mul hble hble
  have haa0 : (0 : ℤ) ≤ a * a := mul_self_nonneg _
  have hbb0 : (0 : ℤ) ≤ b * b := mul_self_nonneg _
  have hbbp : 0 ≤ (b : ℤ) * b * p := mul_nonneg hbb0 hp0
  have hup : 0 ≤ (b : ℤ) * b * (4 * p + 6) := mul_nonneg hbb0 (by omega)
  by_cases hneg : 0 ≤ delta
  · have hlow : -2147483648 ≤ 4 * ((a : ℤ) * a) * (1 - q) := by
      have hmul := mul_le_mul_of_nonneg_left hqb haa0
      unfold FirstStepFits at hfirst
      linarith
    have hhigh : 4 * ((a : ℤ) * a) * (1 - q) ≤ 4 * (a * a) := by
      have hmul := mul_nonneg haa0 hq0
      linarith
    have hlowered : delta + 4 * (a * a) * (1 - q) + b * b * (4 * p + 6) ≤ 2147483647 := by
      obtain ⟨rfl, rfl⟩ | ⟨-, hlt⟩ := hcases
      · have hmul := mul_nonneg haa0 hq0
        linarith
      · have hlt := hlt hloop
        linarith
    simp only [ellipseStep, nextDelta, loweredDelta, nextOffset, if_pos hneg, Option.bind_eq_bind]
    rw [int32_eq_some hlow (by omega), Option.bind_some, int32_eq_some (by omega) (by omega),
      Option.bind_some, Option.bind_some, int32_eq_some (by omega) (by omega), Option.bind_some,
      int32_eq_some (by omega) hlowered, toInt16_eq ⟨by omega, by omega⟩]
    exact ⟨rfl, by omega⟩
  · simp only [ellipseStep, nextDelta, loweredDelta, nextOffset, if_neg hneg, Option.bind_eq_bind]
    rw [Option.bind_some, int32_eq_some (by omega) (by omega), Option.bind_some,
      int32_eq_some (by omega) (by omega)]
    exact ⟨rfl, by omega⟩

/-- No arithmetic of a loop overflows. -/
theorem ellipseOffsets_ne_none (hs : Sizes a b) (hfirst : FirstStepFits a b)
    (hsecond : FirstStepFits b a) (n : ℕ) (h : AtEllipse a b p q delta) (hp : p ≤ 1 ∨ p ≤ a)
    (hdelta : -2147483648 ≤ delta) :
    ellipseOffsets (a * a) (b * b) (4 * (a * a)) n p q delta ≠ none := by
  induction n generalizing p q delta with
  | zero => exact Option.some_ne_none _
  | succ n ih =>
    have haa : (a : ℤ) * a ≤ 8192 * 8192 := by exact_mod_cast Nat.mul_le_mul hs.a_le hs.a_le
    have hbb : (b : ℤ) * b ≤ 8192 * 8192 := by exact_mod_cast Nat.mul_le_mul hs.b_le hs.b_le
    have haa0 : (0 : ℤ) ≤ a * a := mul_self_nonneg _
    have hbb0 : (0 : ℤ) ≤ b * b := mul_self_nonneg _
    have hleft : int32 (b * b * p) = some (b * b * p) := by
      have hbbp := mul_nonneg hbb0 h.p_nonneg
      refine int32_eq_some (by omega) ?_
      obtain hp | hp := hp
      · have hmul := mul_le_mul_of_nonneg_left hp hbb0
        linarith
      · have hmul := mul_le_mul_of_nonneg_left hp hbb0
        unfold FirstStepFits at hsecond
        linarith
    have hright : int32 (a * a * q) = some (a * a * q) := by
      have hmul := mul_le_mul_of_nonneg_left h.q_le haa0
      have hmul' := mul_le_mul_of_nonneg_left h.q_ge haa0
      unfold FirstStepFits at hfirst
      exact int32_eq_some (by linarith) (by linarith)
    unfold ellipseOffsets
    rw [hleft, hright, Option.bind_some, Option.bind_some]
    split_ifs with hloop
    · obtain ⟨hstep, hnext⟩ := ellipseStep_eq h hs hfirst hsecond hloop hdelta
      obtain ⟨-, hpa, hpcases⟩ := h.le_sizes hs.pos hloop
      have hale := hs.a_le
      have hp0 := h.p_nonneg
      rw [hstep, Option.bind_some, toInt16_eq ⟨by omega, by omega⟩, Ne, Option.map_eq_none_iff]
      exact ih (h.step hs.pos hloop) (by omega) hnext
    · exact Option.some_ne_none _

/-- Where a round counts a variable down, the step of {lit}`delta` has not overflowed. -/
theorem le_of_ellipseOffsets {aa bb fa : ℤ} {n : ℕ} {r : List (ℤ × ℤ) × Bool}
    (hr : ellipseOffsets aa bb fa (n + 1) p q delta = some r) (hloop : bb * p ≤ aa * q)
    (hdelta : 0 ≤ delta) : -2147483648 ≤ fa * (1 - q) := by
  simp only [ellipseOffsets, Option.bind_eq_some_iff] at hr
  obtain ⟨left, hleft, right, hright, hr⟩ := hr
  rw [eq_of_int32 hleft, eq_of_int32 hright, if_pos hloop] at hr
  simp only [ellipseStep, if_pos hdelta, Option.bind_eq_bind, Option.bind_eq_some_iff] at hr
  obtain ⟨-, ⟨step, hstep, -⟩, -⟩ := hr
  by_contra hlt
  rw [int32_eq_none (by omega)] at hstep
  exact absurd hstep (Option.some_ne_none step).symm

/-- A pixel at the top that is not below the size would have been lowered. -/
theorem lt_of_not_lowered {A B p : ℤ} (hA : 0 ≤ A) (hB : 2 ≤ B)
    (hlt : 2 * (B * B) * p ^ 2 < A * A * (2 * B - 1)) : p < A := by
  by_contra hge
  have hsquare : A * A ≤ p * p := mul_self_le_mul_self hA (by omega)
  have hmul := mul_le_mul_of_nonneg_left hsquare (mul_self_nonneg B)
  have hBB : B * 2 ≤ B * B := mul_le_mul_of_nonneg_left hB (by omega)
  have hmul' := mul_le_mul_of_nonneg_left hBB (mul_self_nonneg A)
  nlinarith only [hlt, hmul, hmul', mul_self_nonneg A]

/-- A loop does not end at the top. -/
theorem le_of_not_lowered {A B p : ℤ} (hB : 0 ≤ B)
    (hlt : p = 0 ∨ 1 ≤ p ∧ 2 * (B * B) * p ^ 2 < A * A * (2 * B - 1)) :
    B * B * p ≤ A * A * B := by
  have hAAB := mul_nonneg (mul_self_nonneg A) hB
  obtain rfl | ⟨hp, hlt⟩ := hlt
  · rw [mul_zero]
    exact hAAB
  · by_contra hgt
    nlinarith only [hlt, hgt, hp, hAAB, mul_self_nonneg A]

/-- The first step to a lower pixel overflows if it does not fit. -/
theorem ellipseOffsets_eq_none (hs : Sizes a b) (hfirst : ¬ FirstStepFits a b) (n : ℕ)
    (h : AtEllipse a b p b delta)
    (hbefore : p = 0 ∨ 1 ≤ p ∧ 2 * ((b : ℤ) * b) * p ^ 2 < a * a * (2 * b - 1))
    (hn : (a : ℤ) ≤ p + n) :
    ellipseOffsets (a * a) (b * b) (4 * (a * a)) n p b delta = none := by
  have ha0 : (0 : ℤ) ≤ a := Int.natCast_nonneg a
  have hb0 : (0 : ℤ) ≤ b := Int.natCast_nonneg b
  unfold FirstStepFits at hfirst
  have ha : (1 : ℤ) ≤ a := by
    by_contra hlt
    obtain rfl : a = 0 := by omega
    simp at hfirst
  have hb : (2 : ℤ) ≤ b := by
    by_contra hlt
    have hmul := mul_nonneg (mul_self_nonneg (a : ℤ)) (show (0 : ℤ) ≤ 1 - b by omega)
    linarith
  induction n generalizing p delta with
  | zero =>
    obtain rfl | ⟨-, hlt⟩ := hbefore
    · omega
    · have hp := lt_of_not_lowered ha0 hb hlt
      omega
  | succ n ih =>
    have hloop := le_of_not_lowered hb0 hbefore
    rw [Option.eq_none_iff_forall_ne_some]
    intro r hr
    have hlower : ¬ 0 ≤ delta := by
      intro hdelta
      have hle := le_of_ellipseOffsets hr hloop hdelta
      linarith
    obtain ⟨hend, -⟩ | ⟨-, r', hr', -⟩ := ellipseOffsets_succ hs h hr
    · omega
    · have hnext := h.step hs.pos hloop
      have hq : nextOffset b delta = b := if_neg hlower
      rw [hq] at hnext hr'
      have hlt : 2 * ((b : ℤ) * b) * (p + 1) ^ 2 < a * a * (2 * b - 1) := by
        have hdelta := h.delta_eq
        linarith
      have hp := h.p_nonneg
      rw [ih hnext (.inr ⟨by omega, hlt⟩) (by push_cast at hn; omega)] at hr'
      exact absurd hr' (Option.some_ne_none r').symm

end Painter
end VialQmk
