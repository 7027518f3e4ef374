import Mathlib.Data.Int.GCD
import Mathlib.Tactic.Ring
import Mathlib.Tactic.Linarith

/-!
# Digital lines

A line that goes {lit}`short` steps to the side on {lit}`long` steps ahead, in whole numbers:
after each step ahead it is at the nearest place to the side, halves up.  What is missing to the
ideal line is kept as a number of parts of {lit}`long`.

Main results:

- Theorem {lit}`DigitalLine.side_succ`: whether the next step goes to the side is seen at the
  error.
- Theorem {lit}`DigitalLine.error_bounds`: the error is at most one half.
- Theorem {lit}`DigitalLine.error_le`, {lit}`DigitalLine.exists_error_eq`: the largest error of a
  line.
-/

namespace DigitalLine

/-- The steps to the side after {lit}`k` steps ahead. -/
def side (long short k : ℕ) : ℕ :=
  (2 * (k * short) + long) / (2 * long)

/-- How far the line is to the side of the ideal one, in parts of {lit}`long`. -/
def error (long short k : ℕ) : ℤ :=
  side long short k * long - k * short

/-- The largest error of a line. -/
def maxError (long short : ℕ) : ℕ :=
  long.gcd short * (long / long.gcd short / 2)

variable {long short k : ℕ}

theorem error_bounds (hlong : 0 < long) (short k : ℕ) :
    -(long : ℤ) < 2 * error long short k ∧ 2 * error long short k ≤ long := by
  have hdiv := Nat.div_add_mod (2 * (k * short) + long) (2 * long)
  have hmod := Nat.mod_lt (2 * (k * short) + long) (Nat.mul_pos Nat.two_pos hlong)
  have hside : ((2 * long * side long short k + (2 * (k * short) + long) % (2 * long) : ℕ) : ℤ) =
      2 * (k * short) + long := by
    rw [side, hdiv]
    push_cast
    ring
  push_cast at hside
  have herror : 2 * error long short k =
      long - ((2 * (k * short) + long) % (2 * long) : ℕ) := by
    unfold error
    push_cast
    linarith
  rw [herror]
  omega

/-- There is just one place with so small an error. -/
theorem side_unique (hlong : 0 < long) {n : ℤ} (hlow : -(long : ℤ) < 2 * (n * long - k * short))
    (hhigh : 2 * (n * long - k * short) ≤ long) : n = side long short k := by
  obtain ⟨hlow', hhigh'⟩ := error_bounds hlong short k
  unfold error at hlow' hhigh'
  have hpos : (0 : ℤ) < long := by exact_mod_cast hlong
  have hle : n - side long short k < 1 := by
    by_contra hnot
    have hmul : (long : ℤ) ≤ (n - side long short k) * long :=
      le_mul_of_one_le_left hpos.le (by omega)
    rw [sub_mul] at hmul
    linarith
  have hge : -1 < n - side long short k := by
    by_contra hnot
    have hmul : (n - side long short k) * long ≤ -1 * long :=
      mul_le_mul_of_nonneg_right (by omega) hpos.le
    rw [sub_mul] at hmul
    linarith
  omega

@[simp]
theorem side_zero (hlong : 0 < long) (short : ℕ) : side long short 0 = 0 := by
  unfold side
  rw [Nat.zero_mul, Nat.mul_zero, Nat.zero_add]
  exact Nat.div_eq_of_lt (by omega)

theorem side_long (hlong : 0 < long) (short : ℕ) : side long short long = short := by
  have hzero : (short : ℤ) * long - (long : ℕ) * short = 0 := by ring
  have hunique := side_unique (n := short) hlong (by rw [hzero]; omega) (by rw [hzero]; omega)
  exact_mod_cast hunique.symm

theorem side_le (hlong : 0 < long) (hk : k ≤ long) : side long short k ≤ short := by
  have hmul : 2 * (k * short) + long ≤ 2 * (long * short) + long :=
    Nat.add_le_add_right (Nat.mul_le_mul_left 2 (Nat.mul_le_mul_right short hk)) long
  calc side long short k ≤ side long short long := Nat.div_le_div_right hmul
    _ = short := side_long hlong short

/-- The next step goes to the side where the error is then still at most one half. -/
theorem side_succ (hlong : 0 < long) (hshort : short ≤ long) (k : ℕ) :
    side long short (k + 1) =
      if 2 * (error long short k - short + long) ≤ long then side long short k + 1
      else side long short k := by
  obtain ⟨hlow, hhigh⟩ := error_bounds hlong short k
  have hshort' : (short : ℤ) ≤ long := by exact_mod_cast hshort
  have hshort0 : (0 : ℤ) ≤ short := Int.natCast_nonneg short
  split_ifs with hstep
  · have hnext : ((side long short k + 1 : ℤ)) * long - (k + 1 : ℕ) * short =
        error long short k - short + long := by
      unfold error
      push_cast
      ring
    have hunique := side_unique (k := k + 1) hlong (by rw [hnext]; omega)
      (by rw [hnext]; exact hstep)
    exact_mod_cast hunique.symm
  · have hnext : (side long short k : ℤ) * long - (k + 1 : ℕ) * short =
        error long short k - short := by
      unfold error
      push_cast
      ring
    have hunique := side_unique (k := k + 1) hlong (by rw [hnext]; omega)
      (by rw [hnext]; omega)
    exact_mod_cast hunique.symm

theorem gcd_dvd_error (long short k : ℕ) : ((long.gcd short : ℕ) : ℤ) ∣ error long short k :=
  Int.dvd_sub (Dvd.dvd.mul_left (Int.natCast_dvd_natCast.mpr (Nat.gcd_dvd_left long short)) _)
    (Dvd.dvd.mul_left (Int.natCast_dvd_natCast.mpr (Nat.gcd_dvd_right long short)) _)

theorem two_mul_maxError_le (long short : ℕ) : 2 * maxError long short ≤ long := by
  unfold maxError
  calc 2 * (long.gcd short * (long / long.gcd short / 2))
      = long.gcd short * (2 * (long / long.gcd short / 2)) := by ring
    _ ≤ long.gcd short * (long / long.gcd short) :=
        Nat.mul_le_mul_left _ (Nat.mul_div_le (long / long.gcd short) 2)
    _ = long := Nat.mul_div_cancel' (Nat.gcd_dvd_left long short)

/-- No error is larger. -/
theorem error_le (hlong : 0 < long) (short k : ℕ) :
    error long short k ≤ maxError long short := by
  obtain ⟨-, hhigh⟩ := error_bounds hlong short k
  obtain ⟨m, hm⟩ := gcd_dvd_error long short k
  have hgcd : (0 : ℤ) < (long.gcd short : ℕ) := by
    exact_mod_cast Nat.gcd_pos_of_pos_left short hlong
  have hquot : (long : ℤ) = (long.gcd short : ℕ) * (long / long.gcd short : ℕ) := by
    exact_mod_cast (Nat.mul_div_cancel' (Nat.gcd_dvd_left long short)).symm
  have hdouble : ((long.gcd short : ℕ) : ℤ) * (2 * m) ≤
      (long.gcd short : ℕ) * (long / long.gcd short : ℕ) := by
    rw [← hquot, mul_left_comm, ← hm]
    exact hhigh
  have hhalf : m ≤ (long / long.gcd short / 2 : ℕ) := by
    have hle := le_of_mul_le_mul_left hdouble hgcd
    omega
  rw [hm, maxError, Nat.cast_mul]
  exact mul_le_mul_of_nonneg_left hhalf hgcd.le

/-- One step of the line has the largest error: the errors of the steps are all multiples of the
greatest common divisor. -/
theorem exists_error_eq (hlong : 0 < long) (short : ℕ) :
    ∃ k < long, error long short k = maxError long short := by
  have hpos : (0 : ℤ) < long := by exact_mod_cast hlong
  have htwo : 2 * (maxError long short : ℤ) ≤ long := by
    exact_mod_cast two_mul_maxError_le long short
  obtain ⟨m, hm⟩ : ∃ m : ℕ, maxError long short = long.gcd short * m := ⟨_, rfl⟩
  have hbezout := Nat.gcd_eq_gcd_ab long short
  -- the step at which the error is the wanted one, up to whole turns
  generalize hstep : -(long.gcdB short * m) = b
  have hnonneg := Int.emod_nonneg b hpos.ne'
  have hlt := Int.emod_lt_of_pos b hpos
  obtain ⟨k, hk⟩ := Int.eq_ofNat_of_zero_le hnonneg
  have hsplit := Int.mul_ediv_add_emod b long
  have hplace : (long.gcdA short * m - short * (b / long)) * long - (k : ℤ) * short =
      maxError long short := by
    rw [hm, Nat.cast_mul, hbezout, ← hk, eq_sub_of_add_eq' hsplit, ← hstep]
    ring
  refine ⟨k, by omega, ?_⟩
  have hunique := side_unique hlong (by rw [hplace]; omega) (by rw [hplace]; exact htwo)
  rw [error, ← hunique, hplace]

end DigitalLine
