import Mathlib.Algebra.Group.Nat.Defs
import Mathlib.Data.List.Basic
import Mathlib.Tactic.Common

/-!
# Little-endian numbers

A number in some bytes, the lowest one first.

Main results:

- Definition {lit}`LittleEndian.bytes`, {lit}`LittleEndian.value`: the two ways.
- Theorem {lit}`LittleEndian.value_bytes`: what is read back of a number that fits.
- Theorem {lit}`LittleEndian.field_skip`, {lit}`LittleEndian.field_first`: what is read back
  between other bytes.
-/

namespace LittleEndian

/-- The lowest {lit}`k` bytes of a number. -/
def bytes : ℕ → ℕ → List UInt8
  | 0, _ => []
  | k + 1, n => n.toUInt8 :: bytes k (n / 256)

/-- The number some bytes stand for. -/
def value : List UInt8 → ℕ
  | [] => 0
  | c :: cs => c.toNat + 256 * value cs

/-- The lowest byte again. -/
theorem and_low_byte (n : ℕ) : n % 256 &&& 255 = n % 256 := by
  have hmask : n % 256 &&& 255 = n % 256 % 256 := Nat.and_two_pow_sub_one_eq_mod _ 8
  rw [hmask, Nat.mod_mod]

@[simp]
theorem length_bytes (k n : ℕ) : (bytes k n).length = k := by
  induction k generalizing n with
  | zero => rfl
  | succ k ih => rw [bytes, List.length_cons, ih]

theorem value_bytes_mod (k n : ℕ) : value (bytes k n) = n % 256 ^ k := by
  induction k generalizing n with
  | zero => rw [Nat.pow_zero, Nat.mod_one]; rfl
  | succ k ih =>
    have hmod : n % 256 ^ (k + 1) = n % 256 + 256 * (n / 256 % 256 ^ k) := by
      rw [Nat.pow_succ', Nat.mod_mul]
    rw [bytes, value, ih, hmod]
    rfl

/-- What is read back of a number that fits. -/
theorem value_bytes {k n : ℕ} (hn : n < 256 ^ k) : value (bytes k n) = n := by
  rw [value_bytes_mod, Nat.mod_eq_of_lt hn]

theorem value_lt (cs : List UInt8) : value cs < 256 ^ cs.length := by
  induction cs with
  | nil => exact Nat.one_pos
  | cons c cs ih =>
    have hc : c.toNat < 256 := c.toNat_lt
    have hcalc : c.toNat + 256 * value cs + 1 ≤ 256 * 256 ^ cs.length := by
      have hmul : 256 * (value cs + 1) ≤ 256 * 256 ^ cs.length := Nat.mul_le_mul_left 256 ih
      omega
    rw [value, List.length_cons, Nat.pow_succ']
    exact hcalc

/-- The bytes of the number that some bytes stand for. -/
theorem bytes_value (cs : List UInt8) : bytes cs.length (value cs) = cs := by
  induction cs with
  | nil => rfl
  | cons c cs ih =>
    have hc : c.toNat < 256 := c.toNat_lt
    have hlow : (c.toNat + 256 * value cs).toUInt8 = c := by
      apply UInt8.toNat_inj.mp
      rw [Nat.toUInt8, UInt8.toNat_ofNat']
      omega
    have hhigh : (c.toNat + 256 * value cs) / 256 = value cs := by omega
    rw [value, List.length_cons, bytes, hlow, hhigh, ih]

/-- The number in the {lit}`k` bytes at an offset. -/
def field (offset k : ℕ) (cs : List UInt8) : ℕ :=
  value ((cs.drop offset).take k)

/-- Bytes that come before do not matter. -/
theorem field_skip {offset : ℕ} {before : List UInt8} (rest : ℕ)
    (h : before.length + rest = offset) (k : ℕ) (after : List UInt8) :
    field offset k (before ++ after) = field rest k after := by
  rw [field, field, ← h, ← List.drop_drop, List.drop_left]

/-- What is read back where it starts. -/
theorem field_first {k n : ℕ} (hn : n < 256 ^ k) (after : List UInt8) :
    field 0 k (bytes k n ++ after) = n := by
  rw [field, List.drop_zero, List.take_left' (length_bytes k n), value_bytes hn]

theorem field_last {k n : ℕ} (hn : n < 256 ^ k) : field 0 k (bytes k n) = n := by
  rw [← List.append_nil (bytes k n), field_first hn]

end LittleEndian
