import Mathlib.Data.Nat.Basic
import Mathlib.Order.Basic
import Mathlib.Tactic.Common

/-!
# Time stamps of 16 bits

A timer of 16 bits starts again after 65536 ms.  A stamp holds its value when it was set, and 0
if it was not; beside it stands the time it was set at.  The time that has elapsed since a
stamp is known up to whole periods, and one that was not set counts from time 0.

Main results:

- Definition {lit}`Stamp.InTime`: when a stamp does not look fresh though it is not.
- Theorem {lit}`Stamp.elapsed_eq`: the time that has elapsed, up to whole periods.
- Theorem {lit}`Stamp.lt_elapsed_iff`: a stamp that is older than a limit looks so just if it is
  in time.
-/

/-- A stamp with the time it was set at, if it was. -/
structure Stamp where
  value : UInt16
  since : Option ℕ
  value_eq : value = UInt16.ofNat (since.getD 0)

namespace Stamp

/-- A stamp that is not set. -/
def clear : Stamp :=
  ⟨0, none, rfl⟩

/-- A stamp that is set at a time. -/
def set (now : ℕ) : Stamp :=
  ⟨UInt16.ofNat now, some now, rfl⟩

/-- What the timer says about the time since a stamp. -/
def elapsed (t : Stamp) (now : ℕ) : ℕ :=
  (UInt16.ofNat now - t.value).toNat

/-- The stamp was set before. -/
def Before (t : Stamp) (now : ℕ) : Prop :=
  ∀ time ∈ t.since, time ≤ now

/-- A stamp that is not set is in time if the limit has passed in this period of the timer; one
that is set if less than a period has passed since then, or the limit in the last one. -/
def InTime (t : Stamp) (limit now : ℕ) : Prop :=
  match t.since with
  | none => limit < now % 65536
  | some time => now - time < 65536 ∨ limit < (now - time) % 65536

variable {t : Stamp} {limit now later : ℕ}

instance : (t : Stamp) → Decidable (t.InTime limit now)
  | ⟨_, none, _⟩ => inferInstanceAs (Decidable (limit < now % 65536))
  | ⟨_, some time, _⟩ =>
    inferInstanceAs (Decidable (now - time < 65536 ∨ limit < (now - time) % 65536))

theorem before_clear (now : ℕ) : clear.Before now :=
  fun time htime => absurd htime (by simp [clear])

theorem before_set (h : now ≤ later) : (set now).Before later := by
  intro time htime
  obtain rfl : now = time := Option.some.inj htime
  exact h

theorem Before.mono (h : t.Before now) (hle : now ≤ later) : t.Before later :=
  fun time htime => Nat.le_trans (h time htime) hle

/-- The time that has elapsed, up to whole periods. -/
theorem elapsed_eq (h : t.Before now) : t.elapsed now = (now - t.since.getD 0) % 65536 := by
  have hle : t.since.getD 0 ≤ now := by
    cases hsince : t.since with
    | none => exact Nat.zero_le now
    | some time => exact h time hsince
  have hperiod : (UInt16.ofNat now - UInt16.ofNat (t.since.getD 0)).toNat =
      (65536 - t.since.getD 0 % 65536 + now % 65536) % 65536 := rfl
  unfold elapsed
  rw [t.value_eq, hperiod]
  omega

/-- A stamp that is older than a limit looks so just if it is in time. -/
theorem lt_elapsed_iff (h : t.Before now) (hlate : ∀ time ∈ t.since, limit < now - time) :
    limit < t.elapsed now ↔ t.InTime limit now := by
  rw [elapsed_eq h]
  unfold InTime
  cases hsince : t.since with
  | none => exact Iff.rfl
  | some time =>
    have hold := hlate time hsince
    dsimp only [Option.getD_some]
    omega

end Stamp
