import Mathlib.Tactic.Common

/-!
# Bounded while loops

A C loop `while (cond) body` is iterated a bounded number of times.  Once the
condition is false the state no longer changes, so every bound that is large
enough gives the same result, and a measure that falls with each round supplies
such a bound.

Main results:

- Theorem {lit}`BoundedLoop.run_invariant`: an invariant of the body holds after
  any number of rounds.
- Theorem {lit}`BoundedLoop.run_done`: a falling measure bounds the number of
  rounds, that is, the loop terminates.
- Theorem {lit}`BoundedLoop.run_eq_of_done`: a bound at which the condition is
  false gives the result of every larger bound.
-/

namespace BoundedLoop

variable {σ : Type*} {cond : σ → Bool} {body : σ → σ}

/-- At most {lit}`n` rounds of `while (cond) body`. -/
def run (cond : σ → Bool) (body : σ → σ) : Nat → σ → σ
  | 0, s => s
  | n + 1, s => if cond s then run cond body n (body s) else s

@[simp]
theorem run_zero (s : σ) : run cond body 0 s = s :=
  rfl

/-- One round, when the condition holds. -/
theorem run_succ_of_true {s : σ} (h : cond s = true) (n : Nat) :
    run cond body (n + 1) s = run cond body n (body s) := by
  simp [run, h]

/-- A loop whose condition is false does nothing. -/
theorem run_of_false {s : σ} (h : cond s = false) (n : Nat) :
    run cond body n s = s := by
  cases n with
  | zero => rfl
  | succ n => simp [run, h]

/-- Rounds compose. -/
theorem run_add (m n : Nat) (s : σ) :
    run cond body (m + n) s = run cond body n (run cond body m s) := by
  induction m generalizing s with
  | zero => simp
  | succ m ih =>
    by_cases h : cond s = true
    · rw [Nat.succ_add, run_succ_of_true h, run_succ_of_true h, ih]
    · have h' : cond s = false := by simpa using h
      rw [run_of_false h', run_of_false h', run_of_false h']

/-- Once the condition is false after {lit}`m` rounds, more rounds change nothing. -/
theorem run_eq_of_done {m n : Nat} {s : σ} (hmn : m ≤ n)
    (hdone : cond (run cond body m s) = false) :
    run cond body n s = run cond body m s := by
  obtain ⟨k, rfl⟩ := Nat.exists_eq_add_of_le hmn
  rw [run_add, run_of_false hdone]

/-- An invariant of the body is an invariant of the loop. -/
theorem run_invariant (Inv : σ → Prop)
    (hstep : ∀ s, Inv s → cond s = true → Inv (body s)) (n : Nat) {s : σ} (h : Inv s) :
    Inv (run cond body n s) := by
  induction n generalizing s with
  | zero => exact h
  | succ n ih =>
    by_cases hc : cond s = true
    · rw [run_succ_of_true hc]
      exact ih (hstep s h hc)
    · rw [run_of_false (by simpa using hc)]
      exact h

/-- A measure that falls with every round bounds the number of rounds. -/
theorem run_done (Inv : σ → Prop) (μ : σ → Nat)
    (hstep : ∀ s, Inv s → cond s = true → Inv (body s) ∧ μ (body s) < μ s)
    {n : Nat} {s : σ} (h : Inv s) (hn : μ s ≤ n) :
    cond (run cond body n s) = false := by
  induction n generalizing s with
  | zero =>
    by_contra hc
    have := (hstep s h (by simpa using hc)).2
    omega
  | succ n ih =>
    by_cases hc : cond s = true
    · have hs := hstep s h hc
      rw [run_succ_of_true hc]
      exact ih hs.1 (by omega)
    · rw [run_of_false (by simpa using hc)]
      simpa using hc

end BoundedLoop
