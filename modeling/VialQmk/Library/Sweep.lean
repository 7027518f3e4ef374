import Mathlib.Data.List.FinRange
import Mathlib.Data.List.Nodup
import Mathlib.Tactic.Common

/-!
# Loops over the places of a table

A loop visits each place once, and its body reads and changes what is at that place only.  A
flag may be raised on the way.  After the loop each place is as its own round has left it, and
the flag is up if one of the rounds has raised it.

Main results:

- Theorem {lit}`Sweep.get_foldl`: what is at a place after the loop.
- Theorem {lit}`Sweep.flag_foldl`: a flag after the loop.
- Theorem {lit}`Sweep.mem_pairs`, {lit}`Sweep.nodup_pairs`: two loops, one inside the other,
  visit each pair once.
-/

namespace Sweep

variable {ι κ σ α : Type*} {body : σ → ι → σ} {get : ι → σ → α}

/-- The rounds for other places leave a place alone. -/
theorem get_foldl_of_not_mem (hother : ∀ s i j, j ≠ i → get i (body s j) = get i s) {is : List ι}
    {i : ι} (hi : i ∉ is) (s : σ) : get i (is.foldl body s) = get i s := by
  induction is generalizing s with
  | nil => rfl
  | cons j is ih =>
    rw [List.mem_cons, not_or] at hi
    rw [List.foldl_cons, ih hi.2, hother s i j (Ne.symm hi.1)]

/-- Each place is as its own round has left it. -/
theorem get_foldl {f : ι → α → α} (hself : ∀ s i, get i (body s i) = f i (get i s))
    (hother : ∀ s i j, j ≠ i → get i (body s j) = get i s) {is : List ι} (hnodup : is.Nodup)
    {i : ι} (hi : i ∈ is) (s : σ) : get i (is.foldl body s) = f i (get i s) := by
  induction is generalizing s with
  | nil => exact absurd hi List.not_mem_nil
  | cons j is ih =>
    rw [List.nodup_cons] at hnodup
    rw [List.foldl_cons]
    rcases List.mem_cons.mp hi with rfl | hmem
    · rw [get_foldl_of_not_mem hother hnodup.1, hself]
    · have hne : j ≠ i := by
        rintro rfl
        exact hnodup.1 hmem
      rw [ih hnodup.2 hmem, hother s i j hne]

/-- What no round changes. -/
theorem keep_foldl (keep : σ → α) (h : ∀ s i, keep (body s i) = keep s) (is : List ι) (s : σ) :
    keep (is.foldl body s) = keep s := by
  induction is generalizing s with
  | nil => rfl
  | cons i is ih => rw [List.foldl_cons, ih, h]

/-- A flag is up after the loop if it was up before, or one of the rounds raises it. -/
theorem flag_foldl (flag : σ → Prop) (raises : ι → α → Prop)
    (hother : ∀ s i j, j ≠ i → get i (body s j) = get i s)
    (hflag : ∀ s i, flag (body s i) ↔ flag s ∨ raises i (get i s)) {is : List ι}
    (hnodup : is.Nodup) (s : σ) :
    flag (is.foldl body s) ↔ flag s ∨ ∃ i ∈ is, raises i (get i s) := by
  induction is generalizing s with
  | nil => simp
  | cons j is ih =>
    rw [List.nodup_cons] at hnodup
    have hrest : (∃ i ∈ is, raises i (get i (body s j))) ↔ ∃ i ∈ is, raises i (get i s) := by
      apply exists_congr
      intro i
      apply and_congr_right
      intro hi
      have hne : j ≠ i := by
        rintro rfl
        exact hnodup.1 hi
      rw [hother s i j hne]
    rw [List.foldl_cons, ih hnodup.2, hrest, hflag, or_assoc, List.exists_mem_cons_iff]

/-! ## Two loops -/

/-- The pairs in the order of two loops, one inside the other. -/
def pairs (is : List ι) (js : List κ) : List (ι × κ) :=
  is.flatMap fun i => js.map fun j => (i, j)

theorem mem_pairs {is : List ι} {js : List κ} {p : ι × κ} :
    p ∈ pairs is js ↔ p.1 ∈ is ∧ p.2 ∈ js := by
  rcases p with ⟨i, j⟩
  simp [pairs]

theorem nodup_pairs {is : List ι} {js : List κ} (his : is.Nodup) (hjs : js.Nodup) :
    (pairs is js).Nodup :=
  his.product hjs

end Sweep
