import Mathlib.Data.List.Basic
import Mathlib.Data.List.Count
import Mathlib.Tactic.Common

/-!
# Textual replacement

{lit}`Replace.replace` replaces all occurrences of a list in another one, from the left and
without overlaps, as the method of that name does for strings.

Main results:

- Theorem {lit}`Replace.replace_singleton`: one element is replaced wherever it is.
- Theorem {lit}`Replace.replace_of_notMem`: what does not occur is not replaced.
- Theorem {lit}`Replace.pair_induction`: how a list is read where the same element twice is
  replaced.
-/

namespace Replace

variable {α : Type*} [DecidableEq α]

/-- The rest of an occurrence is skipped. -/
def replaceFrom (old new : List α) : ℕ → List α → List α
  | _, [] => []
  | skip + 1, _ :: s => replaceFrom old new skip s
  | 0, c :: s =>
    if old <+: c :: s then new ++ replaceFrom old new (old.length - 1) s
    else c :: replaceFrom old new 0 s

/-- All occurrences are replaced; the old list is not empty. -/
def replace (old new s : List α) : List α :=
  replaceFrom old new 0 s

@[simp]
theorem replace_nil (old new : List α) : replace old new [] = [] :=
  rfl

theorem replace_cons_of_absent {old new s : List α} {c : α} (h : ¬ old <+: c :: s) :
    replace old new (c :: s) = c :: replace old new s :=
  if_neg h

theorem replace_cons_of_ne {q c : α} {old new s : List α} (h : c ≠ q) :
    replace (q :: old) new (c :: s) = c :: replace (q :: old) new s :=
  replace_cons_of_absent fun hprefix => h (List.cons_prefix_cons.mp hprefix).1.symm

/-- What does not occur is not replaced. -/
theorem replace_of_notMem {q : α} {old new s : List α} (h : q ∉ s) :
    replace (q :: old) new s = s := by
  induction s with
  | nil => rfl
  | cons c s ih =>
    rw [List.mem_cons, not_or] at h
    rw [replace_cons_of_ne (Ne.symm h.1), ih h.2]

/-- One element is replaced wherever it is. -/
theorem replace_singleton (q : α) (new s : List α) :
    replace [q] new s = s.flatMap fun c => if c = q then new else [c] := by
  induction s with
  | nil => rfl
  | cons c s ih =>
    rw [List.flatMap_cons, ← ih]
    by_cases hc : c = q
    · rw [if_pos hc]
      exact if_pos (hc ▸ List.cons_prefix_cons.mpr ⟨rfl, List.nil_prefix⟩)
    · rw [if_neg hc, replace_cons_of_ne hc]
      rfl

/-! ## The same element twice -/

variable {q : α} {new s : List α}

theorem replace_pair_same : replace [q, q] new (q :: q :: s) = new ++ replace [q, q] new s :=
  if_pos (List.cons_prefix_cons.mpr ⟨rfl, List.cons_prefix_cons.mpr ⟨rfl, List.nil_prefix⟩⟩)

theorem replace_pair_single : replace [q, q] new [q] = [q] :=
  replace_cons_of_absent fun h => absurd h.length_le (by simp)

theorem replace_pair_ne {c : α} (h : c ≠ q) :
    replace [q, q] new (q :: c :: s) = q :: c :: replace [q, q] new s := by
  have hprefix : ¬ [q, q] <+: q :: c :: s := fun hprefix =>
    h (List.cons_prefix_cons.mp (List.cons_prefix_cons.mp hprefix).2).1.symm
  rw [replace_cons_of_absent hprefix, replace_cons_of_ne h]

/-- What has no such element is left alone. -/
theorem replace_append_of_notMem {old front : List α} (h : q ∉ front) (s : List α) :
    replace (q :: old) new (front ++ s) = front ++ replace (q :: old) new s := by
  induction front with
  | nil => rfl
  | cons c front ih =>
    rw [List.mem_cons, not_or] at h
    rw [List.cons_append, replace_cons_of_ne (Ne.symm h.1), ih h.2, List.cons_append]

/-- A list is read element by element, or two at a time where the first is the one that is
replaced. -/
theorem pair_induction {motive : List α → Prop} (q : α) (nil : motive [])
    (single : motive [q]) (other : ∀ c s, c ≠ q → motive s → motive (c :: s))
    (same : ∀ s, motive s → motive (q :: q :: s))
    (ne : ∀ c s, c ≠ q → motive s → motive (q :: c :: s)) : ∀ s, motive s
  | [] => nil
  | [c] => by
    by_cases hc : c = q
    · exact hc ▸ single
    · exact other c [] hc nil
  | c :: d :: s => by
    by_cases hc : c = q
    · by_cases hd : d = q
      · rw [hc, hd]
        exact same s (pair_induction q nil single other same ne s)
      · rw [hc]
        exact ne d s hd (pair_induction q nil single other same ne s)
    · exact other c (d :: s) hc (pair_induction q nil single other same ne (d :: s))

/-- Other elements are counted as before. -/
theorem count_replace_pair {c : α} (h : c ≠ q) (s : List α) :
    (replace [q, q] [] s).count c = s.count c := by
  induction s using pair_induction q with
  | nil => rfl
  | single => rw [replace_pair_single]
  | other d s hd ih => rw [replace_cons_of_ne hd, List.count_cons, List.count_cons, ih]
  | same s ih =>
    rw [replace_pair_same, List.nil_append, ih, List.count_cons_of_ne (Ne.symm h),
      List.count_cons_of_ne (Ne.symm h)]
  | ne d s hd ih =>
    rw [replace_pair_ne hd, List.count_cons_of_ne (Ne.symm h), List.count_cons_of_ne (Ne.symm h),
      List.count_cons, List.count_cons, ih]

end Replace
