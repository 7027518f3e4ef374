import Mathlib.Data.List.DropRight
import Mathlib.Tactic.Common

/-!
# The most recent entries of a list

A log that remembers its last {lit}`n` entries holds {lit}`xs.rtake n`.  The lemmas say what
becomes of them when the list grows, and when entries are dropped from it.

Main results:

- Theorem {lit}`List.rtake_append_of_le`: new entries push out the oldest ones.
- Theorem {lit}`List.rtake_filter_of_forall`: if all recent entries stay, they are the recent
  ones still.
- Theorem {lit}`List.rtake_filter_of_none`: if none of them stays, and what is older goes
  first, nothing is left.
-/

namespace List

variable {α β : Type*}

theorem rtake_eq_drop (xs : List α) (n : ℕ) : xs.rtake n = xs.drop (xs.length - n) :=
  rfl

theorem length_rtake_eq (xs : List α) (n : ℕ) : (xs.rtake n).length = min n xs.length := by
  rw [rtake_eq_drop, length_drop]
  omega

theorem map_rtake_eq (f : α → β) (xs : List α) (n : ℕ) :
    (xs.map f).rtake n = (xs.rtake n).map f := by
  simp only [rtake_eq_drop, length_map, map_drop]

/-- New entries push out the oldest ones. -/
theorem rtake_append_of_le (xs : List α) {ys : List α} {n : ℕ} (h : ys.length ≤ n) :
    (xs ++ ys).rtake n =
      (xs.rtake n).drop ((xs.rtake n).length + ys.length - n) ++ ys := by
  have hle : xs.length + ys.length - n ≤ xs.length := by omega
  have hall : xs.length + ys.length - n =
      xs.length - n + ((xs.rtake n).length + ys.length - n) := by
    rw [length_rtake_eq]
    omega
  rw [rtake_eq_drop, length_append, drop_append_of_le_length hle, rtake_eq_drop xs, drop_drop,
    ← rtake_eq_drop xs, ← hall]

/-- Where all recent entries stay, they are the recent ones still. -/
theorem rtake_filter_of_forall {xs : List α} {p : α → Bool} {n : ℕ}
    (h : ∀ x ∈ xs.rtake n, p x) : (xs.filter p).rtake n = xs.rtake n := by
  have hsplit : xs = xs.take (xs.length - n) ++ xs.rtake n := (take_append_drop _ xs).symm
  have hfilter : xs.filter p = (xs.take (xs.length - n)).filter p ++ xs.rtake n := by
    conv_lhs => rw [hsplit]
    rw [filter_append, filter_eq_self.mpr h]
  have hlen : (xs.rtake n).length ≤ n := by
    rw [length_rtake_eq]
    exact Nat.min_le_left _ _
  rcases Nat.le_total xs.length n with hshort | hlong
  · have hnone : xs.length - n = 0 := Nat.sub_eq_zero_of_le hshort
    rw [hfilter, hnone, take_zero, filter_nil, nil_append, rtake_eq_drop, rtake_eq_drop]
    rw [hnone, drop_zero, hnone, drop_zero]
  · have hfull : (xs.rtake n).length = n := by
      rw [length_rtake_eq]
      exact Nat.min_eq_left hlong
    rw [hfilter, rtake_append_of_le _ hlen, hfull, Nat.add_sub_cancel,
      drop_eq_nil_of_le (Nat.le_refl _), nil_append]

/-- Where no recent entry stays, and none stays longer than a later one, nothing is left. -/
theorem rtake_filter_of_none {xs : List α} {p : α → Bool} {n : ℕ}
    (hsorted : xs.Pairwise fun x y => p x → p y) (h : ∀ x ∈ xs.rtake n, p x = false) :
    (xs.filter p).rtake n = [] := by
  rcases Nat.eq_zero_or_pos n with rfl | hpos
  · rw [rtake_eq_drop, Nat.sub_zero, drop_eq_nil_of_le (Nat.le_refl _)]
  have hnone : xs.filter p = [] := by
    refine filter_eq_nil_iff.mpr fun x hx => ?_
    have hsplit : xs = xs.take (xs.length - n) ++ xs.rtake n := (take_append_drop _ xs).symm
    have hlast : xs.rtake n ≠ [] := by
      intro hnil
      have hlen := length_rtake_eq xs n
      rw [hnil, length_nil] at hlen
      have hx' := length_pos_of_mem hx
      omega
    rw [hsplit] at hsorted hx
    rcases mem_append.mp hx with hold | hrecent
    · obtain ⟨y, hy⟩ := exists_mem_of_ne_nil _ hlast
      intro hpx
      have hpy := (pairwise_append.mp hsorted).2.2 x hold y hy hpx
      rw [h y hy] at hpy
      exact absurd hpy Bool.false_ne_true
    · rw [h x hrecent]
      exact Bool.false_ne_true
  rw [hnone]
  exact rtake_nil n

end List
