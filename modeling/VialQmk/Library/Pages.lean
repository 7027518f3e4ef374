import VialQmk.Library.Memory

/-!
# Memories that are written page by page

A device takes the bytes of a write into one page: behind the last byte of the page it goes on
with the first one.  A cell may take the new value as it is, or combine it with the one that it
has, as flash does.

Main results:

- Definition {lit}`Memory.merge`: a block is written, cell by cell.
- Definition {lit}`Memory.writeInPage`: a block is written inside a page.
- Theorem {lit}`Memory.writeInPage_eq_merge`: they agree for a block that fits into the page.
-/

namespace Memory

open Function (update)

variable {α β : Type*} (f : α → β → α)

/-- Write the block {lit}`xs` at address {lit}`a`, each cell by {lit}`f`. -/
def merge (m : Memory α) (a : ℕ) (xs : List β) : Memory α :=
  fun i => if i < a then m i else (xs[i - a]?.map (f (m i))).getD (m i)

@[simp]
theorem merge_nil (m : Memory α) (a : ℕ) : m.merge f a [] = m := by
  funext i
  simp [merge]

theorem merge_of_lt {m : Memory α} {a i : ℕ} {xs : List β} (h : i < a) :
    m.merge f a xs i = m i :=
  if_pos h

theorem merge_of_ge {m : Memory α} {a i : ℕ} {xs : List β} (h : a + xs.length ≤ i) :
    m.merge f a xs i = m i := by
  have hi : xs.length ≤ i - a := by omega
  simp [merge, List.getElem?_eq_none hi]

theorem merge_of_mem {m : Memory α} {a i : ℕ} {xs : List β} (hle : a ≤ i)
    (hlt : i - a < xs.length) : m.merge f a xs i = f (m i) xs[i - a] := by
  have hnot : ¬ i < a := by omega
  simp [merge, hnot, List.getElem?_eq_getElem hlt]

/-- A block is written cell by cell. -/
theorem merge_cons (m : Memory α) (a : ℕ) (x : β) (xs : List β) :
    m.merge f a (x :: xs) = Memory.merge f (update m a (f (m a) x)) (a + 1) xs := by
  funext i
  rcases Nat.lt_trichotomy i a with hlt | rfl | hgt
  · rw [merge_of_lt f hlt, merge_of_lt f (by omega), Function.update_of_ne (by omega)]
  · rw [merge_of_mem f (Nat.le_refl _) (by simp), merge_of_lt f (by omega), Function.update_self]
    simp
  · have hsub : i - a = i - (a + 1) + 1 := by omega
    have hnot : ¬ i < a := by omega
    have hnot' : ¬ i < a + 1 := by omega
    simp only [merge, if_neg hnot, if_neg hnot', hsub, List.getElem?_cons_succ,
      Function.update_of_ne (show i ≠ a by omega)]

/-- A block is written piece by piece. -/
theorem merge_append (m : Memory α) (a : ℕ) (xs ys : List β) :
    m.merge f a (xs ++ ys) = (m.merge f a xs).merge f (a + xs.length) ys := by
  induction xs generalizing m a with
  | nil => simp
  | cons x xs ih =>
    rw [List.cons_append, merge_cons, ih, merge_cons, List.length_cons, Nat.add_assoc,
      Nat.add_comm 1]

/-- Without regard to the old cells this is a store. -/
theorem merge_eq_store (m : Memory α) (a : ℕ) (xs : List α) :
    m.merge (fun _ x => x) a xs = m.store a xs := by
  funext i
  simp only [merge, store]
  split_ifs with h
  · rfl
  · simp

/-- Write a block, from its {lit}`k`th cell on, inside the page of address {lit}`a`. -/
def writeInPage (size a : ℕ) : ℕ → List β → Memory α → Memory α
  | _, [], m => m
  | k, x :: xs, m =>
    let i := a - a % size + (a % size + k) % size
    writeInPage size a (k + 1) xs (update m i (f (m i) x))

/-- A block that fits into its page. -/
theorem writeInPage_eq_merge {size a k : ℕ} {xs : List β} (m : Memory α)
    (h : a % size + (k + xs.length) ≤ size) :
    writeInPage f size a k xs m = m.merge f (a + k) xs := by
  induction xs generalizing k m with
  | nil => rw [merge_nil, writeInPage]
  | cons x xs ih =>
    rw [List.length_cons] at h
    have hplace : a - a % size + (a % size + k) % size = a + k := by
      have hle := Nat.mod_le a size
      rw [Nat.mod_eq_of_lt (show a % size + k < size by omega)]
      omega
    rw [writeInPage, hplace, ih _ (by omega), merge_cons, Nat.add_assoc]

/-- The part of a block that is in the page of its first cell. -/
theorem mod_add_min_le {size : ℕ} (hsize : 0 < size) (a n : ℕ) :
    a % size + min (size - a % size) n ≤ size := by
  have hlt := Nat.mod_lt a hsize
  omega

end Memory
