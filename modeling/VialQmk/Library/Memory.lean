import Mathlib.Logic.Function.Basic
import Mathlib.Data.List.Basic
import Mathlib.Tactic.Common

/-!
# Flat memories

A memory is a function from addresses to cells.  {lit}`load` reads a block of
cells and {lit}`store` writes one, as `memcpy` does.  The lemmas say where a
store shows, where it does not, and how loads and stores compose.

Main results:

- Theorem {lit}`Memory.load_store_same`: a block just stored is read back.
- Theorem {lit}`Memory.load_store_disjoint`: a store elsewhere is not seen.
- Theorem {lit}`Memory.store_append`: a block is stored piece by piece.
- Definition {lit}`Memory.Frame`: two memories differ only inside a block.
- Theorem {lit}`Memory.foldl_of_mem`: what one round of a loop establishes, and every
  round keeps, holds after the loop.
-/

/-- A flat memory of cells. -/
abbrev Memory (α : Type*) := ℕ → α

namespace Memory

variable {α : Type*}

/-- The block of {lit}`n` cells at address {lit}`a`. -/
def load (m : Memory α) (a n : ℕ) : List α :=
  (List.range n).map fun i => m (a + i)

/-- Write the block {lit}`xs` at address {lit}`a`. -/
def store (m : Memory α) (a : ℕ) (xs : List α) : Memory α :=
  fun i => if i < a then m i else xs[i - a]?.getD (m i)

/-- Set the {lit}`n` cells from {lit}`a` on to {lit}`x`, as `memset` does. -/
def fill (m : Memory α) (a n : ℕ) (x : α) : Memory α :=
  fun i => if a ≤ i ∧ i < a + n then x else m i

@[simp]
theorem load_length (m : Memory α) (a n : ℕ) : (m.load a n).length = n := by
  simp [load]

@[simp]
theorem load_zero (m : Memory α) (a : ℕ) : m.load a 0 = [] :=
  rfl

theorem load_getElem? (m : Memory α) {a n i : ℕ} (h : i < n) :
    (m.load a n)[i]? = some (m (a + i)) := by
  simp [load, h]

@[simp]
theorem load_getElem (m : Memory α) {a n i : ℕ} (h : i < (m.load a n).length) :
    (m.load a n)[i] = m (a + i) := by
  simp [load]

/-- A block is read piece by piece. -/
theorem load_add (m : Memory α) (a k n : ℕ) :
    m.load a (k + n) = m.load a k ++ m.load (a + k) n := by
  simp [load, List.range_add, Nat.add_assoc]

/-- Memories that agree on a block give the same load. -/
theorem load_congr {m m' : Memory α} {a n : ℕ} (h : ∀ i, a ≤ i → i < a + n → m i = m' i) :
    m.load a n = m'.load a n := by
  simp only [load]
  apply List.map_congr_left
  intro i hi
  rw [List.mem_range] at hi
  exact h (a + i) (by omega) (by omega)

/-- A load is determined by, and determines, the cells of the block. -/
theorem load_eq_iff {m m' : Memory α} {a n : ℕ} :
    m.load a n = m'.load a n ↔ ∀ i, a ≤ i → i < a + n → m i = m' i := by
  refine ⟨fun h i hle hlt => ?_, load_congr⟩
  obtain ⟨j, rfl⟩ := Nat.exists_eq_add_of_le hle
  have hj : j < n := by omega
  have hget := congrArg (fun l => l[j]?) h
  simpa [load_getElem? _ hj] using hget

theorem load_eq_of_forall {m : Memory α} {a : ℕ} {xs : List α}
    (h : ∀ i (hi : i < xs.length), m (a + i) = xs[i]) : m.load a xs.length = xs := by
  apply List.ext_getElem (by simp)
  intro i _ hi
  simpa using h i hi

/-! ## Stores -/

@[simp]
theorem store_nil (m : Memory α) (a : ℕ) : m.store a [] = m := by
  funext i
  simp [store]

/-- Below the block a store is not seen. -/
theorem store_of_lt {m : Memory α} {a i : ℕ} {xs : List α} (h : i < a) :
    m.store a xs i = m i := by
  simp [store, h]

/-- Behind the block a store is not seen. -/
theorem store_of_ge {m : Memory α} {a i : ℕ} {xs : List α} (h : a + xs.length ≤ i) :
    m.store a xs i = m i := by
  have hi : xs.length ≤ i - a := by omega
  simp [store, List.getElem?_eq_none hi]

/-- Inside the block a store is seen. -/
theorem store_of_mem {m : Memory α} {a i : ℕ} {xs : List α} (hle : a ≤ i)
    (hlt : i - a < xs.length) : m.store a xs i = xs[i - a] := by
  have hnot : ¬ i < a := by omega
  simp [store, hnot, List.getElem?_eq_getElem hlt]

@[simp]
theorem store_add {m : Memory α} {a i : ℕ} {xs : List α} (h : i < xs.length) :
    m.store a xs (a + i) = xs[i] := by
  have hnot : ¬ a + i < a := by omega
  simp [store, hnot, List.getElem?_eq_getElem h]

/-- The first cell of a store. -/
@[simp]
theorem store_head (m : Memory α) (a : ℕ) (x : α) (xs : List α) : m.store a (x :: xs) a = x := by
  simp [store]

/-- The second cell of a store. -/
@[simp]
theorem store_second (m : Memory α) (a : ℕ) (x y : α) (xs : List α) :
    m.store a (x :: y :: xs) (a + 1) = y := by
  have hnot : ¬ a + 1 < a := by omega
  simp [store, hnot]

/-- A block just stored is read back. -/
@[simp]
theorem load_store_same (m : Memory α) (a : ℕ) (xs : List α) :
    (m.store a xs).load a xs.length = xs :=
  load_eq_of_forall fun _ hi => store_add hi

/-- A store elsewhere is not seen. -/
theorem load_store_disjoint {m : Memory α} {a b n : ℕ} {xs : List α}
    (h : b + n ≤ a ∨ a + xs.length ≤ b) : (m.store a xs).load b n = m.load b n := by
  apply load_congr
  intro i hle hlt
  rcases h with h | h
  · exact store_of_lt (by omega)
  · exact store_of_ge (by omega)

/-- A block is stored piece by piece. -/
theorem store_append (m : Memory α) (a : ℕ) (xs ys : List α) :
    m.store a (xs ++ ys) = (m.store a xs).store (a + xs.length) ys := by
  funext i
  by_cases hlt : i < a
  · rw [store_of_lt hlt, store_of_lt (by omega), store_of_lt hlt]
  · have hle : a ≤ i := by omega
    obtain ⟨j, rfl⟩ := Nat.exists_eq_add_of_le hle
    by_cases hj : j < xs.length
    · rw [store_add (by simp; omega), store_of_lt (by omega), store_add hj]
      simp [List.getElem_append_left hj]
    · simp only [store]
      have hsub : a + j - (a + xs.length) = j - xs.length := by omega
      have hnot : ¬ a + j < a + xs.length := by omega
      have hnone : xs[j]? = none := List.getElem?_eq_none (by omega)
      rw [if_neg hlt, if_neg hnot, if_neg hlt, Nat.add_sub_cancel_left,
        List.getElem?_append_right (Nat.le_of_not_lt hj), hnone, hsub]
      rfl

/-- Storing what a block already holds changes nothing. -/
theorem store_load_self (m : Memory α) (a n : ℕ) : m.store a (m.load a n) = m := by
  funext i
  by_cases hlt : i < a
  · exact store_of_lt hlt
  · by_cases hn : i - a < n
    · rw [store_of_mem (by omega) (by simpa using hn)]
      simp only [load_getElem]
      congr 1
      omega
    · exact store_of_ge (by simp; omega)

/-- Stores agree wherever the memories below them agree. -/
theorem store_congr {m m' : Memory α} {a i : ℕ} {xs : List α} (h : m i = m' i) :
    m.store a xs i = m'.store a xs i := by
  simp [store, h]

/-! ## Fills -/

theorem fill_of_mem {m : Memory α} {a n i : ℕ} {x : α} (hle : a ≤ i) (hlt : i < a + n) :
    m.fill a n x i = x := by
  simp [fill, hle, hlt]

theorem fill_of_not_mem {m : Memory α} {a n i : ℕ} {x : α} (h : i < a ∨ a + n ≤ i) :
    m.fill a n x i = m i := by
  have hnot : ¬ (a ≤ i ∧ i < a + n) := by omega
  simp [fill, hnot]

/-- A filled block reads as the filling. -/
theorem load_fill (m : Memory α) (a n : ℕ) (x : α) :
    (m.fill a n x).load a n = List.replicate n x := by
  apply List.ext_getElem (by simp)
  intro i hi _
  rw [load_length] at hi
  rw [load_getElem, List.getElem_replicate]
  exact fill_of_mem (Nat.le_add_right _ _) (by omega)

/-! ## Frames -/

/-- The memories differ only inside {lit}`[a, b)`. -/
def Frame (a b : ℕ) (m m' : Memory α) : Prop :=
  ∀ i, i < a ∨ b ≤ i → m' i = m i

namespace Frame

theorem refl (a b : ℕ) (m : Memory α) : Frame a b m m :=
  fun _ _ => rfl

theorem trans {a b : ℕ} {m m' m'' : Memory α} (h : Frame a b m m') (h' : Frame a b m' m'') :
    Frame a b m m'' :=
  fun i hi => (h' i hi).trans (h i hi)

/-- A smaller frame is a larger one. -/
theorem mono {a b a' b' : ℕ} {m m' : Memory α} (h : Frame a b m m') (ha : a' ≤ a)
    (hb : b ≤ b') : Frame a' b' m m' :=
  fun i hi => h i (by omega)

/-- A block outside of the frame is not changed. -/
theorem load {a b c n : ℕ} {m m' : Memory α} (h : Frame a b m m') (hout : c + n ≤ a ∨ b ≤ c) :
    m'.load c n = m.load c n :=
  load_congr fun i hle hlt => h i (by omega)

end Frame

theorem frame_store (m : Memory α) {a b c : ℕ} {xs : List α} (ha : a ≤ c)
    (hb : c + xs.length ≤ b) : Frame a b m (m.store c xs) := by
  intro i hi
  rcases hi with hi | hi
  · exact store_of_lt (by omega)
  · exact store_of_ge (by omega)

theorem frame_fill (m : Memory α) (a n : ℕ) (x : α) : Frame a (a + n) m (m.fill a n x) :=
  fun _ hi => fill_of_not_mem hi

/-! ## Loops -/

section Loops

variable {σ ι : Type*} {f : σ → ι → σ}

/-- What every round of a loop keeps, the loop keeps. -/
theorem foldl_invariant (P : σ → Prop) {xs : List ι} (hkeep : ∀ s, P s → ∀ x ∈ xs, P (f s x))
    {s : σ} (h : P s) : P (xs.foldl f s) :=
  List.foldlRecOn xs f h hkeep

/-- What the round for {lit}`x` establishes, and every round keeps, holds after the loop. -/
theorem foldl_of_mem (P : σ → Prop) {xs : List ι} {x : ι} (hx : x ∈ xs)
    (hround : ∀ s, P (f s x)) (hkeep : ∀ s, P s → ∀ y ∈ xs, P (f s y)) (s : σ) :
    P (xs.foldl f s) := by
  obtain ⟨front, back, rfl⟩ := List.append_of_mem hx
  rw [List.foldl_append, List.foldl_cons]
  apply foldl_invariant P _ (hround _)
  intro s' hs' y hy
  exact hkeep s' hs' y (by simp [hy])

end Loops

end Memory
