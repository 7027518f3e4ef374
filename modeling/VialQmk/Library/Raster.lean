import Mathlib.Data.List.Basic
import Mathlib.Data.Nat.Notation
import Mathlib.Tactic.Common

/-!
# Rasters with a window

Cells in rows and columns that are written through a rectangular window: each value goes to
the next place of the window, row by row, and after its last place to the first one again.
Displays and frame buffers are written that way.

Main results:

- Theorem {lit}`Window.next_place`: the places of a window by number.
- Theorem {lit}`Raster.cells_puts`: where the values are that were written from the first
  place of the window on.
- Theorem {lit}`Raster.cells_puts_of_not`: other cells are as they were.
-/

/-- A rectangular window; its edges belong to it. -/
structure Window where
  left : ℕ
  top : ℕ
  right : ℕ
  bottom : ℕ
deriving DecidableEq

namespace Window

variable {w : Window} {x y n : ℕ}

def width (w : Window) : ℕ :=
  w.right + 1 - w.left

def height (w : Window) : ℕ :=
  w.bottom + 1 - w.top

/-- The window has a place. -/
structure Valid (w : Window) : Prop where
  left_le : w.left ≤ w.right
  top_le : w.top ≤ w.bottom

/-- A place of the window. -/
structure Mem (w : Window) (x y : ℕ) : Prop where
  left_le : w.left ≤ x
  le_right : x ≤ w.right
  top_le : w.top ≤ y
  le_bottom : y ≤ w.bottom

/-- The place after this one. -/
def next (w : Window) (p : ℕ × ℕ) : ℕ × ℕ :=
  if p.1 < w.right then (p.1 + 1, p.2)
  else (w.left, if p.2 < w.bottom then p.2 + 1 else w.top)

/-- The place with this number. -/
def place (w : Window) (n : ℕ) : ℕ × ℕ :=
  (w.left + n % w.width, w.top + n / w.width % w.height)

/-- The number of a place. -/
def index (w : Window) (x y : ℕ) : ℕ :=
  (y - w.top) * w.width + (x - w.left)

theorem Valid.width_pos (h : w.Valid) : 0 < w.width := by
  have := h.left_le
  unfold width
  omega

theorem Valid.height_pos (h : w.Valid) : 0 < w.height := by
  have := h.top_le
  unfold height
  omega

/-- Counting in rows: one step to the right, or to the start of the next row. -/
theorem succ_div_mod {k : ℕ} (hk : 0 < k) (n : ℕ) :
    (n % k + 1 < k ∧ (n + 1) % k = n % k + 1 ∧ (n + 1) / k = n / k) ∨
      (n % k + 1 = k ∧ (n + 1) % k = 0 ∧ (n + 1) / k = n / k + 1) := by
  have hmod := Nat.mod_lt n hk
  have hsplit := Nat.div_add_mod n k
  by_cases hlast : n % k + 1 = k
  · right
    have heq : n + 1 = k * (n / k + 1) := by
      rw [Nat.mul_add, Nat.mul_one]
      omega
    exact ⟨hlast, by rw [heq, Nat.mul_mod_right], by rw [heq, Nat.mul_div_cancel_left _ hk]⟩
  · left
    have hlt : n % k + 1 < k := by omega
    have heq : n + 1 = n % k + 1 + k * (n / k) := by omega
    refine ⟨hlt, ?_, ?_⟩
    · rw [heq, Nat.add_mul_mod_self_left, Nat.mod_eq_of_lt hlt]
    · rw [heq, Nat.add_mul_div_left _ _ hk, Nat.div_eq_of_lt hlt, Nat.zero_add]

/-- The places follow each other. -/
theorem next_place (h : w.Valid) (n : ℕ) : w.next (w.place n) = w.place (n + 1) := by
  have hleft := h.left_le
  have htop := h.top_le
  have hwidth : w.width = w.right + 1 - w.left := rfl
  have hheight : w.height = w.bottom + 1 - w.top := rfl
  unfold next place
  dsimp only
  rcases succ_div_mod h.width_pos n with ⟨hlt, hmod, hdiv⟩ | ⟨heq, hmod, hdiv⟩
  · rw [if_pos (by omega), hmod, hdiv, Nat.add_assoc]
  · rw [if_neg (by omega), hmod, hdiv]
    rcases succ_div_mod h.height_pos (n / w.width) with ⟨hlt', hmod', _⟩ | ⟨heq', hmod', _⟩
    · rw [if_pos (by omega), hmod', Nat.add_assoc]
      rfl
    · rw [if_neg (by omega), hmod']
      rfl

theorem Mem.index_lt (h : w.Mem x y) : w.index x y < w.width * w.height := by
  obtain ⟨hleft, hright, htop, hbottom⟩ := h
  have hx : x - w.left < w.width := by
    unfold width
    omega
  have hy : y - w.top + 1 ≤ w.height := by
    unfold height
    omega
  calc w.index x y < (y - w.top) * w.width + w.width := Nat.add_lt_add_left hx _
    _ = w.width * (y - w.top + 1) := by rw [Nat.mul_add, Nat.mul_one, Nat.mul_comm]
    _ ≤ w.width * w.height := Nat.mul_le_mul_left _ hy

theorem Mem.place_index (h : w.Mem x y) : w.place (w.index x y) = (x, y) := by
  obtain ⟨hleft, hright, htop, hbottom⟩ := h
  have hx : x - w.left < w.width := by
    unfold width
    omega
  have hy : y - w.top < w.height := by
    unfold height
    omega
  have hwidth : 0 < w.width := by omega
  unfold place index
  rw [Nat.mul_comm, Nat.mul_add_mod, Nat.mod_eq_of_lt hx, Nat.mul_add_div hwidth,
    Nat.div_eq_of_lt hx, Nat.add_zero, Nat.mod_eq_of_lt hy]
  ext
  · exact Nat.add_sub_of_le hleft
  · exact Nat.add_sub_of_le htop

theorem mem_place (h : w.Valid) (n : ℕ) : w.Mem (w.place n).1 (w.place n).2 := by
  have hx := Nat.mod_lt n h.width_pos
  have hy := Nat.mod_lt (n / w.width) h.height_pos
  have hleft := h.left_le
  have htop := h.top_le
  have hwidth : w.width = w.right + 1 - w.left := rfl
  have hheight : w.height = w.bottom + 1 - w.top := rfl
  unfold place
  refine ⟨?_, ?_, ?_, ?_⟩ <;>
  · dsimp only
    omega

theorem index_place (hn : n < w.width * w.height) :
    w.index (w.place n).1 (w.place n).2 = n := by
  have hdiv : n / w.width < w.height := Nat.div_lt_of_lt_mul hn
  unfold index place
  dsimp only
  rw [Nat.add_sub_cancel_left, Nat.add_sub_cancel_left, Nat.mod_eq_of_lt hdiv, Nat.mul_comm,
    Nat.div_add_mod]

end Window

/-- Cells by column and row, with a window and the place that is written next. -/
structure Raster (α : Type*) where
  cells : ℕ → ℕ → α
  window : Window
  place : ℕ × ℕ

namespace Raster

variable {α : Type*} {r : Raster α} {w : Window} {as : List α} {x y n : ℕ}

/-- Choose a window, and its first place. -/
def select (r : Raster α) (w : Window) : Raster α :=
  { r with
    window := w
    place := (w.left, w.top) }

/-- Write a value. -/
def put (r : Raster α) (a : α) : Raster α :=
  { r with
    cells := fun x y => if r.place = (x, y) then a else r.cells x y
    place := r.window.next r.place }

/-- Write values. -/
def puts (r : Raster α) (as : List α) : Raster α :=
  as.foldl put r

@[simp]
theorem window_puts (r : Raster α) (as : List α) : (r.puts as).window = r.window := by
  induction as generalizing r with
  | nil => rfl
  | cons a as ih => exact ih (r.put a)

theorem puts_append (r : Raster α) (as bs : List α) : r.puts (as ++ bs) = (r.puts as).puts bs :=
  List.foldl_append ..

theorem place_puts (hw : r.window.Valid) (hplace : r.place = r.window.place n) (as : List α) :
    (r.puts as).place = r.window.place (n + as.length) := by
  induction as generalizing r n with
  | nil => exact hplace
  | cons a as ih =>
    have hput : (r.put a).place = r.window.place (n + 1) := by
      rw [put, hplace, Window.next_place hw]
    rw [puts, List.foldl_cons, ← puts, ih (r := r.put a) hw hput, List.length_cons, put]
    congr 1
    omega

/-- Cells at other places are as they were. -/
theorem cells_puts_of_forall (hw : r.window.Valid) (hplace : r.place = r.window.place n)
    (h : ∀ k < as.length, r.window.place (n + k) ≠ (x, y)) :
    (r.puts as).cells x y = r.cells x y := by
  induction as generalizing r n with
  | nil => rfl
  | cons a as ih =>
    have hput : (r.put a).place = r.window.place (n + 1) := by
      rw [put, hplace, Window.next_place hw]
    rw [puts, List.foldl_cons, ← puts, ih (r := r.put a) hw hput]
    · have hzero := h 0 (by simp)
      rw [Nat.add_zero, ← hplace] at hzero
      exact if_neg hzero
    · intro k hk
      have hnext := h (k + 1) (by simpa using hk)
      rwa [Nat.add_comm k 1, ← Nat.add_assoc] at hnext

theorem place_select (r : Raster α) (w : Window) : (r.select w).place = w.place 0 := by
  simp [select, Window.place]

/-- Where the values are that were written from the first place of a window on. -/
theorem cells_puts (hw : w.Valid) (hlen : as.length ≤ w.width * w.height) (hmem : w.Mem x y)
    (hlt : w.index x y < as.length) :
    ((r.select w).puts as).cells x y = as[w.index x y] := by
  have hsplit : as = as.take (w.index x y) ++ as[w.index x y] :: as.drop (w.index x y + 1) := by
    rw [List.getElem_cons_drop, List.take_append_drop]
  generalize hr : (r.select w).puts (as.take (w.index x y)) = r'
  have hwindow : r'.window = w := by
    rw [← hr, window_puts]
    rfl
  have hplace : r'.place = w.place (w.index x y) := by
    rw [← hr, place_puts (r := r.select w) (n := 0) hw (place_select r w), List.length_take,
      Nat.zero_add, Nat.min_eq_left (Nat.le_of_lt hlt)]
    rfl
  have hput : (r'.put as[w.index x y]).place = w.place (w.index x y + 1) := by
    rw [put, hplace, hwindow, Window.next_place hw]
  calc ((r.select w).puts as).cells x y
      = ((r'.put as[w.index x y]).puts (as.drop (w.index x y + 1))).cells x y := by
        conv_lhs => rw [hsplit, puts_append, hr]
        rfl
    _ = (r'.put as[w.index x y]).cells x y := by
        refine cells_puts_of_forall (n := w.index x y + 1) (hwindow ▸ hw)
          (hput.trans (by rw [put, hwindow])) fun k hk heq => ?_
        have hk' : w.index x y + 1 + k < w.width * w.height := by
          rw [List.length_drop] at hk
          omega
        have hwin : (r'.put as[w.index x y]).window = w := hwindow
        rw [hwin] at heq
        have hindex := Window.index_place hk'
        rw [heq] at hindex
        dsimp only at hindex
        omega
    _ = as[w.index x y] := if_pos (hplace.trans hmem.place_index)

/-- Other cells are as they were. -/
theorem cells_puts_of_not (hw : w.Valid) (hlen : as.length ≤ w.width * w.height)
    (h : ¬ (w.Mem x y ∧ w.index x y < as.length)) :
    ((r.select w).puts as).cells x y = r.cells x y := by
  refine cells_puts_of_forall (r := r.select w) (n := 0) hw (place_select r w) ?_
  intro k hk heq
  rw [Nat.zero_add] at heq
  have hk' : k < w.width * w.height := by omega
  have hmem := Window.mem_place hw k
  have hindex := Window.index_place hk'
  have hplace : w.place k = (x, y) := heq
  rw [hplace] at hmem hindex
  exact h ⟨hmem, by rw [hindex]; exact hk⟩

end Raster
