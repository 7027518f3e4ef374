import Mathlib.Data.Fintype.Pi
import Mathlib.Data.List.Range
import Mathlib.Logic.Function.Basic
import Mathlib.Tactic.Common

/-!
# Ring buffers

A queue in an array of fixed size: elements enter at the head and leave at the tail, and
both go round.  Head and tail meet when the queue is empty, so one slot stays free.

Main results:

- Definition {lit}`RingBuffer.contents`: the queue a ring holds.
- Theorem {lit}`RingBuffer.contents_push`: an element that enters is the last one.
- Theorem {lit}`RingBuffer.contents_pop`: the element at the tail is the first one.
-/

/-- An array with the places where the next element enters and leaves. -/
structure RingBuffer (α : Type*) (n : ℕ) where
  slots : Fin n → α
  head : Fin n
  tail : Fin n
deriving DecidableEq

namespace RingBuffer

variable {α : Type*} {n : ℕ}

/-- The place after this one. -/
def next (i : Fin n) : Fin n :=
  ⟨(i + 1) % n, Nat.mod_lt _ i.pos⟩

/-- No element is in the queue. -/
def IsEmpty (r : RingBuffer α n) : Prop :=
  r.head = r.tail

/-- No further element fits. -/
def IsFull (r : RingBuffer α n) : Prop :=
  r.tail = next r.head

instance (r : RingBuffer α n) : Decidable r.IsEmpty :=
  inferInstanceAs (Decidable (r.head = r.tail))

instance (r : RingBuffer α n) : Decidable r.IsFull :=
  inferInstanceAs (Decidable (r.tail = next r.head))

/-- An element enters. -/
def push (x : α) (r : RingBuffer α n) : RingBuffer α n where
  slots := Function.update r.slots r.head x
  head := next r.head
  tail := r.tail

/-- The element at the tail leaves. -/
def pop (r : RingBuffer α n) : RingBuffer α n :=
  { r with tail := next r.tail }

/-- All elements leave. -/
def clear (r : RingBuffer α n) : RingBuffer α n :=
  { r with tail := r.head }

/-- The number of elements. -/
def length (r : RingBuffer α n) : ℕ :=
  (r.head + n - r.tail) % n

/-- The place of an element, counted from the tail. -/
def place (r : RingBuffer α n) (i : ℕ) : Fin n :=
  ⟨(r.tail + i) % n, Nat.mod_lt _ r.tail.pos⟩

/-- The elements, from the one that leaves first. -/
def contents (r : RingBuffer α n) : List α :=
  (List.range r.length).map fun i => r.slots (r.place i)

section Lemmas

variable (r : RingBuffer α n)

/-- Head and tail without a turn, or with one. -/
theorem length_cases :
    r.tail.val ≤ r.head.val ∧ r.length = r.head - r.tail ∨
      r.head.val < r.tail.val ∧ r.length = r.head + n - r.tail := by
  have hhead := r.head.isLt
  have htail := r.tail.isLt
  unfold length
  by_cases h : r.tail.val ≤ r.head.val
  · left
    refine ⟨h, ?_⟩
    rw [show r.head.val + n - r.tail = r.head - r.tail + n by omega, Nat.add_mod_right]
    exact Nat.mod_eq_of_lt (by omega)
  · right
    exact ⟨by omega, Nat.mod_eq_of_lt (by omega)⟩

theorem length_lt : r.length < n :=
  Nat.mod_lt _ r.head.pos

/-- The next place, without a turn or with one. -/
theorem next_cases (i : Fin n) :
    i.val + 1 < n ∧ (next i).val = i + 1 ∨ i.val + 1 = n ∧ (next i).val = 0 := by
  have hi := i.isLt
  unfold next
  by_cases h : i.val + 1 < n
  · exact Or.inl ⟨h, Nat.mod_eq_of_lt h⟩
  · right
    have heq : i.val + 1 = n := by omega
    exact ⟨heq, by simp [heq]⟩

/-- The place of an element, without a turn or with one. -/
theorem place_cases {i : ℕ} (hi : i < n) :
    r.tail.val + i < n ∧ (r.place i).val = r.tail + i ∨
      n ≤ r.tail.val + i ∧ (r.place i).val = r.tail + i - n := by
  have htail := r.tail.isLt
  unfold place
  by_cases h : r.tail.val + i < n
  · exact Or.inl ⟨h, Nat.mod_eq_of_lt h⟩
  · right
    refine ⟨by omega, ?_⟩
    dsimp only
    rw [Nat.mod_eq_sub_mod (by omega)]
    exact Nat.mod_eq_of_lt (by omega)

theorem contents_empty (h : r.IsEmpty) : r.contents = [] := by
  have hlength : r.length = 0 := by
    have heq : r.head.val = r.tail.val := congrArg Fin.val h
    rcases r.length_cases with ⟨-, hl⟩ | ⟨hlt, -⟩
    · omega
    · omega
  rw [contents, hlength]
  rfl

theorem contents_clear : r.clear.contents = [] :=
  r.clear.contents_empty rfl

/-- A ring that is not full has room for one more. -/
theorem length_push (x : α) (h : ¬ r.IsFull) : (r.push x).length = r.length + 1 := by
  have hne : r.tail.val ≠ (next r.head).val := fun heq => h (Fin.ext heq)
  have hhead := r.head.isLt
  have htail := r.tail.isLt
  have hpush := (r.push x).length_cases
  have hnext := next_cases r.head
  change (r.tail.val ≤ (next r.head).val ∧ (r.push x).length = (next r.head).val - r.tail ∨
    (next r.head).val < r.tail.val ∧ (r.push x).length = (next r.head).val + n - r.tail) at hpush
  rcases r.length_cases with hold | hold <;> omega

/-- The place behind the last element is the head. -/
theorem place_length : r.place r.length = r.head := by
  apply Fin.ext
  have hhead := r.head.isLt
  have htail := r.tail.isLt
  rcases r.place_cases r.length_lt with hplace | hplace <;>
  rcases r.length_cases with hl | hl <;> omega

/-- The other elements are not at the head. -/
theorem place_ne_head {i : ℕ} (hi : i < r.length) : r.place i ≠ r.head := by
  intro heq
  have hval : (r.place i).val = r.head.val := congrArg Fin.val heq
  have hlt := r.length_lt
  have hhead := r.head.isLt
  have htail := r.tail.isLt
  rcases r.place_cases (Nat.lt_trans hi hlt) with hplace | hplace <;>
  rcases r.length_cases with hl | hl <;> omega

/-- An element that enters is the last one. -/
theorem contents_push (x : α) (h : ¬ r.IsFull) : (r.push x).contents = r.contents ++ [x] := by
  have hplace : ∀ i, (r.push x).place i = r.place i := fun _ => rfl
  rw [contents, length_push r x h, List.range_succ, List.map_append, List.map_singleton, hplace,
    place_length]
  have hlast : (r.push x).slots r.head = x := Function.update_self ..
  have hrest : (List.range r.length).map (fun i => (r.push x).slots ((r.push x).place i)) =
      r.contents := by
    apply List.map_congr_left
    intro i hi
    rw [hplace]
    exact Function.update_of_ne (r.place_ne_head (List.mem_range.mp hi)) _ _
  rw [hlast, hrest]

/-- A ring that is not empty has one less when an element leaves. -/
theorem length_pop (h : ¬ r.IsEmpty) : r.length = r.pop.length + 1 := by
  have hne : r.head.val ≠ r.tail.val := fun heq => h (Fin.ext heq)
  have hhead := r.head.isLt
  have htail := r.tail.isLt
  have hpop := r.pop.length_cases
  have hnext := next_cases r.tail
  change ((next r.tail).val ≤ r.head.val ∧ r.pop.length = r.head.val - (next r.tail).val ∨
    r.head.val < (next r.tail).val ∧ r.pop.length = r.head.val + n - (next r.tail).val) at hpop
  rcases r.length_cases with hold | hold <;> omega

theorem place_pop {i : ℕ} (hi : i + 1 < n) : r.pop.place i = r.place (i + 1) := by
  apply Fin.ext
  have htail := r.tail.isLt
  have hpop := r.pop.place_cases (i := i) (by omega)
  have hnext := next_cases r.tail
  change ((next r.tail).val + i < n ∧ (r.pop.place i).val = (next r.tail).val + i ∨
    n ≤ (next r.tail).val + i ∧ (r.pop.place i).val = (next r.tail).val + i - n) at hpop
  rcases r.place_cases hi with hplace | hplace <;> omega

/-- The element at the tail is the first one. -/
theorem contents_pop (h : ¬ r.IsEmpty) : r.contents = r.slots r.tail :: r.pop.contents := by
  have hlt := r.length_lt
  have hfirst : r.place 0 = r.tail := by
    apply Fin.ext
    exact Nat.mod_eq_of_lt r.tail.isLt
  rw [contents, length_pop r h, List.range_succ_eq_map, List.map_cons, hfirst, List.map_map]
  congr 1
  apply List.map_congr_left
  intro i hi
  rw [List.mem_range] at hi
  have hpop := length_pop r h
  rw [Function.comp_apply, ← place_pop r (by omega)]
  rfl

end Lemmas

end RingBuffer
