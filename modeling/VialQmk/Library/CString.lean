import Mathlib.Data.List.Basic
import Mathlib.Tactic.Common

/-!
# Strings with a terminator

A string of C is a list of bytes without zero, and a zero behind it.  A pointer into the
string is what is left of it, the terminator included, so a read behind the terminator has
no value.  A loop reads the string piece by piece, until it finds the terminator where it
looks for the next piece.

Main results:

- Theorem {lit}`CString.eq_of_append`: the first zero is the terminator.
- Theorem {lit}`CString.scan_iff`: a loop comes to an end within the string just if the
  string divides into pieces.
-/

/-- The bytes of a string in front of its terminator. -/
structure CString where
  bytes : List UInt8
  no_nul : 0 ∉ bytes

namespace CString

/-- A pointer to the first byte of a string. -/
def str (s : CString) : List UInt8 :=
  s.bytes ++ [0]

/-- The bytes in front of the first terminator are those of the string. -/
theorem eq_of_append {s : CString} {front rest : List UInt8}
    (h : s.str = front ++ 0 :: rest) : s.bytes = front := by
  rcases Nat.lt_or_ge front.length s.bytes.length with hlt | hge
  · -- The terminator would be one of the bytes.
    have hzero : s.str[front.length]? = some 0 := by simp [h]
    rw [str, List.getElem?_append_left hlt] at hzero
    exact absurd (List.mem_of_getElem? hzero) s.no_nul
  · have hlength := congrArg List.length h
    simp only [str, List.length_append, List.length_cons, List.length_nil] at hlength
    exact (List.append_inj h (by omega)).1

/-! ## Pieces -/

/-- A string in its pieces. -/
structure Divides (IsPiece : List UInt8 → Prop) (bytes : List UInt8)
    (pieces : List (List UInt8)) : Prop where
  eq : bytes = pieces.flatten
  pieces : ∀ piece ∈ pieces, IsPiece piece

variable {IsPiece : List UInt8 → Prop} {bytes : List UInt8} {pieces : List (List UInt8)}

theorem Divides.tail {piece : List UInt8} (h : Divides IsPiece bytes (piece :: pieces)) :
    Divides IsPiece pieces.flatten pieces :=
  ⟨rfl, fun c hc => h.pieces c (List.mem_cons_of_mem _ hc)⟩

/-- There are not more pieces than bytes. -/
theorem Divides.length_le (hne : ¬ IsPiece []) (h : Divides IsPiece bytes pieces) :
    pieces.length ≤ bytes.length := by
  induction pieces generalizing bytes with
  | nil => exact Nat.zero_le _
  | cons piece pieces ih =>
    have htail := ih h.tail
    have hpiece := h.pieces piece List.mem_cons_self
    rw [h.eq, List.flatten_cons, List.length_append, List.length_cons]
    cases piece with
    | nil => exact absurd hpiece hne
    | cons c piece =>
      rw [List.length_cons]
      omega

/-- The string in front of a terminator, with its first piece apart: the piece does not begin
with the terminator, and the rest has none. -/
theorem Divides.cons_str {piece : List UInt8} (hne : ¬ IsPiece [])
    (h : Divides IsPiece bytes (piece :: pieces)) (hnul : 0 ∉ bytes) :
    bytes ++ [0] = piece ++ (pieces.flatten ++ [0]) ∧
      (∃ c : UInt8, c ≠ 0 ∧ (piece ++ (pieces.flatten ++ [0]))[0]? = some c) ∧
        0 ∉ pieces.flatten := by
  have hmem : ∀ c : UInt8, c ∈ piece ∨ c ∈ pieces.flatten → c ∈ bytes := by
    intro c hc
    rw [h.eq, List.flatten_cons, List.mem_append]
    exact hc
  have hpiece := h.pieces piece List.mem_cons_self
  refine ⟨by rw [h.eq, List.flatten_cons, List.append_assoc], ?_,
    fun h0 => hnul (hmem 0 (.inr h0))⟩
  cases piece with
  | nil => exact absurd hpiece hne
  | cons c piece =>
    refine ⟨c, ?_, rfl⟩
    rintro rfl
    exact hnul (hmem 0 (.inl List.mem_cons_self))

/-! ## Loops -/

/-- How a loop over a string goes: it reads behind the terminator, needs more rounds, or is
at an end, with what its rounds have put out and a result. -/
inductive Scan (α ρ : Type)
  | overrun
  | running
  | finished (outputs : List α) (result : ρ)

/-- The same loop, with one more round in front. -/
def Scan.cons {α ρ : Type} (a : α) : Scan α ρ → Scan α ρ
  | overrun => overrun
  | running => running
  | finished outputs result => finished (a :: outputs) result

variable {α : Type}

/-- Some rounds of the loop `while (*str) str = step(str)`. -/
def scan (step : List UInt8 → Option (List UInt8 × α)) : ℕ → List UInt8 → Scan α Unit
  | 0, _ => .running
  | n + 1, str =>
    match str[0]? with
    | none => .overrun
    | some c =>
      if c = 0 then .finished [] ()
      else
        match step str with
        | none => .overrun
        | some (next, a) => (scan step n next).cons a

/-- The step takes just the pieces from the front of a string. -/
structure Reads (step : List UInt8 → Option (List UInt8 × α)) (IsPiece : List UInt8 → Prop)
    (value : List UInt8 → α) : Prop where
  not_nil : ¬ IsPiece []
  append : ∀ piece, IsPiece piece → ∀ rest, step (piece ++ rest) = some (rest, value piece)
  exists_piece : ∀ str next a, step str = some (next, a) →
    ∃ piece, IsPiece piece ∧ str = piece ++ next ∧ a = value piece

variable {step : List UInt8 → Option (List UInt8 × α)} {value : List UInt8 → α}

/-- The loop takes the pieces of a string one by one. -/
theorem scan_divides (hreads : Reads step IsPiece value) (h : Divides IsPiece bytes pieces)
    (hnul : 0 ∉ bytes) {n : ℕ} (hn : pieces.length < n) :
    scan step n (bytes ++ [0]) = .finished (pieces.map value) () := by
  induction pieces generalizing bytes n with
  | nil =>
    obtain ⟨n, rfl⟩ := Nat.exists_eq_add_of_le' hn
    rw [h.eq]
    rfl
  | cons piece pieces ih =>
    obtain ⟨n, rfl⟩ := Nat.exists_eq_add_of_le' (Nat.zero_lt_of_lt hn)
    obtain ⟨hstr, ⟨c, hc, hfirst⟩, hrest⟩ := h.cons_str hreads.not_nil hnul
    rw [hstr]
    simp only [scan, hfirst, hc, if_false,
      hreads.append piece (h.pieces piece List.mem_cons_self),
      ih h.tail hrest (Nat.lt_of_succ_lt_succ hn)]
    rfl

/-- If the loop comes to an end, what it has read divides into pieces. -/
theorem divides_of_scan (hreads : Reads step IsPiece value) {n : ℕ} {str : List UInt8}
    {outputs : List α} {result : Unit} (h : scan step n str = .finished outputs result) :
    ∃ (pieces : List (List UInt8)) (rest : List UInt8),
      str = pieces.flatten ++ 0 :: rest ∧ (∀ piece ∈ pieces, IsPiece piece) ∧
        outputs = pieces.map value := by
  induction n generalizing str outputs with
  | zero => exact absurd h (by simp [scan])
  | succ n ih =>
    unfold scan at h
    cases str with
    | nil => exact absurd h (by simp)
    | cons c tail =>
      rw [List.getElem?_cons_zero] at h
      dsimp only at h
      by_cases hzero : c = 0
      · rw [if_pos hzero] at h
        obtain ⟨rfl, -⟩ := Scan.finished.inj h
        exact ⟨[], tail, by rw [hzero]; rfl, by simp, rfl⟩
      · rw [if_neg hzero] at h
        cases hstep : step (c :: tail) with
        | none => exact absurd h (by simp [hstep])
        | some taken =>
          obtain ⟨next, a⟩ := taken
          rw [hstep] at h
          dsimp only at h
          cases hnext : scan step n next with
          | overrun => exact absurd h (by simp [hnext, Scan.cons])
          | running => exact absurd h (by simp [hnext, Scan.cons])
          | finished outputs' result' =>
            rw [hnext] at h
            obtain ⟨rfl, -⟩ := Scan.finished.inj h
            obtain ⟨pieces, rest, hstr, hpieces, houtputs⟩ := ih hnext
            obtain ⟨piece, hpiece, hsplit, ha⟩ := hreads.exists_piece _ _ _ hstep
            refine ⟨piece :: pieces, rest, ?_, ?_, ?_⟩
            · rw [hsplit, hstr, List.flatten_cons, List.append_assoc]
            · intro p hp
              rcases List.mem_cons.mp hp with rfl | hp
              · exact hpiece
              · exact hpieces p hp
            · rw [ha, houtputs, List.map_cons]

/-- The loop over a string comes to an end just if the string divides into pieces; then it
takes them one by one, whatever larger number of rounds it has. -/
theorem scan_iff (hreads : Reads step IsPiece value) (s : CString) (outputs : List α) :
    (∀ n, s.bytes.length < n → scan step n s.str = .finished outputs ()) ↔
      ∃ pieces, Divides IsPiece s.bytes pieces ∧ outputs = pieces.map value := by
  constructor
  · intro h
    obtain ⟨pieces, rest, hstr, hpieces, houtputs⟩ :=
      divides_of_scan hreads (h (s.bytes.length + 1) (Nat.lt_succ_self _))
    exact ⟨pieces, ⟨eq_of_append hstr, hpieces⟩, houtputs⟩
  · rintro ⟨pieces, hdivides, rfl⟩ n hn
    exact scan_divides hreads hdivides s.no_nul
      (Nat.lt_of_le_of_lt (hdivides.length_le hreads.not_nil) hn)

end CString
