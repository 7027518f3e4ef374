import Mathlib.Data.List.Basic
import Mathlib.Tactic.Common

/-!
# Quantum Painter - streams and the bytes they give

A memory stream gives its bytes one by one, and raises a flag when it is read past its end.  A
byte input callback takes bytes from a stream in its own way.

Main results:

- Definition {lit}`memGet`: the next byte of a memory stream.
- Definition {lit}`Gives`: what the next calls of a callback return.
- Theorem {lit}`uncompressed_gives`: the bytes of a stream as they are.
-/

namespace VialQmk
namespace Painter

/-! ## Memory streams -/

/-- {lit}`qp_memory_stream_t`, with a buffer of its {lit}`length` -/
structure MemStream where
  buffer : List UInt8
  position : ℕ
  isEof : Bool

/-- {lit}`STREAM_EOF` -/
def STREAM_EOF : Int := -1

/-- {lit}`mem_get` -/
def memGet (s : MemStream) : MemStream × Int :=
  match s.buffer[s.position]? with
  | none => ({ s with isEof := true }, STREAM_EOF)
  | some c => ({ s with position := s.position + 1 }, c.toNat)

/-- {lit}`qp_make_memory_stream` -/
def makeMemoryStream (buffer : List UInt8) : MemStream :=
  ⟨buffer, 0, false⟩

/-- Some bytes further on. -/
def MemStream.advance (s : MemStream) (n : ℕ) : MemStream :=
  { s with position := s.position + n }

/-- The bytes ahead. -/
def MemStream.ahead (s : MemStream) : List UInt8 :=
  s.buffer.drop s.position

@[simp]
theorem MemStream.advance_isEof (s : MemStream) (n : ℕ) : (s.advance n).isEof = s.isEof :=
  rfl

@[simp]
theorem MemStream.advance_position (s : MemStream) (n : ℕ) :
    (s.advance n).position = s.position + n :=
  rfl

@[simp]
theorem MemStream.advance_advance (s : MemStream) (m n : ℕ) :
    (s.advance m).advance n = s.advance (m + n) := by
  simp [advance, Nat.add_assoc]

@[simp]
theorem MemStream.advance_zero (s : MemStream) : s.advance 0 = s :=
  rfl

theorem MemStream.ahead_advance {s : MemStream} (bytes : List UInt8) {rest : List UInt8}
    (h : s.ahead = bytes ++ rest) : (s.advance bytes.length).ahead = rest := by
  have hdrop : (s.advance bytes.length).ahead = s.ahead.drop bytes.length := by
    simp [ahead, advance, List.drop_drop]
  rw [hdrop, h, List.drop_left]

/-- The next byte, when there is one. -/
theorem memGet_of_ahead {s : MemStream} {c : UInt8} {rest : List UInt8} (h : s.ahead = c :: rest) :
    memGet s = (s.advance 1, (c.toNat : Int)) := by
  have hc : s.buffer[s.position]? = some c := by
    rw [← List.head?_drop]
    exact congrArg List.head? h
  rw [memGet, hc]
  rfl

/-! ## Callbacks -/

section Callbacks

variable {σ : Type} {next : σ → σ × Int} {s s' s'' : σ} {bytes bytes' : List UInt8}

/-- A number of calls, and what they return. -/
def callTimes (next : σ → σ × Int) : ℕ → σ → σ × List Int
  | 0, s => (s, [])
  | n + 1, s =>
    let res := next s
    let later := callTimes next n res.1
    (later.1, res.2 :: later.2)

/-- The next calls return some bytes. -/
def Gives (next : σ → σ × Int) (s : σ) (bytes : List UInt8) (s' : σ) : Prop :=
  callTimes next bytes.length s = (s', bytes.map fun c => (c.toNat : Int))

theorem gives_nil : Gives next s [] s' ↔ s = s' := by
  simp [Gives, callTimes]

theorem gives_cons {c : UInt8} : Gives next s (c :: bytes) s' ↔
    (next s).2 = c.toNat ∧ Gives next (next s).1 bytes s' := by
  rw [Gives, Gives, List.length_cons, callTimes, List.map_cons, Prod.mk.injEq, List.cons.injEq,
    Prod.ext_iff]
  tauto

theorem Gives.append (h : Gives next s bytes s') (h' : Gives next s' bytes' s'') :
    Gives next s (bytes ++ bytes') s'' := by
  induction bytes generalizing s with
  | nil =>
    rw [gives_nil.mp h]
    exact h'
  | cons c bytes ih =>
    rw [gives_cons] at h
    rw [List.cons_append, gives_cons]
    exact ⟨h.1, ih h.2⟩

end Callbacks

/-! ## Plain bytes -/

/-- {lit}`enum qp_internal_rle_mode_t` -/
inductive RleMode
  | markerByte
  | repeatingRun
  | nonRepeatingRun
  deriving DecidableEq

/-- {lit}`qp_internal_byte_input_state_t` -/
structure InputState where
  srcStream : MemStream
  curr : Int
  mode : RleMode
  remain : UInt8

/-- {lit}`qp_drawimage_byte_uncompressed_decoder` -/
def byteUncompressedDecoder (s : InputState) : InputState × Int :=
  let data := memGet s.srcStream
  ({ s with srcStream := data.1, curr := data.2 }, data.2)

/-- The bytes of a stream as they are. -/
theorem uncompressed_gives {s : InputState} {bytes rest : List UInt8}
    (h : s.srcStream.ahead = bytes ++ rest) :
    ∃ s', Gives byteUncompressedDecoder s bytes s' ∧
      s'.srcStream = s.srcStream.advance bytes.length := by
  induction bytes generalizing s with
  | nil => exact ⟨s, gives_nil.mpr rfl, rfl⟩
  | cons c bytes ih =>
    have hget : byteUncompressedDecoder s =
        ({ s with srcStream := s.srcStream.advance 1, curr := c.toNat }, (c.toNat : Int)) := by
      rw [byteUncompressedDecoder, memGet_of_ahead h]
    have hnext : (s.srcStream.advance 1).ahead = bytes ++ rest :=
      MemStream.ahead_advance [c] h
    rcases ih (s := { s with srcStream := s.srcStream.advance 1, curr := c.toNat }) hnext with
      ⟨s', hgives, hstream⟩
    refine ⟨s', ?_, ?_⟩
    · rw [gives_cons, hget]
      exact ⟨rfl, hgives⟩
    · rw [hstream, MemStream.advance_advance, List.length_cons, Nat.add_comm]

end Painter
end VialQmk
