import Mathlib.Data.Int.Notation
import Mathlib.Data.Nat.Bitwise
import VialQmk.Library.CString

/-!
# Decoding UTF-8

{lit}`decode_utf8` takes as many bytes as the first one announces, and looks at no more than
that first byte to do so.

Main results:

- Theorem {lit}`decodeUtf8_append`: the decoder takes one sequence from the front.
- Theorem {lit}`decodeUtf8_utf8EncodeChar`: the encoding of a character is decoded as that
  character.
- Theorem {lit}`safeAndExact_iff`: the loops over a string stay in the string, and are exact,
  just for the strings that divide into whole sequences, and which are well-formed or have a
  sequence that is refused.
-/

namespace VialQmk
namespace Utf8

open CString

/-! ## Strings -/

/-- A string is well-formed if it is made of the encodings of characters, which are scalar
values. -/
def Encodes (s : CString) (chars : List Char) : Prop :=
  s.bytes = chars.flatMap String.utf8EncodeChar

def WellFormed (s : CString) : Prop :=
  ∃ chars, Encodes s chars

/-! ## The decoder -/

/-- A byte without its leading bits, shifted into its place in the code point. -/
def payload (c mask : UInt8) (shift : ℕ) : ℕ :=
  (c &&& mask).toNat <<< shift

/-- `decode_utf8`: the pointer behind the sequence, and the code point. -/
def decodeUtf8 (str : List UInt8) : Option (List UInt8 × ℤ) := do
  let c0 ← str[0]?
  let (next, codePoint) ←
    if c0 < 0x80 then -- U+0000-007F
      some (str.drop 1, (c0.toNat : ℤ))
    else if c0 &&& 0xE0 = 0xC0 then do -- U+0080-07FF
      let c1 ← str[1]?
      some (str.drop 2, ((payload c0 0x1F 6 ||| payload c1 0x3F 0 : ℕ) : ℤ))
    else if c0 &&& 0xF0 = 0xE0 then do -- U+0800-FFFF
      let c1 ← str[1]?
      let c2 ← str[2]?
      some (str.drop 3,
        ((payload c0 0x0F 12 ||| payload c1 0x3F 6 ||| payload c2 0x3F 0 : ℕ) : ℤ))
    else if c0 &&& 0xF8 = 0xF0 ∧ c0 ≤ 0xF4 then do -- U+10000-10FFFF
      let c1 ← str[1]?
      let c2 ← str[2]?
      let c3 ← str[3]?
      some (str.drop 4,
        ((payload c0 0x07 18 ||| payload c1 0x3F 12 ||| payload c2 0x3F 6 |||
          payload c3 0x3F 0 : ℕ) : ℤ))
    else
      some (str.drop 1, -1)
  -- Half of a surrogate pair is no code point.
  some (next, if 0xD800 ≤ codePoint ∧ codePoint ≤ 0xDFFF then -1 else codePoint)

/-! ## The loops -/

/-- `send_unicode_string`, for some rounds: the code points it decodes.  Those that are not
negative are registered. -/
def sendUnicodeString (n : ℕ) (str : List UInt8) : Scan ℤ Unit :=
  scan decodeUtf8 n str

/-- What drawing needs for each code point: the width of its glyph, if the font has it, and
the handler, which may fail. -/
structure Drawing (σ : Type) where
  prepareGlyphForRender : σ → ℤ → Option UInt8 × σ
  handler : σ → ℤ → UInt8 → Bool × σ

/-- `qp_iterate_code_points`, for some rounds. -/
def qpIterateCodePoints {σ : Type} (d : Drawing σ) : ℕ → List UInt8 → σ → Scan ℤ (Bool × σ)
  | 0, _, _ => .running
  | n + 1, str, s =>
    match str[0]? with
    | none => .overrun
    | some c =>
      if c = 0 then .finished [] (true, s)
      else
        match decodeUtf8 str with
        | none => .overrun
        | some (next, codePoint) =>
          if codePoint < 0 then .finished [codePoint] (false, s)
          else
            match d.prepareGlyphForRender s codePoint with
            | (none, s) => .finished [codePoint] (false, s)
            | (some width, s) =>
              match d.handler s codePoint width with
              | (false, s) => .finished [codePoint] (false, s)
              | (true, s) => (qpIterateCodePoints d n next s).cons codePoint

/-! ## Sequences -/

/-- How many bytes a first byte announces. -/
def sequenceLength (c0 : UInt8) : ℕ :=
  if c0 < 0x80 then 1
  else if c0 &&& 0xE0 = 0xC0 then 2
  else if c0 &&& 0xF0 = 0xE0 then 3
  else if c0 &&& 0xF8 = 0xF0 ∧ c0 ≤ 0xF4 then 4
  else 1

/-- The bytes a first byte announces. -/
def IsSequence : List UInt8 → Prop
  | [] => False
  | c0 :: tail => tail.length + 1 = sequenceLength c0

/-- The code point of a sequence, by its bytes. -/
def codePointOf : List UInt8 → ℤ
  | [c0] => if c0 < 0x80 then c0.toNat else -1
  | [c0, c1] => (c0.toNat % 32 * 64 + c1.toNat % 64 : ℕ)
  | [c0, c1, c2] =>
    if c0.toNat % 16 = 13 ∧ 32 ≤ c1.toNat % 64 then -1
    else (c0.toNat % 16 * 4096 + c1.toNat % 64 * 64 + c2.toNat % 64 : ℕ)
  | [c0, c1, c2, c3] =>
    if c0.toNat % 8 = 0 ∧ c1.toNat % 64 = 13 ∧ 32 ≤ c2.toNat % 64 then -1
    else (c0.toNat % 8 * 262144 + c1.toNat % 64 * 4096 + c2.toNat % 64 * 64 + c3.toNat % 64 : ℕ)
  | _ => 0

/-- The sequences that are refused: a byte that cannot be the first one, and what has the
bits of half a surrogate pair. -/
def Refused : List UInt8 → Prop
  | [c0] => 0x80 ≤ c0
  | [c0, c1, _] => c0 = 0xED ∧ 0x20 ≤ c1 &&& 0x3F
  | [c0, c1, c2, _] => c0 = 0xF0 ∧ c1 &&& 0x3F = 0x0D ∧ 0x20 ≤ c2 &&& 0x3F
  | _ => False

/-! ## The code point of a sequence -/

theorem sequenceLength_eq (c : UInt8) :
    sequenceLength c =
      if c.toNat < 0xC0 then 1 else if c.toNat < 0xE0 then 2 else if c.toNat < 0xF0 then 3
      else if c.toNat < 0xF5 then 4 else 1 := by
  have hall : ∀ n, n < 256 → sequenceLength (UInt8.ofNat n) =
      if n < 0xC0 then 1 else if n < 0xE0 then 2 else if n < 0xF0 then 3
      else if n < 0xF5 then 4 else 1 := by
    decide +kernel
  simpa using hall c.toNat (UInt8.toNat_lt c)

/-- Six more bits are put below those that are there. -/
theorem or_sextet (a b n : ℕ) : a * 2 ^ (n + 6) ||| b % 64 * 2 ^ n = (a * 64 + b % 64) * 2 ^ n := by
  have hlow : b % 64 * 2 ^ n < 2 ^ (n + 6) := by
    rw [Nat.pow_add, Nat.mul_comm (2 ^ n)]
    exact Nat.mul_lt_mul_of_pos_right (Nat.mod_lt _ (by decide)) (Nat.two_pow_pos n)
  rw [← Nat.shiftLeft_eq, ← Nat.shiftLeft_add_eq_or_of_lt hlow, Nat.shiftLeft_eq, Nat.add_mul,
    Nat.pow_add, Nat.mul_comm (2 ^ n), ← Nat.mul_assoc]

theorem payload_eq (bits : ℕ) (c : UInt8) {mask : UInt8} (shift : ℕ)
    (hmask : mask.toNat = 2 ^ bits - 1) :
    payload c mask shift = c.toNat % 2 ^ bits * 2 ^ shift := by
  rw [payload, UInt8.toNat_and, hmask, Nat.and_two_pow_sub_one_eq_mod, Nat.shiftLeft_eq]

theorem codePoint_two (c0 c1 : UInt8) :
    payload c0 0x1F 6 ||| payload c1 0x3F 0 = c0.toNat % 32 * 64 + c1.toNat % 64 := by
  rw [payload_eq 5 c0 6 rfl, payload_eq 6 c1 0 rfl]
  exact (or_sextet _ _ 0).trans (Nat.mul_one _)

theorem codePoint_three (c0 c1 c2 : UInt8) :
    payload c0 0x0F 12 ||| payload c1 0x3F 6 ||| payload c2 0x3F 0 =
      c0.toNat % 16 * 4096 + c1.toNat % 64 * 64 + c2.toNat % 64 := by
  rw [payload_eq 4 c0 12 rfl, payload_eq 6 c1 6 rfl,
    payload_eq 6 c2 0 rfl]
  have hhigh := or_sextet (c0.toNat % 2 ^ 4) c1.toNat 6
  have hlow := or_sextet (c0.toNat % 2 ^ 4 * 64 + c1.toNat % 64) c2.toNat 0
  refine ((congrArg (· ||| c2.toNat % 64 * 2 ^ 0) hhigh).trans hlow).trans ?_
  clear hhigh hlow
  omega

theorem codePoint_four (c0 c1 c2 c3 : UInt8) :
    payload c0 0x07 18 ||| payload c1 0x3F 12 ||| payload c2 0x3F 6 ||| payload c3 0x3F 0 =
      c0.toNat % 8 * 262144 + c1.toNat % 64 * 4096 + c2.toNat % 64 * 64 + c3.toNat % 64 := by
  rw [payload_eq 3 c0 18 rfl, payload_eq 6 c1 12 rfl,
    payload_eq 6 c2 6 rfl, payload_eq 6 c3 0 rfl]
  have hhigh := or_sextet (c0.toNat % 2 ^ 3) c1.toNat 12
  have hmid := or_sextet (c0.toNat % 2 ^ 3 * 64 + c1.toNat % 64) c2.toNat 6
  have hlow := or_sextet ((c0.toNat % 2 ^ 3 * 64 + c1.toNat % 64) * 64 + c2.toNat % 64) c3.toNat 0
  refine ((congrArg (· ||| c2.toNat % 64 * 2 ^ 6 ||| c3.toNat % 64 * 2 ^ 0) hhigh).trans
    ((congrArg (· ||| c3.toNat % 64 * 2 ^ 0) hmid).trans hlow)).trans ?_
  clear hhigh hmid hlow
  omega

/-- The decoder takes a whole sequence from the front. -/
theorem decodeUtf8_append {chunk : List UInt8} (h : IsSequence chunk) (rest : List UInt8) :
    decodeUtf8 (chunk ++ rest) = some (rest, codePointOf chunk) := by
  obtain _ | ⟨c0, tail⟩ := chunk
  · exact absurd h id
  have hlt := UInt8.toNat_lt c0
  have hlength : tail.length + 1 = sequenceLength c0 := h
  unfold sequenceLength at hlength
  unfold decodeUtf8
  simp only [List.cons_append, List.getElem?_cons_zero, Option.bind_eq_bind, Option.bind_some]
  by_cases hone : c0 < 0x80
  · rw [if_pos hone] at hlength ⊢
    obtain rfl : tail = [] := List.length_eq_zero_iff.mp (by omega)
    have hsmall : ¬ (0xD800 ≤ (c0.toNat : ℤ) ∧ (c0.toNat : ℤ) ≤ 0xDFFF) := by omega
    simp only [List.nil_append, List.drop_one, List.tail_cons, codePointOf, if_pos hone]
    rw [if_neg hsmall]
  rw [if_neg hone] at hlength ⊢
  by_cases htwo : c0 &&& 0xE0 = 0xC0
  · rw [if_pos htwo] at hlength ⊢
    obtain ⟨c1, rfl⟩ := List.length_eq_one_iff.mp (show tail.length = 1 by omega)
    simp only [List.cons_append, List.nil_append, List.getElem?_cons_succ,
      List.getElem?_cons_zero, Option.bind_some, codePoint_two, codePointOf]
    rw [if_neg (by omega)]
    rfl
  rw [if_neg htwo] at hlength ⊢
  by_cases hthree : c0 &&& 0xF0 = 0xE0
  · rw [if_pos hthree] at hlength ⊢
    obtain ⟨c1, c2, rfl⟩ := List.length_eq_two.mp (show tail.length = 2 by omega)
    simp only [List.cons_append, List.nil_append, List.getElem?_cons_succ,
      List.getElem?_cons_zero, Option.bind_some, codePoint_three, codePointOf]
    have hsurrogate : (0xD800 ≤
        ((c0.toNat % 16 * 4096 + c1.toNat % 64 * 64 + c2.toNat % 64 : ℕ) : ℤ) ∧
        ((c0.toNat % 16 * 4096 + c1.toNat % 64 * 64 + c2.toNat % 64 : ℕ) : ℤ) ≤ 0xDFFF) ↔
        (c0.toNat % 16 = 13 ∧ 32 ≤ c1.toNat % 64) := by omega
    simp only [hsurrogate]
    rfl
  rw [if_neg hthree] at hlength ⊢
  by_cases hfour : c0 &&& 0xF8 = 0xF0 ∧ c0 ≤ 0xF4
  · rw [if_pos hfour] at hlength ⊢
    obtain ⟨c1, c2, c3, rfl⟩ := List.length_eq_three.mp (show tail.length = 3 by omega)
    simp only [List.cons_append, List.nil_append, List.getElem?_cons_succ,
      List.getElem?_cons_zero, Option.bind_some, codePoint_four, codePointOf]
    have hsurrogate : (0xD800 ≤ ((c0.toNat % 8 * 262144 + c1.toNat % 64 * 4096 +
        c2.toNat % 64 * 64 + c3.toNat % 64 : ℕ) : ℤ) ∧
        ((c0.toNat % 8 * 262144 + c1.toNat % 64 * 4096 + c2.toNat % 64 * 64 +
          c3.toNat % 64 : ℕ) : ℤ) ≤ 0xDFFF) ↔
        (c0.toNat % 8 = 0 ∧ c1.toNat % 64 = 13 ∧ 32 ≤ c2.toNat % 64) := by omega
    simp only [hsurrogate]
    rfl
  rw [if_neg hfour] at hlength ⊢
  obtain rfl : tail = [] := List.length_eq_zero_iff.mp (by omega)
  simp [codePointOf, hone]

/-- A sequence that is cut off cannot be decoded. -/
theorem decodeUtf8_cut {c0 : UInt8} {tail : List UInt8}
    (h : tail.length + 1 < sequenceLength c0) : decodeUtf8 (c0 :: tail) = none := by
  unfold sequenceLength at h
  unfold decodeUtf8
  simp only [List.getElem?_cons_zero, Option.bind_eq_bind, Option.bind_some]
  by_cases hone : c0 < 0x80
  · rw [if_pos hone] at h
    omega
  rw [if_neg hone] at h ⊢
  by_cases htwo : c0 &&& 0xE0 = 0xC0
  · rw [if_pos htwo] at h ⊢
    have hlast : (c0 :: tail)[1]? = none := List.getElem?_eq_none (by rw [List.length_cons]; omega)
    rw [hlast]
    rfl
  rw [if_neg htwo] at h ⊢
  by_cases hthree : c0 &&& 0xF0 = 0xE0
  · rw [if_pos hthree] at h ⊢
    have hlast : (c0 :: tail)[2]? = none := List.getElem?_eq_none (by rw [List.length_cons]; omega)
    cases (c0 :: tail)[1]? <;> simp [hlast]
  rw [if_neg hthree] at h ⊢
  by_cases hfour : c0 &&& 0xF8 = 0xF0 ∧ c0 ≤ 0xF4
  · rw [if_pos hfour] at h ⊢
    have hlast : (c0 :: tail)[3]? = none := List.getElem?_eq_none (by rw [List.length_cons]; omega)
    cases (c0 :: tail)[1]? <;> cases (c0 :: tail)[2]? <;> simp [hlast]
  rw [if_neg hfour] at h
  omega

theorem sequenceLength_pos (c0 : UInt8) : 0 < sequenceLength c0 := by
  rw [sequenceLength_eq]
  split_ifs <;> decide

/-- What is decoded is the sequence in front of the next pointer. -/
theorem exists_sequence {str next : List UInt8} {codePoint : ℤ}
    (h : decodeUtf8 str = some (next, codePoint)) :
    ∃ chunk, IsSequence chunk ∧ str = chunk ++ next ∧ codePoint = codePointOf chunk := by
  cases str with
  | nil => exact absurd h (by simp [decodeUtf8])
  | cons c0 tail =>
    have hpos := sequenceLength_pos c0
    have hwhole : sequenceLength c0 ≤ tail.length + 1 := by
      by_contra hcut
      rw [decodeUtf8_cut (by omega)] at h
      exact absurd h (by simp)
    have hchunk : IsSequence (c0 :: tail.take (sequenceLength c0 - 1)) := by
      simp only [IsSequence, List.length_take]
      omega
    have hsplit : c0 :: tail = (c0 :: tail.take (sequenceLength c0 - 1)) ++
        tail.drop (sequenceLength c0 - 1) := by
      simp
    have hdecoded := decodeUtf8_append hchunk (tail.drop (sequenceLength c0 - 1))
    rw [← hsplit, h, Option.some_inj, Prod.mk.injEq] at hdecoded
    exact ⟨_, hchunk, hdecoded.1 ▸ hsplit, hdecoded.2⟩

/-- The decoder always advances. -/
theorem decodeUtf8_advances {str next : List UInt8} {codePoint : ℤ}
    (h : decodeUtf8 str = some (next, codePoint)) : next <:+ str ∧ next.length < str.length := by
  obtain ⟨chunk, hchunk, rfl, -⟩ := exists_sequence h
  refine ⟨List.suffix_append chunk next, ?_⟩
  obtain _ | ⟨c0, tail⟩ := chunk
  · exact absurd hchunk id
  · rw [List.length_append, List.length_cons]
    omega

/-- A natural number is neither negative nor the value of a refused sequence. -/
theorem natCast_not_neg (n : ℕ) : ¬ (n : ℤ) < 0 ∧ ((n : ℤ) < 0 ↔ (n : ℤ) = -1) :=
  ⟨by omega, iff_of_false (by omega) (by omega)⟩

/-- A sequence has no code point just if it is refused. -/
theorem codePointOf_neg {chunk : List UInt8} (h : IsSequence chunk) :
    (codePointOf chunk < 0 ↔ Refused chunk) ∧ (codePointOf chunk < 0 ↔ codePointOf chunk = -1) := by
  have hmask : ∀ c : UInt8, (c &&& 0x3F).toNat = c.toNat % 64 := by
    intro c
    rw [UInt8.toNat_and]
    exact Nat.and_two_pow_sub_one_eq_mod _ 6
  match chunk, h with
  | [c0], h =>
    simp only [codePointOf, Refused]
    split_ifs with hone
    · refine ⟨iff_of_false (natCast_not_neg _).1 ?_, iff_of_false (natCast_not_neg _).1 id⟩
      exact UInt8.not_le.mpr hone
    · exact ⟨iff_of_true (by decide) (UInt8.not_lt.mp hone), by decide⟩
  | [c0, c1], h =>
    simp only [codePointOf, Refused]
    exact ⟨iff_of_false (natCast_not_neg _).1 id, (natCast_not_neg _).2⟩
  | [c0, c1, c2], h =>
    have hrange : 0xE0 ≤ c0.toNat ∧ c0.toNat < 0xF0 := by
      have hlength : 3 = sequenceLength c0 := h
      rw [sequenceLength_eq] at hlength
      split_ifs at hlength <;> omega
    simp only [codePointOf, Refused]
    have hlead : c0 = 0xED ↔ c0.toNat % 16 = 13 := by
      rw [← UInt8.toNat_inj]
      have : (0xED : UInt8).toNat = 237 := rfl
      omega
    have hsecond : 0x20 ≤ c1 &&& 0x3F ↔ 32 ≤ c1.toNat % 64 := by
      rw [UInt8.le_iff_toNat_le, hmask]
      exact Iff.rfl
    rw [hlead, hsecond]
    split_ifs with hrefused
    · exact ⟨by simp [hrefused], by decide⟩
    · exact ⟨iff_of_false (natCast_not_neg _).1 hrefused, iff_of_false (natCast_not_neg _).1 id⟩
  | [c0, c1, c2, c3], h =>
    have hrange : 0xF0 ≤ c0.toNat ∧ c0.toNat < 0xF5 := by
      have hlength : 4 = sequenceLength c0 := h
      rw [sequenceLength_eq] at hlength
      split_ifs at hlength <;> omega
    simp only [codePointOf, Refused]
    have hlead : c0 = 0xF0 ↔ c0.toNat % 8 = 0 := by
      rw [← UInt8.toNat_inj]
      have : (0xF0 : UInt8).toNat = 240 := rfl
      omega
    have hsecond : c1 &&& 0x3F = 0x0D ↔ c1.toNat % 64 = 13 := by
      rw [← UInt8.toNat_inj, hmask]
      exact Iff.rfl
    have hthird : 0x20 ≤ c2 &&& 0x3F ↔ 32 ≤ c2.toNat % 64 := by
      rw [UInt8.le_iff_toNat_le, hmask]
      exact Iff.rfl
    rw [hlead, hsecond, hthird]
    split_ifs with hrefused
    · exact ⟨by simp [hrefused], by decide⟩
    · exact ⟨iff_of_false (natCast_not_neg _).1 hrefused, iff_of_false (natCast_not_neg _).1 id⟩
  | c0 :: c1 :: c2 :: c3 :: c4 :: tail, h =>
    have hlength : tail.length + 5 = sequenceLength c0 := h
    rw [sequenceLength_eq] at hlength
    split_ifs at hlength <;> omega

/-! ## Characters -/

/-- The encoding of a character is one sequence, whose code point is the character. -/
theorem codePointOf_utf8EncodeChar (c : Char) :
    IsSequence (String.utf8EncodeChar c) ∧
      codePointOf (String.utf8EncodeChar c) = (c.toNat : ℤ) := by
  have hvalid : c.toNat < 0xD800 ∨ 0xDFFF < c.toNat ∧ c.toNat < 0x110000 := c.valid
  have hval : c.val.toNat = c.toNat := rfl
  have hbyte : ∀ n, n < 256 → (UInt8.ofNat n).toNat = n :=
    fun n hn => UInt8.toNat_ofNat_of_lt' hn
  unfold String.utf8EncodeChar
  simp only [hval]
  split_ifs with hone htwo hthree
  · have hsmall : UInt8.ofNat c.toNat < 0x80 := by
      rw [UInt8.lt_iff_toNat_lt, hbyte _ (by omega)]
      exact Nat.lt_succ_of_le hone
    simp only [IsSequence, sequenceLength_eq, codePointOf]
    rw [if_pos hsmall, hbyte _ (by omega), if_pos (by omega)]
    exact ⟨rfl, rfl⟩
  · simp only [IsSequence, sequenceLength_eq, codePointOf, List.length_cons, List.length_nil]
    rw [hbyte _ (by omega), hbyte _ (by omega), if_neg (by omega), if_pos (by omega)]
    exact ⟨rfl, by omega⟩
  · simp only [IsSequence, sequenceLength_eq, codePointOf, List.length_cons, List.length_nil]
    rw [hbyte _ (by omega), hbyte _ (by omega), hbyte _ (by omega), if_neg (by omega),
      if_neg (by omega), if_pos (by omega), if_neg (by omega)]
    exact ⟨rfl, by omega⟩
  · simp only [IsSequence, sequenceLength_eq, codePointOf, List.length_cons, List.length_nil]
    rw [hbyte _ (by omega), hbyte _ (by omega), hbyte _ (by omega), hbyte _ (by omega),
      if_neg (by omega), if_neg (by omega), if_neg (by omega), if_pos (by omega),
      if_neg (by omega)]
    exact ⟨rfl, by omega⟩

/-! ## Whole strings -/

/-- The decoder reads sequences. -/
theorem reads_decodeUtf8 : Reads decodeUtf8 IsSequence codePointOf where
  not_nil := id
  append := fun _ hpiece rest => decodeUtf8_append hpiece rest
  exists_piece := fun _ _ _ h => exists_sequence h

/-- The code points of well-formed strings are their characters. -/
theorem divides_of_encodes {s : CString} {chars : List Char} (h : Encodes s chars) :
    Divides IsSequence s.bytes (chars.map String.utf8EncodeChar) ∧
      (chars.map String.utf8EncodeChar).map codePointOf = chars.map fun c => (c.toNat : ℤ) := by
  refine ⟨⟨?_, ?_⟩, ?_⟩
  · rw [h, List.flatMap_def]
  · intro chunk hchunk
    obtain ⟨c, -, rfl⟩ := List.mem_map.mp hchunk
    exact (codePointOf_utf8EncodeChar c).1
  · rw [List.map_map]
    apply List.map_congr_left
    intro c hc
    exact (codePointOf_utf8EncodeChar c).2

/-- Code points up to the first one that is refused. -/
def upToRefusal : List ℤ → List ℤ
  | [] => []
  | c :: cs => if c < 0 then [c] else c :: upToRefusal cs

theorem upToRefusal_eq {codePoints : List ℤ} (h : ∀ c ∈ codePoints, 0 ≤ c) :
    upToRefusal codePoints = codePoints := by
  induction codePoints with
  | nil => rfl
  | cons c cs ih =>
    have hc := h c List.mem_cons_self
    rw [upToRefusal, if_neg (by omega), ih fun d hd => h d (List.mem_cons_of_mem c hd)]

theorem mem_upToRefusal {codePoints : List ℤ} (hneg : ∀ c ∈ codePoints, c < 0 → c = -1)
    (h : -1 ∈ codePoints) : -1 ∈ upToRefusal codePoints := by
  induction codePoints with
  | nil => exact absurd h (by simp)
  | cons c cs ih =>
    unfold upToRefusal
    split_ifs with hc
    · rw [hneg c List.mem_cons_self hc]
      exact List.mem_cons_self
    · rcases List.mem_cons.mp h with rfl | h
      · exact absurd (by decide) hc
      · exact List.mem_cons_of_mem c (ih (fun d hd => hneg d (List.mem_cons_of_mem c hd)) h)

/-- All glyphs are there and are drawn. -/
def Drawing.Ready {σ : Type} (d : Drawing σ) : Prop :=
  ∀ s codePoint, (d.prepareGlyphForRender s codePoint).1.isSome ∧
    ∀ width, (d.handler s codePoint width).1 = true

/-- Drawing decodes the sequences of a string one by one, up to one that is refused. -/
theorem qpIterateCodePoints_divides {σ : Type} (d : Drawing σ) {bytes : List UInt8}
    {chunks : List (List UInt8)} (h : Divides IsSequence bytes chunks) (hnul : 0 ∉ bytes) (s : σ) :
    ∃ decoded result, (∀ n, chunks.length < n →
        qpIterateCodePoints d n (bytes ++ [0]) s = .finished decoded result) ∧
      (d.Ready → decoded = upToRefusal (chunks.map codePointOf)) := by
  induction chunks generalizing bytes s with
  | nil =>
    refine ⟨[], (true, s), ?_, fun _ => rfl⟩
    intro n hn
    obtain ⟨n, rfl⟩ := Nat.exists_eq_add_of_le' hn
    rw [h.eq]
    rfl
  | cons chunk chunks ih =>
    have hchunk := h.pieces chunk List.mem_cons_self
    obtain ⟨hbytes, ⟨c0, hne, hfirst⟩, hrestNul⟩ := h.cons_str reads_decodeUtf8.not_nil hnul
    -- One round, for any number of rounds that are left.
    have hround : ∀ n, qpIterateCodePoints d (n + 1) (bytes ++ [0]) s =
        if codePointOf chunk < 0 then .finished [codePointOf chunk] (false, s)
        else
          match d.prepareGlyphForRender s (codePointOf chunk) with
          | (none, s) => .finished [codePointOf chunk] (false, s)
          | (some width, s) =>
            match d.handler s (codePointOf chunk) width with
            | (false, s) => .finished [codePointOf chunk] (false, s)
            | (true, s) =>
              (qpIterateCodePoints d n (chunks.flatten ++ [0]) s).cons (codePointOf chunk) := by
      intro n
      rw [hbytes]
      simp only [qpIterateCodePoints, hfirst, hne, if_false, decodeUtf8_append hchunk]
    have hstop : ∀ (s' : σ), (∀ n, qpIterateCodePoints d (n + 1) (bytes ++ [0]) s =
        .finished [codePointOf chunk] (false, s')) → ∀ n, (chunk :: chunks).length < n →
        qpIterateCodePoints d n (bytes ++ [0]) s =
          .finished [codePointOf chunk] (false, s') := by
      intro s' hs n hn
      obtain ⟨n, rfl⟩ := Nat.exists_eq_add_of_le' (Nat.zero_lt_of_lt hn)
      exact hs n
    rw [List.map_cons]
    unfold upToRefusal
    by_cases hneg : codePointOf chunk < 0
    · simp only [hneg, if_true] at hround ⊢
      exact ⟨_, _, hstop s hround, fun _ => rfl⟩
    simp only [hneg, if_false] at hround ⊢
    cases hglyph : d.prepareGlyphForRender s (codePointOf chunk) with
    | mk glyph s₁ =>
      simp only [hglyph] at hround
      cases glyph with
      | none =>
        refine ⟨_, _, hstop s₁ hround, fun hready => ?_⟩
        exact absurd (hready s (codePointOf chunk)).1 (by simp [hglyph])
      | some width =>
        cases hdraw : d.handler s₁ (codePointOf chunk) width with
        | mk ok s₂ =>
          simp only [hdraw] at hround
          cases ok with
          | false =>
            refine ⟨_, _, hstop s₂ hround, fun hready => ?_⟩
            exact absurd ((hready s₁ (codePointOf chunk)).2 width) (by simp [hdraw])
          | true =>
            obtain ⟨decoded, result, hrest, hready⟩ :=
              ih h.tail hrestNul s₂
            refine ⟨codePointOf chunk :: decoded, result, ?_, fun hr => by rw [hready hr]⟩
            intro n hn
            obtain ⟨n, rfl⟩ := Nat.exists_eq_add_of_le' (Nat.zero_lt_of_lt hn)
            rw [hround n]
            dsimp only
            rw [hrest n (Nat.lt_of_succ_lt_succ hn)]
            rfl

/-! ## Safety and exactness -/

/-- The decoded code points are those of the string if it is well-formed, and one of them is
refused if it is not. -/
structure Exact (s : CString) (decoded : List ℤ) : Prop where
  chars : ∀ chars, Encodes s chars → decoded = chars.map fun c => (c.toNat : ℤ)
  refused : ¬ WellFormed s → -1 ∈ decoded

/-- The loops over a string advance, come to an end within the string, and decode it
exactly. -/
structure SafeAndExact (s : CString) : Prop where
  advances : ∀ str next codePoint, str <:+ s.str → decodeUtf8 str = some (next, codePoint) →
    next <:+ str ∧ next.length < str.length
  send : ∃ decoded, (∀ n, s.bytes.length < n →
      sendUnicodeString n s.str = .finished decoded ()) ∧ Exact s decoded
  draw : ∀ (σ : Type) (d : Drawing σ) (state : σ), ∃ decoded result, (∀ n, s.bytes.length < n →
      qpIterateCodePoints d n s.str state = .finished decoded result) ∧
    (d.Ready → Exact s decoded)

/-- The string divides into whole sequences, and is well-formed or has one that is refused. -/
def Regular (s : CString) : Prop :=
  ∃ chunks, Divides IsSequence s.bytes chunks ∧ (WellFormed s ∨ ∃ chunk ∈ chunks, Refused chunk)

/-- The sequences of a string are unique, so are its code points. -/
theorem codePoints_unique {s : CString} {chunks chunks' : List (List UInt8)}
    (h : Divides IsSequence s.bytes chunks) (h' : Divides IsSequence s.bytes chunks') :
    chunks.map codePointOf = chunks'.map codePointOf := by
  have hscan := (scan_iff reads_decodeUtf8 s _).mpr ⟨chunks, h, rfl⟩
  have hscan' := (scan_iff reads_decodeUtf8 s _).mpr ⟨chunks', h', rfl⟩
  have heq := (hscan _ (Nat.lt_succ_self _)).symm.trans (hscan' _ (Nat.lt_succ_self _))
  exact (Scan.finished.inj heq).1

/-- The code points of a regular string are exact. -/
theorem exact_of_divides {s : CString} {chunks : List (List UInt8)}
    (h : Divides IsSequence s.bytes chunks)
    (hregular : WellFormed s ∨ ∃ chunk ∈ chunks, Refused chunk) :
    Exact s (chunks.map codePointOf) where
  chars := by
    intro chars hchars
    obtain ⟨hdivides, hmap⟩ := divides_of_encodes hchars
    rw [codePoints_unique h hdivides, hmap]
  refused := by
    intro hill
    obtain hwell | ⟨chunk, hchunk, hrefused⟩ := hregular
    · exact absurd hwell hill
    · obtain ⟨hneg, hone⟩ := codePointOf_neg (h.pieces chunk hchunk)
      exact List.mem_map.mpr ⟨chunk, hchunk, hone.mp (hneg.mpr hrefused)⟩

/-- What is exact stays so up to a refused code point. -/
theorem Exact.upToRefusal {s : CString} {decoded : List ℤ} (h : Exact s decoded)
    (hneg : ∀ c ∈ decoded, c < 0 → c = -1) : Exact s (upToRefusal decoded) where
  chars := by
    intro chars hchars
    rw [h.chars chars hchars]
    apply upToRefusal_eq
    intro c hc
    obtain ⟨char, -, rfl⟩ := List.mem_map.mp hc
    exact Int.natCast_nonneg _
  refused := fun hill => mem_upToRefusal hneg (h.refused hill)

/-- The loops over a string are safe and exact just for regular strings. -/
theorem safeAndExact_iff (s : CString) : SafeAndExact s ↔ Regular s := by
  constructor
  · intro h
    obtain ⟨decoded, hsend, hexact⟩ := h.send
    obtain ⟨chunks, hdivides, hdecoded⟩ := (scan_iff reads_decodeUtf8 s decoded).mp hsend
    refine ⟨chunks, hdivides, ?_⟩
    by_cases hwell : WellFormed s
    · exact .inl hwell
    · have hmem := hexact.refused hwell
      rw [hdecoded] at hmem
      obtain ⟨chunk, hchunk, hcode⟩ := List.mem_map.mp hmem
      exact .inr ⟨chunk, hchunk, (codePointOf_neg (hdivides.pieces chunk hchunk)).1.mp (by omega)⟩
  · rintro ⟨chunks, hdivides, hregular⟩
    have hexact := exact_of_divides hdivides hregular
    have hlength := hdivides.length_le reads_decodeUtf8.not_nil
    refine ⟨fun _ _ _ _ hdecode => decodeUtf8_advances hdecode, ⟨_, ?_, hexact⟩, ?_⟩
    · exact (scan_iff reads_decodeUtf8 s _).mpr ⟨chunks, hdivides, rfl⟩
    · intro σ d state
      obtain ⟨decoded, result, hdraw, hready⟩ :=
        qpIterateCodePoints_divides d hdivides s.no_nul state
      refine ⟨decoded, result, fun n hn => hdraw n (by omega), fun hr => ?_⟩
      rw [hready hr]
      refine hexact.upToRefusal ?_
      intro c hc hneg
      obtain ⟨chunk, hchunk, rfl⟩ := List.mem_map.mp hc
      exact (codePointOf_neg (hdivides.pieces chunk hchunk)).2.mp hneg

/-- A string that ends in the first byte of a longer sequence. -/
def cutString : CString where
  bytes := [0xE2]
  no_nul := by decide

/-- The loop reads behind the terminator of a string that is cut off. -/
theorem not_safeAndExact_cutString : ¬ ∀ s : CString, SafeAndExact s := by
  intro h
  obtain ⟨decoded, hsend, -⟩ := (h cutString).send
  have hrun := hsend 2 (by decide)
  have hover : sendUnicodeString 2 cutString.str = .overrun := rfl
  rw [hover] at hrun
  exact absurd hrun (by simp)

end Utf8
end VialQmk
