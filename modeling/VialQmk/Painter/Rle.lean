import VialQmk.Painter.Stream

/-!
# Quantum Painter - run lengths

A marker byte below 128 is followed by a byte that is repeated that many times, and one from 128
on by so many bytes less 127.  {lit}`compress_bytes_qmk_rle` collects bytes in {lit}`temp` until a
run or a sequence without one is over; {lit}`qp_drawimage_byte_rle_decoder` gives one byte a
call.

Main results:

- Definition {lit}`Run`: what is between two marker bytes.
- Theorem {lit}`compressBytesQmkRle_encodes`: the compressed bytes are those of runs of the data,
  and there may be a marker byte of none at the end.
- Theorem {lit}`rle_gives`: the decoder gives the data of the runs.
- Theorem {lit}`encode_gives`: what has been compressed or not is given back, and no byte after it
  is read.
-/

namespace VialQmk
namespace Painter

/-! ## The encoder -/

/-- A byte of {lit}`bytes(..)`, which takes the numbers below 256. -/
def toByte (n : ℕ) : Option UInt8 :=
  if n < 256 then some n.toUInt8 else none

/-- The variables of {lit}`compress_bytes_qmk_rle` -/
structure Encoder where
  output : List UInt8
  temp : List UInt8
  isRepeat : Bool

/-- {lit}`append_range` -/
def appendRange (output r : List UInt8) : Option (List UInt8) :=
  (toByte (127 + r.length)).map fun c => output ++ c :: r

/-- One round of the loop in {lit}`compress_bytes_qmk_rle`, with the byte at {lit}`n` unless this
is the end.  A subscript that is out of range raises an error. -/
def encodeRound (s : Encoder) (c : Option UInt8) : Option Encoder :=
  let isEnd := c.isNone
  let temp := s.temp ++ c.toList
  if isEnd = false ∧ temp.length ≤ 1 then some { s with temp := temp }
  else if s.isRepeat = true then do
    let last ← temp.getLast?
    let previous ← temp.dropLast.getLast?
    let first ← temp.head?
    if last ≠ previous ∨ temp.length = 128 ∨ isEnd = true then do
      let count ← toByte (if isEnd = true then temp.length else temp.length - 1)
      some ⟨s.output ++ [count, first], [last], false⟩
    else some ⟨s.output, temp, true⟩
  else if 2 ≤ temp.length ∧ temp.getLast? = temp.dropLast.getLast? then
    if 2 < temp.length then do
      let output ← appendRange s.output (temp.take (temp.length - 2))
      let last ← temp.getLast?
      some ⟨output, [last, last], true⟩
    else some ⟨s.output, temp, true⟩
  else if temp.length = 128 ∨ isEnd = true then do
    let output ← appendRange s.output temp
    some ⟨output, [], false⟩
  else some ⟨s.output, temp, false⟩

/-- {lit}`compress_bytes_qmk_rle` -/
def compressBytesQmkRle (bytearray : List UInt8) : Option (List UInt8) := do
  let s ← bytearray.foldlM (fun s c => encodeRound s (some c)) ⟨[], [], false⟩
  let s ← encodeRound s none
  some s.output

/-! ## The decoder -/

/-- The part of {lit}`qp_drawimage_byte_rle_decoder` for the marker byte -/
def readMarker (s : InputState) : InputState :=
  let marker := memGet s.srcStream
  let c := UInt8.ofInt marker.2
  let data := memGet marker.1
  if 128 ≤ c then ⟨data.1, data.2, .nonRepeatingRun, c - 127⟩
  else ⟨data.1, data.2, .repeatingRun, c⟩

/-- The rest of {lit}`qp_drawimage_byte_rle_decoder` -/
def nextByte (s : InputState) : InputState × Int :=
  let c := UInt8.ofInt s.curr
  let remain := s.remain - 1
  if 0 < remain then
    if s.mode = .nonRepeatingRun then
      let data := memGet s.srcStream
      (⟨data.1, data.2, s.mode, remain⟩, c.toNat)
    else ({ s with remain := remain }, c.toNat)
  else ({ s with remain := remain, mode := .markerByte }, c.toNat)

/-- {lit}`qp_drawimage_byte_rle_decoder` -/
def byteRleDecoder (s : InputState) : InputState × Int :=
  nextByte (if s.mode = .markerByte then readMarker s else s)

/-- {lit}`qp_internal_prepare_input_state`: the callback for {lit}`IMAGE_UNCOMPRESSED` or
{lit}`IMAGE_COMPRESSED_RLE`. -/
def prepareInputState (s : InputState) (compression : UInt8) :
    Option ((InputState → InputState × Int) × InputState) :=
  if compression = 0 then some (byteUncompressedDecoder, s)
  else if compression = 1 then some (byteRleDecoder, { s with mode := .markerByte, remain := 0 })
  else none

/-- The state that {lit}`qp_drawimage_recolor_impl` begins with -/
def inputState (stream : MemStream) : InputState :=
  ⟨stream, 0, .markerByte, 0⟩

/-! ## Runs -/

/-- What is between two marker bytes. -/
inductive Run
  | repeating (count : ℕ) (c : UInt8)
  | nonRepeating (bytes : List UInt8)

/-- What a run stands for. -/
def Run.data : Run → List UInt8
  | .repeating count c => List.replicate count c
  | .nonRepeating bytes => bytes

/-- A run with its marker byte. -/
def Run.bytes : Run → List UInt8
  | .repeating count c => [count.toUInt8, c]
  | .nonRepeating bytes => (127 + bytes.length).toUInt8 :: bytes

/-- A run whose marker byte says how long it is. -/
def Run.Fits : Run → Prop
  | .repeating count _ => 1 ≤ count ∧ count ≤ 127
  | .nonRepeating bytes => 1 ≤ bytes.length ∧ bytes.length ≤ 128

/-! ## Decoding runs -/

section Decoding

variable {s : MemStream} {c : UInt8} {n : ℕ} {bytes rest : List UInt8}

theorem ofInt_toNat (c : UInt8) : UInt8.ofInt (c.toNat : Int) = c := by
  have hlt : c.toNat < 2 ^ 8 := c.toNat_lt
  have hmod : ((c.toNat : Int) % 2 ^ 8).toNat = c.toNat := by omega
  rw [UInt8.ofInt, hmod, UInt8.ofNat_toNat]

theorem toUInt8_sub_one (hn : 1 ≤ n) (hle : n ≤ 128) : n.toUInt8 - 1 = (n - 1).toUInt8 := by
  apply UInt8.toNat_inj.mp
  rw [UInt8.toNat_sub_of_le]
  · simp only [Nat.toUInt8, UInt8.toNat_ofNat', UInt8.toNat_one]
    omega
  · rw [UInt8.le_iff_toNat_le]
    simp only [Nat.toUInt8, UInt8.toNat_ofNat', UInt8.toNat_one]
    omega

theorem toUInt8_pos_iff (hle : n ≤ 128) : 0 < n.toUInt8 ↔ 0 < n := by
  rw [UInt8.lt_iff_toNat_lt]
  simp only [Nat.toUInt8, UInt8.toNat_ofNat', UInt8.toNat_zero]
  omega

theorem byteRleDecoder_of_ne {s : InputState} (hmode : s.mode ≠ .markerByte) :
    byteRleDecoder s = nextByte s :=
  congrArg nextByte (if_neg hmode)

theorem byteRleDecoder_repeatingRun (curr : Int) (remain : UInt8) :
    byteRleDecoder ⟨s, curr, .repeatingRun, remain⟩ = nextByte ⟨s, curr, .repeatingRun, remain⟩ :=
  rfl

theorem byteRleDecoder_nonRepeatingRun (curr : Int) (remain : UInt8) :
    byteRleDecoder ⟨s, curr, .nonRepeatingRun, remain⟩ =
      nextByte ⟨s, curr, .nonRepeatingRun, remain⟩ :=
  rfl

/-- The last byte of a run. -/
theorem nextByte_last (mode : RleMode) :
    nextByte ⟨s, c.toNat, mode, 1⟩ = (⟨s, c.toNat, .markerByte, 0⟩, (c.toNat : Int)) := by
  have hzero : ¬ 0 < (1 : UInt8) - 1 := by decide
  rw [nextByte, ofInt_toNat]
  dsimp only
  rw [if_neg hzero]
  rfl

/-- The rest of a repeated byte. -/
theorem repeating_gives (hn : 1 ≤ n) (hle : n ≤ 128) :
    Gives byteRleDecoder ⟨s, c.toNat, .repeatingRun, n.toUInt8⟩ (List.replicate n c)
      ⟨s, c.toNat, .markerByte, 0⟩ := by
  induction n with
  | zero => omega
  | succ n ih =>
    rw [List.replicate_succ, gives_cons, byteRleDecoder_repeatingRun]
    rcases Nat.eq_zero_or_pos n with rfl | hpos
    · have hlast := @nextByte_last s c .repeatingRun
      exact ⟨congrArg Prod.snd hlast, gives_nil.mpr (congrArg Prod.fst hlast)⟩
    · have hsub : (n + 1).toUInt8 - 1 = n.toUInt8 := toUInt8_sub_one hn hle
      have hnext : nextByte ⟨s, c.toNat, .repeatingRun, (n + 1).toUInt8⟩ =
          (⟨s, c.toNat, .repeatingRun, n.toUInt8⟩, (c.toNat : Int)) := by
        rw [nextByte, ofInt_toNat]
        dsimp only
        rw [hsub, if_pos ((toUInt8_pos_iff (by omega)).mpr hpos)]
        exact if_neg (by decide)
      rw [hnext]
      exact ⟨rfl, ih hpos (by omega)⟩

/-- The rest of bytes that are not repeated. -/
theorem nonRepeating_gives (hle : bytes.length + 1 ≤ 128) (hs : s.ahead = bytes ++ rest) :
    ∃ s', Gives byteRleDecoder ⟨s, c.toNat, .nonRepeatingRun, (bytes.length + 1).toUInt8⟩
      (c :: bytes) s' ∧ s'.srcStream = s.advance bytes.length ∧ s'.mode = .markerByte := by
  induction bytes generalizing s c with
  | nil =>
    refine ⟨⟨s, c.toNat, .markerByte, 0⟩, ?_, rfl, rfl⟩
    rw [gives_cons, byteRleDecoder_nonRepeatingRun]
    have hlast := @nextByte_last s c .nonRepeatingRun
    exact ⟨congrArg Prod.snd hlast, gives_nil.mpr (congrArg Prod.fst hlast)⟩
  | cons c' bytes ih =>
    rw [List.length_cons] at hle
    have hnext : nextByte ⟨s, c.toNat, .nonRepeatingRun, (bytes.length + 1 + 1).toUInt8⟩ =
        (⟨s.advance 1, c'.toNat, .nonRepeatingRun, (bytes.length + 1).toUInt8⟩,
          (c.toNat : Int)) := by
      have hpos : 0 < (bytes.length + 1).toUInt8 :=
        (toUInt8_pos_iff (by omega)).mpr (Nat.succ_pos _)
      have hsub : (bytes.length + 1 + 1).toUInt8 - 1 = (bytes.length + 1).toUInt8 :=
        toUInt8_sub_one (by omega) hle
      have hget : memGet s = (s.advance 1, (c'.toNat : Int)) := memGet_of_ahead hs
      rw [nextByte, ofInt_toNat]
      dsimp only
      rw [hsub, if_pos hpos, if_pos rfl, hget]
    rcases ih (c := c') (by omega) (MemStream.ahead_advance [c'] hs) with
      ⟨s', hgives, hstream, hmode⟩
    refine ⟨s', ?_, ?_, hmode⟩
    · rw [gives_cons, List.length_cons, byteRleDecoder_nonRepeatingRun, hnext]
      exact ⟨rfl, hgives⟩
    · rw [hstream, MemStream.advance_advance, List.length_singleton, List.length_cons,
        Nat.add_comm]

/-- The first call of a run, once its marker byte has been read. -/
theorem gives_of_readMarker {s s' t : InputState} (hmode : s.mode = .markerByte)
    (hread : readMarker s = t) (ht : t.mode ≠ .markerByte)
    (hgives : Gives byteRleDecoder t (c :: bytes) s') : Gives byteRleDecoder s (c :: bytes) s' := by
  rw [gives_cons, byteRleDecoder_of_ne ht, ← hread] at hgives
  rw [gives_cons, byteRleDecoder, if_pos hmode]
  exact hgives

/-- A run. -/
theorem run_gives {s : InputState} {r : Run} (hr : r.Fits) (hmode : s.mode = .markerByte)
    (hs : s.srcStream.ahead = r.bytes ++ rest) :
    ∃ s', Gives byteRleDecoder s r.data s' ∧ s'.srcStream = s.srcStream.advance r.bytes.length ∧
      s'.mode = .markerByte := by
  cases r with
  | repeating n c =>
    rcases hr with ⟨hpos, hle⟩
    have hmarker : memGet s.srcStream = (s.srcStream.advance 1, (n.toUInt8.toNat : Int)) :=
      memGet_of_ahead hs
    have hdata : memGet (s.srcStream.advance 1) = (s.srcStream.advance 2, (c.toNat : Int)) :=
      memGet_of_ahead (MemStream.ahead_advance [n.toUInt8] hs)
    have hread : readMarker s = ⟨s.srcStream.advance 2, c.toNat, .repeatingRun, n.toUInt8⟩ := by
      have hsmall : ¬ 128 ≤ n.toUInt8 := by
        rw [UInt8.le_iff_toNat_le]
        simp only [Nat.toUInt8, UInt8.toNat_ofNat', UInt8.toNat_ofNat]
        omega
      rw [readMarker, hmarker]
      dsimp only
      rw [ofInt_toNat, if_neg hsmall, hdata]
    refine ⟨⟨s.srcStream.advance 2, c.toNat, .markerByte, 0⟩, ?_, rfl, rfl⟩
    have hgives := @repeating_gives (s.srcStream.advance 2) c n hpos (by omega)
    rcases Nat.exists_eq_succ_of_ne_zero (Nat.ne_of_gt hpos) with ⟨k, rfl⟩
    exact gives_of_readMarker hmode hread nofun hgives
  | nonRepeating bytes =>
    rcases hr with ⟨hpos, hle⟩
    cases bytes with
    | nil => exact absurd hpos (by simp)
    | cons c bytes =>
      rw [List.length_cons] at hle
      have hmarker : memGet s.srcStream =
          (s.srcStream.advance 1, ((127 + (bytes.length + 1)).toUInt8.toNat : Int)) :=
        memGet_of_ahead hs
      have hrest : (s.srcStream.advance 1).ahead = c :: bytes ++ rest :=
        MemStream.ahead_advance [(127 + (bytes.length + 1)).toUInt8] hs
      have hdata : memGet (s.srcStream.advance 1) = (s.srcStream.advance 2, (c.toNat : Int)) :=
        memGet_of_ahead hrest
      have hread : readMarker s =
          ⟨s.srcStream.advance 2, c.toNat, .nonRepeatingRun, (bytes.length + 1).toUInt8⟩ := by
        have hlarge : 128 ≤ (127 + (bytes.length + 1)).toUInt8 := by
          rw [UInt8.le_iff_toNat_le]
          simp only [Nat.toUInt8, UInt8.toNat_ofNat', UInt8.toNat_ofNat]
          omega
        have hsub : (127 + (bytes.length + 1)).toUInt8 - 127 = (bytes.length + 1).toUInt8 := by
          apply UInt8.toNat_inj.mp
          rw [UInt8.toNat_sub_of_le]
          · simp only [Nat.toUInt8, UInt8.toNat_ofNat', UInt8.toNat_ofNat]
            omega
          · rw [UInt8.le_iff_toNat_le]
            simp only [Nat.toUInt8, UInt8.toNat_ofNat', UInt8.toNat_ofNat]
            omega
        rw [readMarker, hmarker]
        dsimp only
        rw [ofInt_toNat, if_pos hlarge, hdata, hsub]
      rcases nonRepeating_gives (c := c) hle (MemStream.ahead_advance [c] hrest) with
        ⟨s', hgives, hstream, hmode'⟩
      refine ⟨s', gives_of_readMarker hmode hread nofun hgives, ?_, hmode'⟩
      have hlength : 1 + 1 + bytes.length = (Run.nonRepeating (c :: bytes)).bytes.length := by
        simp only [Run.bytes, List.length_cons]
        omega
      rw [hstream, ← hlength, ← MemStream.advance_advance, ← MemStream.advance_advance]
      rfl

/-- Some runs. -/
theorem rle_gives {runs : List Run} (hruns : ∀ r ∈ runs, r.Fits) {s : InputState}
    (hmode : s.mode = .markerByte) (hs : s.srcStream.ahead = runs.flatMap Run.bytes ++ rest) :
    ∃ s', Gives byteRleDecoder s (runs.flatMap Run.data) s' ∧
      s'.srcStream = s.srcStream.advance (runs.flatMap Run.bytes).length := by
  induction runs generalizing s with
  | nil => exact ⟨s, gives_nil.mpr rfl, rfl⟩
  | cons r runs ih =>
    rw [List.flatMap_cons, List.append_assoc] at hs
    rcases run_gives (hruns r List.mem_cons_self) hmode hs with ⟨t, hgives, hstream, hmode'⟩
    have ht : t.srcStream.ahead = runs.flatMap Run.bytes ++ rest := by
      rw [hstream]
      exact MemStream.ahead_advance _ hs
    rcases ih (fun r hmem => hruns r (List.mem_cons_of_mem _ hmem)) hmode' ht with
      ⟨s', hgives', hstream'⟩
    refine ⟨s', ?_, ?_⟩
    · rw [List.flatMap_cons]
      exact hgives.append hgives'
    · rw [hstream', hstream, MemStream.advance_advance, List.flatMap_cons, List.length_append]

end Decoding

/-! ## Encoding -/

section Encoding

variable {output temp data : List UInt8} {c x : UInt8} {n : ℕ}

theorem toByte_of_lt (hn : n < 256) : toByte n = some n.toUInt8 :=
  if_pos hn

theorem appendRange_of_le (hle : temp.length ≤ 128) :
    appendRange output temp = some (output ++ (127 + temp.length).toUInt8 :: temp) := by
  rw [appendRange, toByte_of_lt (by omega), Option.map_some]

/-- The first byte is kept. -/
theorem encodeRound_first (output : List UInt8) (c : UInt8) :
    encodeRound ⟨output, [], false⟩ (some c) = some ⟨output, [c], false⟩ :=
  rfl

/-- Another byte after a repeated one. -/
theorem encodeRound_repeat (hn : 2 ≤ n) (hle : n ≤ 127) :
    encodeRound ⟨output, List.replicate n x, true⟩ (some c) =
      if c = x ∧ n ≠ 127 then some ⟨output, List.replicate (n + 1) x, true⟩
      else some ⟨output ++ [n.toUInt8, x], [c], false⟩ := by
  have hlast : (List.replicate n x ++ [c]).dropLast.getLast? = some x := by
    rw [List.dropLast_concat, List.getLast?_replicate, if_neg (by omega)]
  have hfirst : (List.replicate n x ++ [c]).head? = some x := by
    rw [List.head?_append, List.head?_replicate, if_neg (by omega), Option.some_or]
  have hcount : toByte n = some n.toUInt8 := toByte_of_lt (by omega)
  have hlength : ¬ n + 1 ≤ 1 := by omega
  have hfull : n + 1 = 128 ↔ n = 127 := by omega
  simp only [encodeRound, Option.toList_some, Option.isNone_some, List.length_append,
    List.length_replicate, List.length_singleton, hlength, and_false, if_false, if_true,
    List.getLast?_concat, hlast, hfirst, Option.bind_eq_bind, Option.bind_some, hfull,
    Bool.false_eq_true, or_false, Nat.add_sub_cancel, hcount]
  by_cases hsame : c = x ∧ n ≠ 127
  · rw [if_pos hsame, if_neg (by tauto), hsame.1, List.replicate_succ']
  · rw [if_neg hsame, if_pos (by tauto)]

/-- Another byte after some that are not repeated. -/
theorem encodeRound_literal (hle : temp.length + 1 ≤ 127) :
    encodeRound ⟨output, temp ++ [x], false⟩ (some c) =
      if x = c then
        if temp = [] then some ⟨output, [c, c], true⟩
        else some ⟨output ++ (127 + temp.length).toUInt8 :: temp, [c, c], true⟩
      else if temp.length + 2 = 128 then
        some ⟨output ++ (127 + 128 : ℕ).toUInt8 :: (temp ++ [x, c]), [], false⟩
      else some ⟨output, temp ++ [x, c], false⟩ := by
  have hlist : temp ++ [x] ++ [c] = temp ++ [x, c] := by simp
  have hlast : (temp ++ [x, c]).getLast? = some c := by simp
  have hprevious : (temp ++ [x, c]).dropLast.getLast? = some x := by
    rw [← hlist, List.dropLast_concat, List.getLast?_concat]
  have htake : (temp ++ [x, c]).take (temp.length + 2 - 2) = temp := by simp
  have hlength : ¬ temp.length + 2 ≤ 1 := by omega
  have htwo : 2 ≤ temp.length + 2 := by omega
  have hmore : 2 < temp.length + 2 ↔ ¬ temp = [] := by
    rw [← List.length_eq_zero_iff]
    omega
  simp only [encodeRound, Option.toList_some, Option.isNone_some, hlist, List.length_append,
    List.length_cons, List.length_nil, Nat.zero_add, Nat.reduceAdd, hlength, and_false, if_false,
    Bool.false_eq_true, hlast, hprevious, htwo, true_and, hmore, Option.some_inj, or_false, htake]
  by_cases hsame : x = c
  · rw [if_pos hsame.symm, if_pos hsame]
    by_cases hnil : temp = []
    · rw [if_neg (not_not.mpr hnil), if_pos hnil, hnil, hsame]
      rfl
    · rw [if_pos hnil, if_neg hnil, appendRange_of_le (by omega)]
      rfl
  · rw [if_neg (Ne.symm hsame), if_neg hsame]
    by_cases hfull : temp.length + 2 = 128
    · have hall : (temp ++ [x, c]).length = 128 := by simpa using hfull
      rw [if_pos hfull, if_pos hfull, appendRange_of_le (Nat.le_of_eq hall), hall]
      rfl
    · rw [if_neg hfull, if_neg hfull]

/-- The end after a repeated byte. -/
theorem encodeRound_end_repeat (hn : 2 ≤ n) (hle : n ≤ 127) :
    encodeRound ⟨output, List.replicate n x, true⟩ none =
      some ⟨output ++ [n.toUInt8, x], [x], false⟩ := by
  have hlast : (List.replicate n x).getLast? = some x := by
    rw [List.getLast?_replicate, if_neg (by omega)]
  have hprevious : (List.replicate n x).dropLast.getLast? = some x := by
    rw [List.dropLast_replicate, List.getLast?_replicate, if_neg (by omega)]
  have hfirst : (List.replicate n x).head? = some x := by
    rw [List.head?_replicate, if_neg (by omega)]
  have hcount : toByte n = some n.toUInt8 := toByte_of_lt (by omega)
  simp only [encodeRound, Option.toList_none, Option.isNone_none, List.append_nil,
    Bool.true_eq_false, false_and, if_false, if_true, hlast, hprevious, hfirst,
    Option.bind_eq_bind, Option.bind_some, or_true, List.length_replicate, hcount]

/-- The end after some bytes that are not repeated. -/
theorem encodeRound_end_literal (hle : temp.length ≤ 127)
    (hdiffer : ∀ before x y, temp = before ++ [x, y] → x ≠ y) :
    encodeRound ⟨output, temp, false⟩ none =
      some ⟨output ++ (127 + temp.length).toUInt8 :: temp, [], false⟩ := by
  have hdiffer' : ¬ (2 ≤ temp.length ∧ temp.getLast? = temp.dropLast.getLast?) := by
    rintro ⟨hlength, hsame⟩
    rcases List.eq_nil_or_concat' temp with rfl | ⟨l, y, rfl⟩
    · simp at hlength
    · rcases List.eq_nil_or_concat' l with rfl | ⟨before, x, rfl⟩
      · simp at hlength
      · simp only [List.getLast?_concat, List.dropLast_concat, Option.some_inj] at hsame
        exact hdiffer before x y (by simp) hsame.symm
  simp only [encodeRound, Option.toList_none, Option.isNone_none, List.append_nil,
    Bool.true_eq_false, Bool.false_eq_true, false_and, if_false, hdiffer', or_true, if_true,
    appendRange_of_le (show temp.length ≤ 128 by omega), Option.bind_eq_bind, Option.bind_some]

/-- The output is that of runs. -/
def Encodes (output data : List UInt8) : Prop :=
  ∃ runs : List Run, (∀ r ∈ runs, r.Fits) ∧ output = runs.flatMap Run.bytes ∧
    data = runs.flatMap Run.data

theorem Encodes.append (h : Encodes output data) {r : Run} (hr : r.Fits) :
    Encodes (output ++ r.bytes) (data ++ r.data) := by
  rcases h with ⟨runs, hruns, rfl, rfl⟩
  refine ⟨runs ++ [r], ?_, by simp, by simp⟩
  intro r' hmem
  rcases List.mem_append.mp hmem with hold | hnew
  · exact hruns r' hold
  · rw [List.mem_singleton.mp hnew]
    exact hr

/-- Between two rounds: {lit}`temp` holds a repeated byte, or bytes the last two of which
differ. -/
structure EncoderInv (s : Encoder) (data : List UInt8) : Prop where
  past : ∃ past, data = past ++ s.temp ∧ Encodes s.output past
  repeating : s.isRepeat = true → ∃ n x, 2 ≤ n ∧ n ≤ 127 ∧ s.temp = List.replicate n x
  nonRepeating : s.isRepeat = false →
    s.temp.length ≤ 127 ∧ ∀ before x y, s.temp = before ++ [x, y] → x ≠ y

theorem encoderInv_init : EncoderInv ⟨[], [], false⟩ [] := by
  refine ⟨⟨[], rfl, [], by simp, rfl, rfl⟩, nofun, fun _ => ⟨Nat.zero_le _, ?_⟩⟩
  intro before x y hnil
  simp at hnil

/-- One byte starts afresh. -/
theorem encoderInv_singleton {past : List UInt8} (hpast : Encodes output past) (c : UInt8) :
    EncoderInv ⟨output, [c], false⟩ (past ++ [c]) := by
  refine ⟨⟨past, rfl, hpast⟩, nofun, fun _ => ⟨by simp, ?_⟩⟩
  intro before x y hlist
  have hlength := congrArg List.length hlist
  simp at hlength

/-- A byte after a repeated one. -/
theorem EncoderInv.round_repeat {past : List UInt8} (hpast : Encodes output past) (hn : 2 ≤ n)
    (hle : n ≤ 127) (c : UInt8) :
    ∃ s', encodeRound ⟨output, List.replicate n x, true⟩ (some c) = some s' ∧
      EncoderInv s' (past ++ List.replicate n x ++ [c]) := by
  rw [encodeRound_repeat hn hle]
  by_cases hgoes : c = x ∧ n ≠ 127
  · rw [if_pos hgoes]
    refine ⟨_, rfl, ⟨past, ?_, hpast⟩, fun _ => ⟨n + 1, x, by omega, by omega, rfl⟩, nofun⟩
    rw [hgoes.1, List.append_assoc, List.replicate_succ']
  · rw [if_neg hgoes]
    exact ⟨_, rfl, encoderInv_singleton (hpast.append (r := .repeating n x) ⟨by omega, hle⟩) c⟩

/-- A byte after some that are not repeated. -/
theorem EncoderInv.round_literal {past : List UInt8} (hpast : Encodes output past)
    (hle : temp.length + 1 ≤ 127) (c : UInt8) :
    ∃ s', encodeRound ⟨output, temp ++ [x], false⟩ (some c) = some s' ∧
      EncoderInv s' (past ++ (temp ++ [x]) ++ [c]) := by
  rw [encodeRound_literal hle]
  by_cases hsame : x = c
  · subst hsame
    rw [if_pos rfl]
    by_cases hnil : temp = []
    · rw [if_pos hnil]
      refine ⟨_, rfl, ⟨past, ?_, hpast⟩, fun _ => ⟨2, x, Nat.le_refl 2, by omega, rfl⟩, nofun⟩
      simp [hnil]
    · rw [if_neg hnil]
      have hpos : 1 ≤ temp.length := List.length_pos_iff.mpr hnil
      refine ⟨_, rfl, ⟨past ++ temp, ?_, ?_⟩, fun _ => ⟨2, x, Nat.le_refl 2, by omega, rfl⟩, nofun⟩
      · simp
      · exact hpast.append (r := .nonRepeating temp) ⟨hpos, by omega⟩
  · rw [if_neg hsame]
    by_cases hfull : temp.length + 2 = 128
    · rw [if_pos hfull]
      have hall : (temp ++ [x, c]).length = 128 := by simpa using hfull
      refine ⟨_, rfl, ⟨past ++ (temp ++ [x, c]), by simp, ?_⟩, nofun, fun _ => ⟨by simp, ?_⟩⟩
      · have hrun := hpast.append (r := .nonRepeating (temp ++ [x, c])) ⟨by omega, by omega⟩
        simp only [Run.bytes, hall] at hrun
        exact hrun
      · intro before y z hlist
        simp at hlist
    · rw [if_neg hfull]
      refine ⟨_, rfl, ⟨past, by simp, hpast⟩, nofun, fun _ => ⟨?_, ?_⟩⟩
      · simp only [List.length_append, List.length_cons, List.length_nil]
        omega
      · intro before y z hlist
        rcases List.append_inj' hlist rfl with ⟨-, hpair⟩
        rw [List.cons.injEq, List.cons.injEq] at hpair
        rw [← hpair.1, ← hpair.2.1]
        exact hsame

theorem EncoderInv.round {s : Encoder} (h : EncoderInv s data) (c : UInt8) :
    ∃ s', encodeRound s (some c) = some s' ∧ EncoderInv s' (data ++ [c]) := by
  rcases s with ⟨output, temp, isRepeat⟩
  rcases h.past with ⟨past, rfl, hpast⟩
  cases isRepeat with
  | true =>
    rcases h.repeating rfl with ⟨n, x, hn, hle, htemp⟩
    dsimp only at htemp
    rw [htemp]
    exact EncoderInv.round_repeat hpast hn hle c
  | false =>
    rcases h.nonRepeating rfl with ⟨hle, -⟩
    rcases List.eq_nil_or_concat' temp with rfl | ⟨temp, x, rfl⟩
    · refine ⟨_, encodeRound_first output c, ?_⟩
      rw [List.append_nil]
      exact encoderInv_singleton hpast c
    · rw [List.length_append, List.length_singleton] at hle
      exact EncoderInv.round_literal hpast hle c

/-- The end.  What is left is a run, or nothing, which leaves a marker byte behind. -/
theorem EncoderInv.finish {s : Encoder} (h : EncoderInv s data) :
    ∃ s' rest compressed, encodeRound s none = some s' ∧ s'.output = compressed ++ rest ∧
      rest.length ≤ 1 ∧ Encodes compressed data := by
  rcases s with ⟨output, temp, isRepeat⟩
  rcases h.past with ⟨past, rfl, hpast⟩
  cases isRepeat with
  | true =>
    rcases h.repeating rfl with ⟨n, x, hn, hle, htemp⟩
    dsimp only at htemp
    rw [htemp]
    refine ⟨_, [], _, encodeRound_end_repeat hn hle, (List.append_nil _).symm, Nat.zero_le 1, ?_⟩
    exact hpast.append (r := .repeating n x) ⟨by omega, hle⟩
  | false =>
    rcases h.nonRepeating rfl with ⟨hle, hdiffer⟩
    have hround := @encodeRound_end_literal output temp hle hdiffer
    dsimp only at hle hround ⊢
    by_cases hnil : temp = []
    · subst hnil
      refine ⟨_, _, output, hround, rfl, Nat.le_refl 1, ?_⟩
      rw [List.append_nil]
      exact hpast
    · refine ⟨_, [], _, hround, (List.append_nil _).symm, Nat.zero_le 1, ?_⟩
      exact hpast.append (r := .nonRepeating temp) ⟨List.length_pos_iff.mpr hnil, by omega⟩

theorem EncoderInv.rounds {s : Encoder} (h : EncoderInv s data) (bytes : List UInt8) :
    ∃ s', bytes.foldlM (fun s c => encodeRound s (some c)) s = some s' ∧
      EncoderInv s' (data ++ bytes) := by
  induction bytes generalizing s data with
  | nil => exact ⟨s, rfl, (List.append_nil data).symm ▸ h⟩
  | cons c bytes ih =>
    rcases h.round c with ⟨t, ht, hinv⟩
    rcases ih hinv with ⟨s', hs', hinv'⟩
    refine ⟨s', ?_, ?_⟩
    · rw [List.foldlM_cons, ht]
      exact hs'
    · rw [List.append_assoc, List.singleton_append] at hinv'
      exact hinv'

/-- The compressed bytes are those of runs, and a marker byte may be left. -/
theorem compressBytesQmkRle_encodes (bytes : List UInt8) :
    ∃ compressed rest, compressBytesQmkRle bytes = some (compressed ++ rest) ∧ rest.length ≤ 1 ∧
      Encodes compressed bytes := by
  rcases encoderInv_init.rounds bytes with ⟨s, hs, hinv⟩
  rcases hinv.finish with ⟨s', rest, compressed, hs', houtput, hrest, hencodes⟩
  refine ⟨compressed, rest, ?_, hrest, hencodes⟩
  rw [compressBytesQmkRle, hs]
  simp only [Option.bind_eq_bind, Option.bind_some, hs', houtput]

/-- A run has a byte at least for its marker byte. -/
theorem Encodes.length_le (h : Encodes output data) : output.length ≤ 2 * data.length := by
  rcases h with ⟨runs, hruns, rfl, rfl⟩
  induction runs with
  | nil => exact Nat.le_refl 0
  | cons r runs ih =>
    have hr : r.bytes.length ≤ 2 * r.data.length := by
      cases r with
      | repeating count c =>
        have hfits := (hruns _ List.mem_cons_self).1
        rw [Run.data, List.length_replicate]
        change 2 ≤ 2 * count
        omega
      | nonRepeating bytes =>
        have hfits := (hruns _ List.mem_cons_self).1
        rw [Run.bytes, Run.data, List.length_cons]
        omega
    have hlater := ih fun r hmem => hruns r (List.mem_cons_of_mem _ hmem)
    rw [List.flatMap_cons, List.flatMap_cons, List.length_append, List.length_append]
    omega

theorem compressBytesQmkRle_length {bytes compressed : List UInt8}
    (h : compressBytesQmkRle bytes = some compressed) :
    compressed.length ≤ 2 * bytes.length + 1 := by
  rcases compressBytesQmkRle_encodes bytes with ⟨runs, rest, hcompress, hrest, hencodes⟩
  rw [hcompress, Option.some.injEq] at h
  have hle := hencodes.length_le
  rw [← h, List.length_append]
  omega

end Encoding

/-! ## Both ways -/

/-- Data that may be compressed, with the byte that says so. -/
def encode (useRle : Bool) (bytes : List UInt8) : Option (UInt8 × List UInt8) :=
  if useRle = true then (compressBytesQmkRle bytes).map fun data => (1, data) else some (0, bytes)

/-- The callback that is prepared for some data gives the bytes they stand for, and reads no
others. -/
theorem encode_gives (useRle : Bool) (bytes : List UInt8) :
    ∃ compression data, encode useRle bytes = some (compression, data) ∧
      ∀ stream rest, MemStream.ahead stream = data ++ rest →
        ∃ next s s' n, prepareInputState (inputState stream) compression = some (next, s) ∧
          Gives next s bytes s' ∧ n ≤ data.length ∧ s'.srcStream = stream.advance n := by
  cases useRle with
  | true =>
    rcases compressBytesQmkRle_encodes bytes with
      ⟨compressed, left, hcompress, -, runs, hruns, rfl, rfl⟩
    refine ⟨1, _, by rw [encode, if_pos rfl, hcompress]; rfl, fun stream rest hahead => ?_⟩
    rw [List.append_assoc] at hahead
    rcases rle_gives hruns (s := inputState stream) rfl hahead with ⟨s', hgives, hstream⟩
    exact ⟨byteRleDecoder, inputState stream, s', _, rfl, hgives, by simp, hstream⟩
  | false =>
    refine ⟨0, bytes, rfl, fun stream rest hahead => ?_⟩
    rcases uncompressed_gives (s := inputState stream) hahead with ⟨s', hgives, hstream⟩
    exact ⟨byteUncompressedDecoder, inputState stream, s', _, rfl, hgives, Nat.le_refl _, hstream⟩

end Painter
end VialQmk
