import VialQmk.Painter.Pixels
import VialQmk.Painter.QgfPlayer

/-!
# Quantum Painter - streams that end too soon

Past its end a stream gives {lit}`STREAM_EOF`.  A decoder of plain bytes hands it on.  The run
length decoder takes it for a byte of the stream, so it never gives it to its caller: it gives
255 instead, for ever.

Main results:

- Definition {lit}`decodedData`: the bytes that the encoded bytes of a stream stand for, up to
  where the stream ends.
- Theorem {lit}`Pending.step`: the run length decoder gives these, and 255 after them.
- Theorem {lit}`truncationReported_iff`: when the loops report a stream that is too short, and
  hand over nothing that is not from the stream.
-/

namespace VialQmk
namespace Painter

/-! ## What a stream has -/

/-- The bytes that encoded bytes stand for.  The first argument is how many bytes are left of a
run without repetition. -/
def rleFrom : ℕ → List UInt8 → List UInt8
  | 0, [] => []
  | 0, [_] => []
  | 0, marker :: c :: rest =>
    if marker < 128 then
      List.replicate (if marker = 0 then 256 else marker.toNat) c ++ rleFrom 0 rest
    else c :: rleFrom (marker.toNat - 128) rest
  | _ + 1, [] => []
  | n + 1, c :: rest => c :: rleFrom n rest

/-- The bytes that the encoded bytes of a whole stream stand for. -/
def decodedData (bytes : List UInt8) : List UInt8 :=
  rleFrom 0 bytes

/-- The bytes a decoder can get from a stream. -/
def streamData (rle : Bool) (stream : MemStream) : List UInt8 :=
  if rle then decodedData stream.ahead else stream.ahead

/-- The callback of {lit}`qp_internal_prepare_input_state` -/
def inputCallback (rle : Bool) : InputState → InputState × Int :=
  if rle then byteRleDecoder else byteUncompressedDecoder

/-! ## The run length decoder -/

/-- The stream is at its end, and the decoder has no byte of it any more. -/
def Dry (s : InputState) : Prop :=
  s.srcStream.ahead = [] ∧ (s.mode = .markerByte ∨ s.curr = STREAM_EOF)

/-- The bytes of the stream that a decoder will give. -/
inductive Pending : InputState → List UInt8 → Prop
  | marker {s : InputState} (hmode : s.mode = .markerByte) : Pending s (decodedData s.srcStream.ahead)
  | repeating {s : InputState} {c : UInt8} {n : ℕ} (hmode : s.mode = .repeatingRun)
      (hcurr : s.curr = c.toNat) (hremain : (n : ℕ) % 256 = s.remain.toNat) (hpos : 0 < n)
      (hle : n ≤ 256) : Pending s (List.replicate n c ++ decodedData s.srcStream.ahead)
  | nonRepeating {s : InputState} {c : UInt8} {n : ℕ} (hmode : s.mode = .nonRepeatingRun)
      (hcurr : s.curr = c.toNat) (hremain : s.remain.toNat = n + 1) :
      Pending s (c :: rleFrom n s.srcStream.ahead)
  | dry {s : InputState} (h : Dry s) : Pending s []

theorem memGet_of_ahead_nil {s : MemStream} (h : s.ahead = []) :
    (memGet s).2 = STREAM_EOF ∧ (memGet s).1.ahead = [] := by
  have hnone : s.buffer[s.position]? = none := by
    rw [← List.head?_drop]
    exact congrArg List.head? h
  rw [memGet, hnone]
  exact ⟨rfl, h⟩

/-- A decoder without bytes gives 255. -/
theorem nextByte_dry {s : InputState} (hahead : s.srcStream.ahead = [])
    (hcurr : s.curr = STREAM_EOF) :
    (nextByte s).2 = 255 ∧ Dry (nextByte s).1 := by
  have hbyte : UInt8.ofInt s.curr = 255 := by
    rw [hcurr]
    rfl
  obtain ⟨hget, hnext⟩ := memGet_of_ahead_nil hahead
  unfold nextByte
  dsimp only
  split_ifs with hmore hrun
  · exact ⟨by rw [hbyte]; rfl, hnext, .inr hget⟩
  · exact ⟨by rw [hbyte]; rfl, hahead, .inr hcurr⟩
  · exact ⟨by rw [hbyte]; rfl, hahead, .inl rfl⟩

/-- A call within a run. -/
theorem Pending.nextByte {s : InputState} {data : List UInt8} (h : Pending s data)
    (hrun : s.mode ≠ .markerByte) :
    (nextByte s).2 = (data.head?.getD 255).toNat ∧ Pending (nextByte s).1 data.tail := by
  cases h with
  | marker hmode => exact absurd hmode hrun
  | @repeating c n hmode hcurr hremain hpos hle =>
    obtain ⟨n, rfl⟩ := Nat.exists_eq_add_of_le' hpos
    have hbyte : UInt8.ofInt s.curr = c := by rw [hcurr, ofInt_toNat]
    have hnext : (s.remain - 1).toNat = n % 256 := by
      rw [UInt8.toNat_sub]
      have := UInt8.toNat_lt s.remain
      have hone : (1 : UInt8).toNat = 1 := rfl
      omega
    have hmore : 0 < s.remain - 1 ↔ 0 < n := by
      rw [UInt8.lt_iff_toNat_lt, hnext]
      have hzero : (0 : UInt8).toNat = 0 := rfl
      omega
    unfold Painter.nextByte
    dsimp only
    simp only [hmore, hmode, hbyte]
    split_ifs with hn hwrong
    · exact absurd hwrong (by decide)
    · refine ⟨rfl, ?_⟩
      rw [List.replicate_succ, List.cons_append, List.tail_cons]
      exact .repeating rfl hcurr hnext.symm hn (by omega)
    · obtain rfl : n = 0 := by omega
      exact ⟨rfl, .marker rfl⟩
  | @nonRepeating c n hmode hcurr hremain =>
    have hbyte : UInt8.ofInt s.curr = c := by rw [hcurr, ofInt_toNat]
    have hnext : (s.remain - 1).toNat = n := by
      rw [UInt8.toNat_sub]
      have := UInt8.toNat_lt s.remain
      have hone : (1 : UInt8).toNat = 1 := rfl
      omega
    have hmore : 0 < s.remain - 1 ↔ 0 < n := by
      rw [UInt8.lt_iff_toNat_lt, hnext]
      exact Iff.rfl
    unfold Painter.nextByte
    dsimp only
    simp only [hmore, hmode, hbyte, if_true]
    split_ifs with hn
    · refine ⟨rfl, ?_⟩
      obtain ⟨n, rfl⟩ := Nat.exists_eq_add_of_le' hn
      rw [List.tail_cons]
      cases hahead : s.srcStream.ahead with
      | nil =>
        obtain ⟨hget, hdry⟩ := memGet_of_ahead_nil hahead
        exact .dry ⟨hdry, .inr hget⟩
      | cons c' rest =>
        have hget := memGet_of_ahead hahead
        have hrest : (memGet s.srcStream).1.ahead = rest := by
          rw [hget]
          exact MemStream.ahead_advance [c'] hahead
        rw [rleFrom, ← hrest]
        exact .nonRepeating rfl (by rw [hget]) hnext
    · obtain rfl : n = 0 := by omega
      exact ⟨rfl, .marker rfl⟩
  | dry hdry =>
    obtain ⟨hahead, hmode | hcurr⟩ := hdry
    · exact absurd hmode hrun
    · obtain ⟨hbyte, hstill⟩ := nextByte_dry hahead hcurr
      exact ⟨hbyte, .dry hstill⟩

/-- A call that begins with a marker byte. -/
theorem pending_readMarker {s : InputState} {data : List UInt8}
    (h : data = decodedData s.srcStream.ahead) :
    Pending (readMarker s) data ∧ (readMarker s).mode ≠ .markerByte := by
  subst h
  have hmode : (readMarker s).mode ≠ .markerByte := by
    unfold readMarker
    dsimp only
    split_ifs <;> simp
  refine ⟨?_, hmode⟩
  unfold decodedData
  cases hahead : s.srcStream.ahead with
  | nil =>
    obtain ⟨hmarker, hdry⟩ := memGet_of_ahead_nil hahead
    obtain ⟨hdata, hstill⟩ := memGet_of_ahead_nil hdry
    refine .dry ?_
    unfold readMarker
    dsimp only
    split_ifs
    · exact ⟨hstill, .inr hdata⟩
    · exact ⟨hstill, .inr hdata⟩
  | cons marker rest =>
    have hmarker := memGet_of_ahead hahead
    have hrest := MemStream.ahead_advance [marker] hahead
    rw [List.length_singleton] at hrest
    cases rest with
    | nil =>
      obtain ⟨hdata, hstill⟩ := memGet_of_ahead_nil hrest
      refine .dry ?_
      unfold readMarker
      dsimp only
      rw [hmarker]
      dsimp only
      split_ifs
      · exact ⟨hstill, .inr hdata⟩
      · exact ⟨hstill, .inr hdata⟩
    | cons c rest =>
      have hdata := memGet_of_ahead hrest
      have hahead' := MemStream.ahead_advance [c] hrest
      rw [List.length_singleton] at hahead'
      have hbyte := UInt8.toNat_lt marker
      have hlarge : 128 ≤ marker ↔ 128 ≤ marker.toNat := by
        rw [UInt8.le_iff_toNat_le]
        exact Iff.rfl
      have hsmall : marker < 128 ↔ ¬ 128 ≤ marker.toNat := by
        rw [UInt8.lt_iff_toNat_lt, Nat.not_le]
        exact Iff.rfl
      unfold rleFrom readMarker
      rw [hmarker]
      dsimp only
      rw [ofInt_toNat, hdata]
      dsimp only
      simp only [hlarge, hsmall]
      by_cases hrun : 128 ≤ marker.toNat
      · rw [if_pos hrun, if_neg (not_not_intro hrun), ← hahead']
        refine .nonRepeating rfl rfl ?_
        rw [UInt8.toNat_sub_of_le _ _ (by rw [UInt8.le_iff_toNat_le]; exact Nat.le_of_succ_le hrun)]
        have h127 : (127 : UInt8).toNat = 127 := rfl
        omega
      · rw [if_neg hrun, if_pos hrun, ← hahead']
        have hzero : marker = 0 ↔ marker.toNat = 0 := by
          rw [← UInt8.toNat_inj]
          exact Iff.rfl
        have hcount : (if marker = 0 then 256 else marker.toNat) % 256 = marker.toNat ∧
            0 < (if marker = 0 then 256 else marker.toNat) ∧
            (if marker = 0 then 256 else marker.toNat) ≤ 256 := by
          by_cases h0 : marker = 0
          · have := hzero.mp h0
            rw [if_pos h0]
            omega
          · have := mt hzero.mpr h0
            rw [if_neg h0]
            omega
        exact .repeating rfl rfl hcount.1 hcount.2.1 hcount.2.2

/-- The run length decoder gives the bytes of the stream, and 255 after them. -/
theorem Pending.step {s : InputState} {data : List UInt8} (h : Pending s data) :
    (byteRleDecoder s).2 = (data.head?.getD 255).toNat ∧
      Pending (byteRleDecoder s).1 data.tail := by
  unfold byteRleDecoder
  by_cases hmode : s.mode = .markerByte
  · rw [if_pos hmode]
    have hdata : data = decodedData s.srcStream.ahead := by
      cases h with
      | marker => rfl
      | repeating hwrong => rw [hmode] at hwrong; exact absurd hwrong (by decide)
      | nonRepeating hwrong => rw [hmode] at hwrong; exact absurd hwrong (by decide)
      | dry hdry => rw [hdry.1]; rfl
    obtain ⟨hpending, hrun⟩ := pending_readMarker hdata
    exact hpending.nextByte hrun
  · rw [if_neg hmode]
    exact h.nextByte hmode

/-! ## Callbacks that run dry -/

section Loops

variable {σ ω : Type}

/-- A callback that gives the bytes of a stream, and something else after them. -/
structure Supply (next : σ → σ × Int) (P : σ → List UInt8 → Prop) (after : Int) : Prop where
  give : ∀ s c data, P s (c :: data) → (next s).2 = c.toNat ∧ P (next s).1 data
  dry : ∀ s, P s [] → (next s).2 = after ∧ P (next s).1 []

/-- Both callbacks give the bytes of their stream.  Only the one for plain bytes gives the end
of the stream after them. -/
theorem exists_supply (rle : Bool) (stream : MemStream) :
    ∃ P, Supply (inputCallback rle) P (if rle then 255 else STREAM_EOF) ∧
      P (inputState stream) (streamData rle stream) := by
  cases rle with
  | true =>
    refine ⟨Pending, ⟨?_, ?_⟩, .marker rfl⟩
    · exact fun s c data h => h.step
    · exact fun s h => h.step
  | false =>
    refine ⟨fun s data => s.srcStream.ahead = data, ⟨?_, ?_⟩, rfl⟩
    · intro s c data h
      have hget := memGet_of_ahead h
      refine ⟨congrArg Prod.snd hget, ?_⟩
      have hnext := congrArg Prod.fst hget
      change (memGet s.srcStream).1.ahead = data
      rw [hnext]
      exact MemStream.ahead_advance [c] h
    · intro s h
      exact memGet_of_ahead_nil h

/-! ## What the loops hand over -/

/-- An output callback that takes bytes until it refuses one. -/
def feed (output : ω → UInt8 → ω × Bool) : ω → List UInt8 → ω × Bool
  | o, [] => (o, true)
  | o, p :: ps =>
    let res := output o p
    if res.2 = false then (res.1, false) else feed output res.1 ps

/-- The bytes that are handed over, with the one that is refused. -/
def handed (output : ω → UInt8 → ω × Bool) : ω → List UInt8 → List UInt8
  | _, [] => []
  | o, p :: ps =>
    let res := output o p
    if res.2 = false then [p] else p :: handed output res.1 ps

/-- An output callback that also writes down what it is called with. -/
def logged (output : ω → UInt8 → ω × Bool) (o : ω × List UInt8) (p : UInt8) :
    (ω × List UInt8) × Bool :=
  let res := output o.1 p
  ((res.1, o.2 ++ [p]), res.2)

/-- The pixels in a byte. -/
def pixelsOf (k : ℕ) : ℕ → ℕ → List UInt8
  | 0, _ => []
  | q + 1, byteval => (byteval &&& ((1 <<< k) - 1)).toUInt8 :: pixelsOf k q (byteval >>> k)

/-- How many pixels a round takes from a byte. -/
def loopPixels (k remaining : ℕ) : ℕ :=
  if remaining < 8 / k then remaining else 8 / k

/-- The pixels in some bytes, up to a number of them. -/
def unpack (k : ℕ) : ℕ → List UInt8 → List UInt8
  | _, [] => []
  | remaining, c :: data =>
    pixelsOf k (loopPixels k remaining) c.toNat ++
      unpack k (remaining - loopPixels k remaining) data

variable {output : ω → UInt8 → ω × Bool}

theorem feed_append (o : ω) (ps qs : List UInt8) :
    feed output o (ps ++ qs) =
      if (feed output o ps).2 = false then feed output o ps
      else feed output (feed output o ps).1 qs := by
  induction ps generalizing o with
  | nil => simp [feed]
  | cons p ps ih =>
    by_cases hres : (output o p).2 = false
    · simp [feed, hres]
    · simp [feed, hres, ih]

theorem handed_prefix (o : ω) (ps : List UInt8) : handed output o ps <+: ps := by
  induction ps generalizing o with
  | nil => exact List.nil_prefix
  | cons p ps ih =>
    unfold handed
    dsimp only
    split_ifs
    · exact List.cons_prefix_cons.mpr ⟨rfl, List.nil_prefix⟩
    · exact List.cons_prefix_cons.mpr ⟨rfl, ih _⟩

theorem handed_eq {o : ω} {ps : List UInt8} (h : (feed output o ps).2 = true) :
    handed output o ps = ps := by
  induction ps generalizing o with
  | nil => rfl
  | cons p ps ih =>
    unfold feed at h
    unfold handed
    dsimp only at h ⊢
    split_ifs at h ⊢ with hres
    rw [ih h]

theorem feed_logged (o : ω) (log ps : List UInt8) :
    feed (logged output) (o, log) ps =
      (((feed output o ps).1, log ++ handed output o ps), (feed output o ps).2) := by
  induction ps generalizing o log with
  | nil => simp [feed, handed]
  | cons p ps ih =>
    by_cases hres : (output o p).2 = false
    · simp [feed, handed, logged, hres]
    · simp [feed, handed, logged, hres, ih]

/-- The inner loop hands over the pixels of a byte. -/
theorem decodePixels_eq (k q byteval : ℕ) (o : ω) :
    decodePixels ((1 <<< k) - 1) k output q byteval o = feed output o (pixelsOf k q byteval) := by
  induction q generalizing byteval o with
  | zero => rfl
  | succ q ih =>
    rw [decodePixels, pixelsOf, feed, ih]

variable {next : σ → σ × Int} {P : σ → List UInt8 → Prop} {after : Int} {k : ℕ}

theorem loopPixels_eq (k remaining : ℕ) : loopPixels k remaining = min remaining (8 / k) := by
  unfold loopPixels
  split_ifs <;> omega

theorem unpack_zero (k : ℕ) (data : List UInt8) : unpack k 0 data = [] := by
  induction data with
  | nil => rfl
  | cons c data ih => rw [unpack, loopPixels_eq, Nat.zero_min, ih, pixelsOf, List.nil_append]

theorem length_pixelsOf (k q byteval : ℕ) : (pixelsOf k q byteval).length = q := by
  induction q generalizing byteval with
  | zero => rfl
  | succ q ih => rw [pixelsOf, List.length_cons, ih]

/-- One round of the outer loop. -/
theorem decodeLoop_succ (rounds : ℕ) {remaining : ℕ} (hpos : 0 < remaining) (s : σ) (o : ω) :
    decodeLoop k next output (rounds + 1) remaining s o =
      let byteval := next s
      if byteval.2 < 0 then some (byteval.1, o, false)
      else
        let res := feed output o (pixelsOf k (loopPixels k remaining) byteval.2.toNat)
        if res.2 = false then some (byteval.1, res.1, false)
        else decodeLoop k next output rounds (remaining - loopPixels k remaining) byteval.1
          res.1 := by
  obtain ⟨remaining, rfl⟩ := Nat.exists_eq_add_of_le' hpos
  simp only [decodeLoop, decodePixels_eq, loopPixels, Nat.succ_eq_add_one, Nat.zero_add]

/-- While the stream lasts, the outer loop hands over the pixels in its bytes. -/
theorem decodeLoop_feed (output : ω → UInt8 → ω × Bool) (h : Supply next P after)
    (hk : 0 < 8 / k) {s : σ} {data : List UInt8} (hP : P s data) {remaining rounds : ℕ}
    (hrounds : remaining ≤ rounds) (o : ω) :
    ∃ s' rounds', (data.length * (8 / k) < remaining → P s' []) ∧
      remaining - data.length * (8 / k) ≤ rounds' ∧
      (decodeLoop k next output rounds remaining s o).map Prod.snd =
        if (feed output o (unpack k remaining data)).2 = false then
          some (feed output o (unpack k remaining data))
        else (decodeLoop k next output rounds' (remaining - data.length * (8 / k)) s'
          (feed output o (unpack k remaining data)).1).map Prod.snd := by
  induction data generalizing s remaining rounds o with
  | nil =>
    refine ⟨s, rounds, fun _ => hP, by simpa using hrounds, ?_⟩
    simp [unpack, feed]
  | cons c data ih =>
    obtain ⟨hbyte, hnext⟩ := h.give s c data hP
    rcases Nat.eq_zero_or_pos remaining with rfl | hpos
    · refine ⟨s, rounds, fun hwrong => absurd hwrong (Nat.not_lt_zero _), ?_, ?_⟩
      · rw [Nat.zero_sub]
        exact Nat.zero_le _
      · rw [unpack_zero, Nat.zero_sub]
        simp [feed, decodeLoop]
    · obtain ⟨rounds, rfl⟩ := Nat.exists_eq_add_of_le' (Nat.lt_of_lt_of_le hpos hrounds)
      have hsign : ¬ (next s).2 < 0 := by
        rw [hbyte]
        omega
      have hvalue : (next s).2.toNat = c.toNat := by rw [hbyte, Int.toNat_natCast]
      have hloop := loopPixels_eq k remaining
      obtain ⟨s', rounds', hdry, hrounds', heq⟩ := ih hnext
        (show remaining - loopPixels k remaining ≤ rounds by omega)
        (feed output o (pixelsOf k (loopPixels k remaining) c.toNat)).1
      have hleft : remaining - loopPixels k remaining - data.length * (8 / k) =
          remaining - (c :: data).length * (8 / k) := by
        rw [List.length_cons, Nat.succ_mul]
        omega
      rw [hleft] at hrounds' heq
      refine ⟨s', rounds', ?_, hrounds', ?_⟩
      · intro hlong
        rw [List.length_cons, Nat.succ_mul] at hlong
        exact hdry (by omega)
      · rw [decodeLoop_succ _ hpos, unpack, feed_append]
        dsimp only
        rw [if_neg hsign, hvalue]
        by_cases hfeed : (feed output o (pixelsOf k (loopPixels k remaining) c.toNat)).2 = false
        · simp only [if_pos hfeed, Option.map_some]
          rw [← hfeed]
        · simp only [if_neg hfeed]
          exact heq

/-- The outer loop comes to an end. -/
theorem decodeLoop_isSome (next : σ → σ × Int) (output : ω → UInt8 → ω × Bool)
    (hk : 0 < 8 / k) {remaining rounds : ℕ} (hrounds : remaining ≤ rounds)
    (s : σ) (o : ω) : (decodeLoop k next output rounds remaining s o).isSome := by
  induction rounds generalizing remaining s o with
  | zero =>
    obtain rfl : remaining = 0 := by omega
    rfl
  | succ rounds ih =>
    rcases Nat.eq_zero_or_pos remaining with rfl | hpos
    · simp [decodeLoop]
    · rw [decodeLoop_succ _ hpos]
      have hloop := loopPixels_eq k remaining
      dsimp only
      split_ifs
      · rfl
      · rfl
      · exact ih (by omega) _ _

/-- What has been handed over stays so. -/
theorem decodeLoop_log {remaining rounds : ℕ} {s s' : σ} {o o' : ω} {log log' : List UInt8}
    {ok : Bool} (h : decodeLoop k next (logged output) rounds remaining s (o, log) =
      some (s', (o', log'), ok)) : log <+: log' := by
  induction rounds generalizing remaining s o log with
  | zero =>
    cases remaining with
    | zero =>
      simp only [decodeLoop, Option.some.injEq, Prod.mk.injEq] at h
      rw [h.2.1.2]
    | succ remaining => exact absurd h (by simp [decodeLoop])
  | succ rounds ih =>
    rcases Nat.eq_zero_or_pos remaining with rfl | hpos
    · simp only [decodeLoop, Option.some.injEq, Prod.mk.injEq] at h
      rw [h.2.1.2]
    · rw [decodeLoop_succ _ hpos] at h
      dsimp only at h
      split_ifs at h with hsign hfeed
      · simp only [Option.some.injEq, Prod.mk.injEq] at h
        rw [h.2.1.2]
      · rw [feed_logged] at h
        simp only [Option.some.injEq, Prod.mk.injEq] at h
        rw [← h.2.1.2]
        exact List.prefix_append _ _
      · rw [feed_logged] at h
        exact (List.prefix_append _ _).trans (ih h)

/-- A byte that is not the end of the stream is handed over. -/
theorem length_log_lt (hk : 0 < 8 / k) {remaining rounds : ℕ} (hpos : 0 < remaining) {s : σ}
    {o o' : ω} {log log' : List UInt8} {ok : Bool} (hsign : ¬ (next s).2 < 0)
    (h : (decodeLoop k next (logged output) (rounds + 1) remaining s (o, log)).map Prod.snd =
      some ((o', log'), ok)) : log.length < log'.length := by
  rw [decodeLoop_succ _ hpos] at h
  dsimp only at h
  rw [if_neg hsign, feed_logged] at h
  have hsome : 0 < (handed output o
      (pixelsOf k (loopPixels k remaining) (next s).2.toNat)).length := by
    have hlength := length_pixelsOf k (loopPixels k remaining) (next s).2.toNat
    rw [loopPixels_eq] at hlength
    cases hpixels : pixelsOf k (loopPixels k remaining) (next s).2.toNat with
    | nil =>
      rw [← loopPixels_eq, hpixels, List.length_nil, loopPixels_eq] at hlength
      omega
    | cons p ps =>
      unfold handed
      dsimp only
      split_ifs <;> simp
  have hstep : log.length < (log ++ handed output o
      (pixelsOf k (loopPixels k remaining) (next s).2.toNat)).length := by
    rw [List.length_append]
    omega
  dsimp only at h
  split_ifs at h with hfeed
  · simp only [Option.map_some, Option.some.injEq, Prod.mk.injEq] at h
    rw [← h.1.2]
    exact hstep
  · obtain ⟨⟨s', res⟩, hlater, hres⟩ := Option.map_eq_some_iff.mp h
    dsimp only at hres
    subst hres
    exact Nat.lt_of_lt_of_le hstep (decodeLoop_log hlater).length_le

/-! ## Reporting -/

/-- How many bits a pixel has, at most a byte. -/
structure Depth where
  bits : ℕ
  bits_pos : 0 < bits
  bits_le : bits ≤ 8

theorem Depth.pixelsPerByte_pos (depth : Depth) : 0 < 8 / depth.bits :=
  Nat.div_pos depth.bits_le depth.bits_pos

/-- The stream ends before there are enough bytes for some pixels. -/
def Truncated (rle : Bool) (stream : MemStream) (pixelsPerByte n : ℕ) : Prop :=
  (streamData rle stream).length * pixelsPerByte < n

/-- A truncated stream is reported, and all that is handed over is in the stream. -/
def Reported (truncated : Prop) (derived emitted : List UInt8) (ok : Bool) : Prop :=
  (truncated → ok = false) ∧ emitted <+: derived

/-- {lit}`qp_internal_decode_palette` reports a truncated stream. -/
def PixelsReported (rle : Bool) (stream : MemStream) (depth : Depth)
    (output : ω → UInt8 → ω × Bool) (o : ω) (n : ℕ) : Prop :=
  ∃ s' o' emitted ok, decodePalette n depth.bits (inputCallback rle) (logged output)
      (inputState stream) (o, []) = some (s', (o', emitted), ok) ∧
    Reported (Truncated rle stream (8 / depth.bits) n)
      (unpack depth.bits n (streamData rle stream)) emitted ok

/-- {lit}`qp_internal_send_bytes` reports a truncated stream. -/
def BytesReported (rle : Bool) (stream : MemStream) (output : ω → UInt8 → ω × Bool) (o : ω)
    (n : ℕ) : Prop :=
  let sent := sendBytes (inputCallback rle) (logged output) n (inputState stream) (o, [])
  Reported (Truncated rle stream 1 n) ((streamData rle stream).take n) sent.2.1.2 sent.2.2

/-- What makes up for an end of the stream that is not seen: the output callback stops before. -/
def Refuses (output : ω → UInt8 → ω × Bool) (o : ω) (bytes : List UInt8) : Prop :=
  (feed output o bytes).2 = false

theorem pixelsReported_iff (rle : Bool) (stream : MemStream) (depth : Depth)
    (output : ω → UInt8 → ω × Bool) (o : ω) (n : ℕ) :
    PixelsReported rle stream depth output o n ↔
      rle = false ∨ ¬ Truncated rle stream (8 / depth.bits) n ∨
        Refuses output o (unpack depth.bits n (streamData rle stream)) := by
  have hm := depth.pixelsPerByte_pos
  obtain ⟨P, hsupply, hP⟩ := exists_supply rle stream
  obtain ⟨s', rounds', hdry, hrounds', hloop⟩ :=
    decodeLoop_feed (logged output) hsupply hm hP (le_refl n) (o, [])
  obtain ⟨res, hres⟩ := Option.isSome_iff_exists.mp (decodeLoop_isSome (k := depth.bits)
    (inputCallback rle) (logged output) hm (le_refl n) (inputState stream) (o, []))
  obtain ⟨t, ⟨o', emitted⟩, ok⟩ := res
  have hproperty : PixelsReported rle stream depth output o n ↔
      Reported (Truncated rle stream (8 / depth.bits) n)
        (unpack depth.bits n (streamData rle stream)) emitted ok := by
    constructor
    · rintro ⟨t', o'', emitted', ok', heq, hreported⟩
      rw [decodePalette, hres] at heq
      simp only [Option.some.injEq, Prod.mk.injEq] at heq
      obtain ⟨-, ⟨-, rfl⟩, rfl⟩ := heq
      exact hreported
    · exact fun hreported => ⟨t, o', emitted, ok, hres, hreported⟩
  rw [hproperty]
  rw [hres, feed_logged, Option.map_some, List.nil_append] at hloop
  dsimp only at hloop
  by_cases hrefuses : (feed output o (unpack depth.bits n (streamData rle stream))).2 = false
  · refine iff_of_true ?_ (.inr (.inr hrefuses))
    rw [if_pos hrefuses] at hloop
    simp only [Option.some.injEq, Prod.mk.injEq] at hloop
    obtain ⟨⟨-, rfl⟩, rfl⟩ := hloop
    exact ⟨fun _ => hrefuses, handed_prefix _ _⟩
  · rw [if_neg hrefuses, handed_eq (by simpa using hrefuses)] at hloop
    by_cases htruncated : Truncated rle stream (8 / depth.bits) n
    · -- The stream is at its end, and a pixel is still to come.
      have hleft : 0 < n - (streamData rle stream).length * (8 / depth.bits) :=
        Nat.sub_pos_of_lt htruncated
      obtain ⟨rounds, rfl⟩ := Nat.exists_eq_add_of_le' (Nat.lt_of_lt_of_le hleft hrounds')
      obtain ⟨hafter, -⟩ := hsupply.dry s' (hdry htruncated)
      cases rle with
      | false =>
        refine iff_of_true ?_ (.inl rfl)
        have hsign : (inputCallback false s').2 < 0 := by
          rw [hafter]
          decide
        rw [decodeLoop_succ _ hleft] at hloop
        dsimp only at hloop
        rw [if_pos hsign, Option.map_some] at hloop
        simp only [Option.some.injEq, Prod.mk.injEq] at hloop
        obtain ⟨⟨-, rfl⟩, rfl⟩ := hloop
        exact ⟨fun _ => rfl, List.prefix_refl _⟩
      | true =>
        refine iff_of_false ?_ ?_
        · rintro ⟨-, hprefix⟩
          have hsign : ¬ (inputCallback true s').2 < 0 := by
            rw [hafter]
            decide
          have hlonger := length_log_lt hm hleft hsign hloop.symm
          exact absurd hprefix.length_le (by omega)
        · rintro (hrle | hshort | hwrong)
          · exact absurd hrle (by decide)
          · exact hshort htruncated
          · exact hrefuses hwrong
    · refine iff_of_true ?_ (.inr (.inl htruncated))
      have hleft : n - (streamData rle stream).length * (8 / depth.bits) = 0 :=
        Nat.sub_eq_zero_of_le (Nat.le_of_not_lt htruncated)
      rw [hleft] at hloop
      have hend : ∀ rounds (s : InputState) (o : ω × List UInt8),
          decodeLoop depth.bits (inputCallback rle) (logged output) rounds 0 s o =
            some (s, o, true) := by
        intro rounds s o
        cases rounds <;> rfl
      rw [hend, Option.map_some] at hloop
      simp only [Option.some.injEq, Prod.mk.injEq] at hloop
      obtain ⟨⟨-, rfl⟩, rfl⟩ := hloop
      exact ⟨fun hwrong => absurd hwrong htruncated, List.prefix_refl _⟩

/-! ## Whole bytes -/

/-- Sending bytes is decoding pixels of eight bits. -/
theorem decodePalette_eight (next : σ → σ × Int) (output : ω → UInt8 → ω × Bool)
    (rounds n : ℕ) (hn : n ≤ rounds) (s : σ) (o : ω) :
    decodeLoop 8 next output rounds n s o = some (sendBytes next output n s o) := by
  induction rounds generalizing n s o with
  | zero =>
    obtain rfl : n = 0 := by omega
    rfl
  | succ rounds ih =>
    cases n with
    | zero => rfl
    | succ n =>
      have hloop : loopPixels 8 (n + 1) = 1 := by
        rw [loopPixels_eq]
        omega
      rw [decodeLoop_succ _ (Nat.succ_pos n), hloop, sendBytes]
      dsimp only
      by_cases hsign : (next s).2 < 0
      · rw [if_pos hsign, if_pos hsign]
      · rw [if_neg hsign, if_neg hsign]
        have hbyte : ((next s).2.toNat &&& ((1 <<< 8) - 1)).toUInt8 = UInt8.ofInt (next s).2 := by
          apply UInt8.toNat_inj.mp
          have hmask : (next s).2.toNat &&& ((1 <<< 8) - 1) = (next s).2.toNat % 2 ^ 8 :=
            Nat.and_two_pow_sub_one_eq_mod _ 8
          rw [hmask]
          simp only [UInt8.ofInt, Nat.toUInt8, UInt8.toNat_ofNat']
          omega
        simp only [pixelsOf, hbyte, feed]
        by_cases hres : (output o (UInt8.ofInt (next s).2)).2 = false
        · simp only [hres, if_true]
        · simp only [hres]
          exact ih n (by omega) _ _

theorem unpack_eight (n : ℕ) (data : List UInt8) : unpack 8 n data = data.take n := by
  induction data generalizing n with
  | nil => simp [unpack]
  | cons c data ih =>
    cases n with
    | zero => rw [unpack_zero, List.take_zero]
    | succ n =>
      have hloop : loopPixels 8 (n + 1) = 1 := by
        rw [loopPixels_eq]
        omega
      have hbyte : (c.toNat &&& ((1 <<< 8) - 1)).toUInt8 = c := by
        apply UInt8.toNat_inj.mp
        have hmask : c.toNat &&& ((1 <<< 8) - 1) = c.toNat % 2 ^ 8 :=
          Nat.and_two_pow_sub_one_eq_mod _ 8
        have hlt := UInt8.toNat_lt c
        rw [hmask]
        simp only [Nat.toUInt8, UInt8.toNat_ofNat']
        omega
      rw [unpack, hloop, Nat.add_sub_cancel, ih, List.take_succ_cons, pixelsOf, hbyte, pixelsOf]
      rfl

/-- Sending bytes reports a truncated stream when decoding pixels of a byte each does. -/
theorem bytesReported_iff (rle : Bool) (stream : MemStream) (output : ω → UInt8 → ω × Bool)
    (o : ω) (n : ℕ) :
    BytesReported rle stream output o n ↔
      rle = false ∨ ¬ Truncated rle stream 1 n ∨
        Refuses output o ((streamData rle stream).take n) := by
  have hunpack := unpack_eight n (streamData rle stream)
  have hpixels := pixelsReported_iff rle stream ⟨8, by decide, le_refl 8⟩ output o n
  dsimp only at hpixels
  rw [hunpack] at hpixels
  refine Iff.trans ?_ hpixels
  have hsame := decodePalette_eight (inputCallback rle) (logged output) n n
    (le_refl n) (inputState stream) (o, [])
  unfold BytesReported PixelsReported
  dsimp only
  rw [hunpack]
  constructor
  · exact fun h => ⟨_, _, _, _, hsame, h⟩
  · rintro ⟨s', o', emitted, ok, heq, hreported⟩
    rw [decodePalette, hsame] at heq
    rw [Option.some.inj heq]
    exact hreported

/-- Both loops report a truncated stream, and hand over nothing else, if the bytes are not run
length encoded.  If they are, they do so just for streams that are not truncated, and for
callbacks that stop before the end of the stream. -/
theorem truncationReported_iff (rle : Bool) (stream : MemStream) (depth : Depth)
    (output : ω → UInt8 → ω × Bool) (o : ω) (n : ℕ) :
    (PixelsReported rle stream depth output o n ↔
      rle = false ∨ ¬ Truncated rle stream (8 / depth.bits) n ∨
        Refuses output o (unpack depth.bits n (streamData rle stream))) ∧
    (BytesReported rle stream output o n ↔
      rle = false ∨ ¬ Truncated rle stream 1 n ∨
        Refuses output o ((streamData rle stream).take n)) :=
  ⟨pixelsReported_iff rle stream depth output o n, bytesReported_iff rle stream output o n⟩

/-- One pixel of a stream without a byte is made up. -/
theorem not_pixelsReported_empty :
    ¬ ∀ (rle : Bool) (stream : MemStream) (depth : Depth) (n : ℕ),
      PixelsReported rle stream depth record [] n ∧ BytesReported rle stream record [] n := by
  intro h
  obtain ⟨hreported, -⟩ := (h true (makeMemoryStream []) ⟨8, by decide, le_refl 8⟩ 1).2
  have htruncated : Truncated true (makeMemoryStream []) 1 1 := by
    unfold Truncated
    decide
  have hok := hreported htruncated
  exact absurd hok (by decide +kernel)

/-- The log of an output callback changes nothing else. -/
theorem decodeLoop_logged (rounds n : ℕ) (s : σ) (o : ω) (log : List UInt8) :
    (decodeLoop k next (logged output) rounds n s (o, log)).map (fun r => (r.1, r.2.1.1, r.2.2)) =
      decodeLoop k next output rounds n s o := by
  induction rounds generalizing n s o log with
  | zero => cases n <;> rfl
  | succ rounds ih =>
    rcases Nat.eq_zero_or_pos n with rfl | hpos
    · rfl
    · rw [decodeLoop_succ _ hpos, decodeLoop_succ _ hpos]
      dsimp only
      rw [feed_logged]
      dsimp only
      split_ifs
      · rfl
      · rfl
      · exact ih _ _ _ _

end Loops

end Painter
end VialQmk
