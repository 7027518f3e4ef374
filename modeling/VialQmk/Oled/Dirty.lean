import Mathlib.Tactic.Common
import VialQmk.Library.Runs
import VialQmk.Oled.Window

/-!
# OLED driver - dirty blocks

What is drawn marks the blocks it changes, and rendering clears the mark of a block only
after the display got all of it; so a block without a mark is shown as it is in the buffer.
A glyph marks its first and its last block: one that spans a third block changes bytes there
without a mark.

Main results:

- Definition {lit}`Shown`: blocks that are not dirty are shown.
- Definition {lit}`Covered`: which glyphs mark all they change.
- Theorem {lit}`renderLoop_spec`: the loop that renders dirty blocks.
- Theorem {lit}`dirtyTracking`: if all glyphs mark what they change, blocks that are not
  dirty are shown after every run.
-/

namespace VialQmk
namespace Oled

/-! ## The property -/

/-- Blocks that are not dirty are shown. -/
def Shown (g : Geometry) (s : State) : Prop :=
  ∀ j < g.matrixSize, s.dirty.testBit (j / g.blockSize) = false →
    shown g s.display j = s.buffer j

/-- The whole buffer is shown. -/
def ShownAll (g : Geometry) (s : State) : Prop :=
  ∀ j < g.matrixSize, shown g s.display j = s.buffer j

/-- The property holds of the state, and rendering everything without a failure shows the
whole buffer. -/
def Tracked (g : Geometry) (s : State) : Prop :=
  Shown g s ∧ ∀ bus : List Outcome, (∀ outcome ∈ bus, outcome = .success) →
    ShownAll g (renderDirty g true bus s)

/-- A glyph at the cursor is in the buffer. -/
def GlyphInBuffer (g : Geometry) (s : State) : Prop :=
  s.cursor + g.fontWidth ≤ g.matrixSize

instance (g : Geometry) : DecidablePred (GlyphInBuffer g) :=
  fun _ => inferInstanceAs (Decidable (_ ≤ _))

/-- What a glyph at the cursor changes is in its first block or in its last one, or dirty
already. -/
def Covered (g : Geometry) (data : UInt8) (invert : Bool) (s : State) : Prop :=
  ∀ i < g.fontWidth,
    (s.buffer.store s.cursor (glyph g data invert)) (s.cursor + i) = s.buffer (s.cursor + i) ∨
      (s.cursor + i) / g.blockSize = s.cursor / g.blockSize ∨
      (s.cursor + i) / g.blockSize = (s.cursor + g.fontWidth - 1) / g.blockSize ∨
      s.dirty.testBit ((s.cursor + i) / g.blockSize) = true

instance (g : Geometry) (data : UInt8) (invert : Bool) :
    DecidablePred (Covered g data invert) :=
  fun _ => inferInstanceAs (Decidable (∀ i < g.fontWidth, _))

/-- Each of the spaces meets {lit}`P` when it is written. -/
def EachSpace (g : Geometry) (P : State → Prop) : ℕ → State → Prop
  | 0, _ => True
  | n + 1, s => P s ∧ EachSpace g P n (writeGlyph g 32 false s)

instance decidableEachSpace (g : Geometry) (P : State → Prop) [DecidablePred P] :
    (n : ℕ) → (s : State) → Decidable (EachSpace g P n s)
  | 0, _ => inferInstanceAs (Decidable True)
  | n + 1, s =>
    have := decidableEachSpace g P n (writeGlyph g 32 false s)
    inferInstanceAs (Decidable (P s ∧ EachSpace g P n (writeGlyph g 32 false s)))

/-- Each glyph that a call draws meets {lit}`P` when it is drawn. -/
def EachGlyph (g : Geometry) (P : UInt8 → Bool → State → Prop) (s : State) : Call → Prop
  | .writeChar data invert =>
    if data = newline then EachSpace g (P 32 false) (remaining g s / g.fontWidth) s
    else if data = carriageReturn then True
    else P data invert s
  | .advancePage true => EachSpace g (P 32 false) (remaining g s / g.fontWidth) s
  | _ => True

instance (g : Geometry) (P : UInt8 → Bool → State → Prop)
    [∀ data invert, DecidablePred (P data invert)] (s : State) :
    DecidablePred (EachGlyph g P s)
  | .writeChar data _ =>
    inferInstanceAs (Decidable (if data = newline then _ else if data = carriageReturn then _
      else _))
  | .advancePage true => inferInstanceAs (Decidable (EachSpace g _ _ s))
  | .advancePage false | .clear | .setCursor _ _ | .pan _ | .writeRawByte _ _ | .writeRaw _
  | .writePixel _ _ _ | .renderDirty _ _ | .off _ => inferInstanceAs (Decidable True)

/-- A call draws in the buffer. -/
def InBuffer (g : Geometry) (s : State) (call : Call) : Prop :=
  EachGlyph g (fun _ _ => GlyphInBuffer g) s call ∧
    match call with
    | .writeRawByte _ index => index < g.matrixSize
    | _ => True

instance (g : Geometry) (s : State) : DecidablePred (InBuffer g s)
  | .writeRawByte _ _ => inferInstanceAs (Decidable (_ ∧ _ < _))
  | .clear | .setCursor _ _ | .writeChar _ _ | .advancePage _ | .pan _ | .writeRaw _
  | .writePixel _ _ _ | .renderDirty _ _ | .off _ => inferInstanceAs (Decidable (_ ∧ True))

/-! ## Blocks and bits -/

section Bits

variable {g : Geometry} {i j k : ℕ}

theorem testBit_allBlocksMask (g : Geometry) (i : ℕ) :
    g.allBlocksMask.testBit i = decide (i < g.blockCount) := by
  have hpos := g.count_pos
  unfold Geometry.allBlocksMask
  rw [Nat.testBit_or, Nat.testBit_shiftLeft, Nat.testBit_two_pow_sub_one]
  cases i with
  | zero => simp [hpos]
  | succ i =>
    have hone : Nat.testBit 1 (i + 1) = false := by
      rw [Nat.testBit_succ]
      simp
    rw [hone]
    simp
    omega

theorem testBit_blockBit (hk : k < g.blockCount) (i : ℕ) :
    (g.blockBit k).testBit i = decide (k = i) := by
  have hcount := g.count_le
  unfold Geometry.blockBit
  rw [Nat.mod_eq_of_lt (Nat.pow_lt_pow_right (by omega) (by omega)), Nat.testBit_two_pow]

/-- The bytes of a block. -/
theorem div_eq_iff_block (g : Geometry) (j k : ℕ) :
    j / g.blockSize = k ↔ g.blockSize * k ≤ j ∧ j < g.blockSize * k + g.blockSize := by
  have hsize := g.size_pos
  rw [Nat.div_eq_iff hsize, Nat.mul_comm]
  omega

theorem block_lt (hwhole : g.blockCount * g.blockSize = g.matrixSize) (hj : j < g.matrixSize) :
    j / g.blockSize < g.blockCount := by
  rw [Nat.div_lt_iff_lt_mul g.size_pos, hwhole]
  exact hj

end Bits

/-! ## Drawing -/

/-- What a call draws is marked, and nothing is sent. -/
structure Marks (g : Geometry) (s s' : State) : Prop where
  display : s'.display = s.display
  initialized : s'.initialized = s.initialized
  scrolling : s'.scrolling = s.scrolling
  dirty : ∀ i < g.blockCount, s.dirty.testBit i = true → s'.dirty.testBit i = true
  changed : ∀ j < g.matrixSize, s'.buffer j ≠ s.buffer j →
    s'.dirty.testBit (j / g.blockSize) = true

section Marks

variable {g : Geometry} {s s' s'' : State}

theorem Marks.refl (g : Geometry) (s : State) : Marks g s s :=
  ⟨rfl, rfl, rfl, fun _ _ h => h, fun _ _ h => absurd rfl h⟩

theorem Marks.trans (hwhole : g.blockCount * g.blockSize = g.matrixSize) (h : Marks g s s')
    (h' : Marks g s' s'') : Marks g s s'' := by
  refine ⟨h'.display.trans h.display, h'.initialized.trans h.initialized,
    h'.scrolling.trans h.scrolling, fun i hi hbit => h'.dirty i hi (h.dirty i hi hbit), ?_⟩
  intro j hj hne
  by_cases heq : s''.buffer j = s'.buffer j
  · rw [heq] at hne
    exact h'.dirty _ (block_lt hwhole hj) (h.changed j hj hne)
  · exact h'.changed j hj heq

/-- The cursor moves. -/
theorem marks_cursor (g : Geometry) (s : State) (cursor : ℕ) :
    Marks g s { s with cursor := cursor } :=
  ⟨rfl, rfl, rfl, fun _ _ h => h, fun _ _ h => absurd rfl h⟩

/-- All blocks get dirty. -/
theorem marks_all (hwhole : g.blockCount * g.blockSize = g.matrixSize)
    (hdisplay : s'.display = s.display) (hinitialized : s'.initialized = s.initialized)
    (hscrolling : s'.scrolling = s.scrolling) (hdirty : s'.dirty = g.allBlocksMask) :
    Marks g s s' := by
  have hall : ∀ i < g.blockCount, s'.dirty.testBit i = true := by
    intro i hi
    rw [hdirty, testBit_allBlocksMask]
    exact decide_eq_true hi
  exact ⟨hdisplay, hinitialized, hscrolling, fun i hi _ => hall i hi,
    fun j hj _ => hall _ (block_lt hwhole hj)⟩

theorem testBit_markDirty (hwhole : g.blockCount * g.blockSize = g.matrixSize) {index : ℕ}
    (hindex : index < g.matrixSize) (s : State) (i : ℕ) :
    (markDirty g index s).dirty.testBit i =
      (s.dirty.testBit i || decide (index / g.blockSize = i)) := by
  unfold markDirty
  rw [Nat.testBit_or, testBit_blockBit (block_lt hwhole hindex)]

theorem marks_setByte (hwhole : g.blockCount * g.blockSize = g.matrixSize) {index : ℕ}
    (hindex : index < g.matrixSize) (data : UInt8) (s : State) :
    Marks g s (setByte g index data s) := by
  unfold setByte
  split_ifs with hsame
  · exact Marks.refl g s
  · refine ⟨rfl, rfl, rfl, fun i _ hbit => ?_, fun j _ hne => ?_⟩
    · rw [testBit_markDirty hwhole hindex]
      simp [hbit]
    · rw [testBit_markDirty hwhole hindex]
      have hj : index = j := by
        by_contra hij
        rcases Nat.lt_or_gt_of_ne hij with hlt | hgt
        · exact hne (Memory.store_of_ge hlt)
        · exact hne (Memory.store_of_lt hgt)
      simp [hj]

theorem marks_writeRawLoop (hwhole : g.blockCount * g.blockSize = g.matrixSize)
    (data : List UInt8) {i : ℕ} (hi : i + data.length ≤ g.matrixSize) (s : State) :
    Marks g s (writeRawLoop g i data s) := by
  induction data generalizing i s with
  | nil => exact Marks.refl g s
  | cons c data ih =>
    rw [List.length_cons] at hi
    exact (marks_setByte hwhole (by omega) c s).trans hwhole (ih (by omega) _)

theorem marks_writeRaw (hwhole : g.blockCount * g.blockSize = g.matrixSize) (data : List UInt8)
    (s : State) : Marks g s (writeRaw g data s) := by
  unfold writeRaw
  dsimp only
  by_cases hcursor : s.cursor ≤ g.matrixSize
  · refine marks_writeRawLoop hwhole _ ?_ s
    rw [List.length_take]
    split_ifs <;> omega
  · rw [if_pos (by omega), Nat.sub_eq_zero_of_le (by omega)]
    exact Marks.refl g s

theorem marks_writePixel (hwhole : g.blockCount * g.blockSize = g.matrixSize) (x y : UInt8)
    (on : Bool) (s : State) : Marks g s (writePixel g x y on s) := by
  unfold writePixel
  dsimp only
  by_cases hx : x.toNat ≥ g.displayWidth
  · rw [if_pos hx]
    exact Marks.refl g s
  · rw [if_neg hx]
    by_cases hindex : (x.toNat + y.toNat / 8 * g.displayWidth) % 65536 ≥ g.matrixSize
    · rw [if_pos hindex]
      exact Marks.refl g s
    · rw [if_neg hindex]
      exact marks_setByte hwhole (Nat.lt_of_not_le hindex) _ s

theorem length_glyph (g : Geometry) (data : UInt8) (invert : Bool) :
    (glyph g data invert).length = g.fontWidth := by
  have hbytes : (if data < g.fontStart ∨ data > g.fontEnd then
        List.replicate g.fontWidth (0 : UInt8)
      else (g.font.drop ((data.toNat - g.fontStart.toNat) * g.fontWidth)).take
        g.fontWidth).length = g.fontWidth := by
    split_ifs with hout
    · exact List.length_replicate
    · rw [not_or, UInt8.not_lt, gt_iff_lt, UInt8.not_lt, UInt8.le_iff_toNat_le,
        UInt8.le_iff_toNat_le] at hout
      have hfont := g.font_le
      have hsplit : g.fontEnd.toNat + 1 - g.fontStart.toNat =
          data.toNat - g.fontStart.toNat + 1 + (g.fontEnd.toNat - data.toNat) := by omega
      rw [hsplit, Nat.add_mul, Nat.add_mul, Nat.one_mul] at hfont
      rw [List.length_take, List.length_drop]
      omega
  unfold glyph
  dsimp only
  generalize (if data < g.fontStart ∨ data > g.fontEnd then List.replicate g.fontWidth (0 : UInt8)
    else _) = bytes at hbytes ⊢
  cases invert with
  | false => simpa using hbytes
  | true => simpa using hbytes

/-- A glyph marks what it changes, if it is covered. -/
theorem marks_writeGlyph (hwhole : g.blockCount * g.blockSize = g.matrixSize) (data : UInt8)
    (invert : Bool) (hin : GlyphInBuffer g s) (hcovered : Covered g data invert s) :
    Marks g s (writeGlyph g data invert s) := by
  have hfont := g.fontWidth_pos
  unfold GlyphInBuffer at hin
  unfold Covered at hcovered
  have hlen := length_glyph g data invert
  have hplace : ∀ j, (s.buffer.store s.cursor (glyph g data invert)) j ≠ s.buffer j →
      ∃ i < g.fontWidth, j = s.cursor + i := by
    intro j hne
    refine ⟨j - s.cursor, ?_, ?_⟩
    · by_contra hge
      exact hne (Memory.store_of_ge (by omega))
    · by_contra hlt
      exact hne (Memory.store_of_lt (by omega))
  unfold writeGlyph
  dsimp only
  generalize s.buffer.store s.cursor (glyph g data invert) = buffer at hcovered hplace ⊢
  refine Marks.trans hwhole ?_ (marks_cursor g _ _)
  split_ifs with hchanged
  · have hbits (k : ℕ) := testBit_markDirty hwhole (by omega : s.cursor < g.matrixSize)
      { s with buffer := buffer } k
    have hbits' (k : ℕ) := testBit_markDirty hwhole
      (by omega : s.cursor + g.fontWidth - 1 < g.matrixSize)
      (markDirty g s.cursor { s with buffer := buffer }) k
    refine ⟨rfl, rfl, rfl, fun k _ hbit => ?_, fun j _ hne => ?_⟩
    · rw [hbits', hbits]
      simp [hbit]
    · obtain ⟨i, hi, rfl⟩ := hplace j hne
      rw [hbits', hbits]
      rcases hcovered i hi with hsame | hfirst | hlast | hdirty
      · exact absurd hsame hne
      · simp [hfirst]
      · simp [hlast]
      · simp [hdirty]
  · refine ⟨rfl, rfl, rfl, fun _ _ hbit => hbit, fun j _ hne => ?_⟩
    obtain ⟨i, hi, rfl⟩ := hplace j hne
    exact absurd (Memory.load_eq_iff.mp (not_not.mp hchanged) (s.cursor + i) (by omega)
      (by omega)) hne

theorem marks_writeSpaces (hwhole : g.blockCount * g.blockSize = g.matrixSize) (n : ℕ)
    (hin : EachSpace g (GlyphInBuffer g) n s) (hcovered : EachSpace g (Covered g 32 false) n s) :
    Marks g s (writeSpaces g n s) := by
  induction n generalizing s with
  | zero => exact Marks.refl g s
  | succ n ih =>
    exact (marks_writeGlyph hwhole 32 false hin.1 hcovered.1).trans hwhole
      (ih hin.2 hcovered.2)

/-- What is drawn is marked. -/
theorem marks_step (hwhole : g.blockCount * g.blockSize = g.matrixSize) {call : Call}
    (hrender : ∀ all bus, call ≠ .renderDirty all bus) (hoff : ∀ bus, call ≠ .off bus)
    (hin : InBuffer g s call) (hcovered : EachGlyph g (Covered g) s call) :
    Marks g s (step g s call) := by
  obtain ⟨hglyphs, hindex⟩ := hin
  cases call with
  | clear => exact marks_all hwhole rfl rfl rfl rfl
  | setCursor col line => exact marks_cursor g s _
  | writeChar data invert =>
    simp only [EachGlyph] at hglyphs hcovered
    unfold step writeChar
    dsimp only
    split_ifs at hglyphs hcovered ⊢
    · exact marks_writeSpaces hwhole _ hglyphs hcovered
    · exact marks_cursor g s _
    · exact marks_writeGlyph hwhole data invert hglyphs hcovered
  | advancePage clearPageRemainder =>
    cases clearPageRemainder with
    | false => exact marks_cursor g s _
    | true => exact marks_writeSpaces hwhole _ hglyphs hcovered
  | pan left => exact marks_all hwhole rfl rfl rfl rfl
  | writeRawByte data index =>
    have hlt : index < g.matrixSize := hindex
    unfold step writeRawByte
    dsimp only
    rw [if_neg (by omega)]
    exact marks_setByte hwhole hlt data s
  | writeRaw data => exact marks_writeRaw hwhole data s
  | writePixel x y on => exact marks_writePixel hwhole x y on s
  | renderDirty all bus => exact absurd rfl (hrender all bus)
  | off bus => exact absurd rfl (hoff bus)

end Marks

/-! ## Rendering -/

section Render

variable {g : Geometry} {s s' : State} {bus : List Outcome}

theorem Shown.marks (hwhole : g.blockCount * g.blockSize = g.matrixSize) (h : Shown g s)
    (hmarks : Marks g s s') : Shown g s' := by
  intro j hj hclean
  have hblock := block_lt hwhole hj
  have hsame : s'.buffer j = s.buffer j := by
    by_contra hne
    rw [hmarks.changed j hj hne] at hclean
    exact absurd hclean nofun
  rw [hmarks.display, hsame]
  refine h j hj ?_
  rw [← Bool.not_eq_true]
  intro hdirty
  rw [hmarks.dirty _ hblock hdirty] at hclean
  exact absurd hclean nofun

/-- Only the window of the display changes, or how the driver sees it. -/
structure Idle (s s' : State) : Prop where
  buffer : s'.buffer = s.buffer
  dirty : s'.dirty = s.dirty
  initialized : s'.initialized = s.initialized
  scrolling : s'.scrolling = s.scrolling
  cells : s'.display.cells = s.display.cells

theorem Shown.idle (h : Shown g s) (hidle : Idle s s') : Shown g s' := by
  intro j hj hclean
  rw [hidle.dirty] at hclean
  rw [shown, hidle.cells, hidle.buffer]
  exact h j hj hclean

theorem idle_sendCmd (outcome : Outcome) {commands : List UInt8}
    (hcommands : (runCommands commands s.display).cells = s.display.cells) :
    Idle s (sendCmd outcome commands s).1 := by
  cases outcome with
  | success => exact ⟨rfl, rfl, rfl, rfl, hcommands⟩
  | failure window place received => exact ⟨rfl, rfl, rfl, rfl, rfl⟩

theorem idle_on (bus : List Outcome) (s : State) : Idle s (on bus s).1 := by
  unfold on
  split_ifs
  · exact ⟨rfl, rfl, rfl, rfl, rfl⟩
  · have h : Idle s (sendCmd (nextOutcome bus).1 [displayOn] s).1 := idle_sendCmd _ rfl
    exact ⟨h.buffer, h.dirty, h.initialized, h.scrolling, h.cells⟩

theorem idle_off (bus : List Outcome) (s : State) : Idle s (off bus s).1 := by
  unfold off
  split_ifs
  · exact ⟨rfl, rfl, rfl, rfl, rfl⟩
  · have h : Idle s (sendCmd (nextOutcome bus).1 [displayOff] s).1 := idle_sendCmd _ rfl
    exact ⟨h.buffer, h.dirty, h.initialized, h.scrolling, h.cells⟩

/-- The next dirty block. -/
theorem nextDirty_spec {dirty n k i : ℕ} (hle : k ≤ i) (hlt : i < k + n)
    (hbit : dirty.testBit i = true) :
    k ≤ nextDirty dirty n k ∧ nextDirty dirty n k ≤ i ∧
      dirty.testBit (nextDirty dirty n k) = true ∧
        ∀ b, k ≤ b → b < nextDirty dirty n k → dirty.testBit b = false := by
  induction n generalizing k with
  | zero => omega
  | succ n ih =>
    unfold nextDirty
    split_ifs with hk
    · exact ⟨Nat.le_refl k, hle, hk, fun b hb hb' => absurd hb' (by omega)⟩
    · have hne : k ≠ i := by
        rintro rfl
        exact hk hbit
      obtain ⟨hfirst, hlast, hdirty, hclean⟩ := ih (k := k + 1) (by omega) (by omega)
      refine ⟨by omega, hlast, hdirty, fun b hb hb' => ?_⟩
      rcases Nat.eq_or_lt_of_le hb with rfl | hlt'
      · exact Bool.eq_false_iff.mpr hk
      · exact hclean b hlt' hb'

/-- The mark of a block is cleared. -/
theorem testBit_clear {k : ℕ} (hk : k < g.blockCount) (dirty i : ℕ) :
    (dirty ^^^ (dirty &&& g.blockBit k)).testBit i = (dirty.testBit i && !decide (k = i)) := by
  rw [Nat.testBit_xor, Nat.testBit_and, testBit_blockBit hk]
  cases dirty.testBit i <;> cases decide (k = i) <;> rfl

/-- A block that the display got is shown. -/
theorem Shown.block (halign : g.Aligned) (h : Shown g s) {k : ℕ} (hk : k < g.blockCount) :
    Shown g { s with
      display := (s.display.select (blockWindow g (g.blockSize * k))).puts
        (s.buffer.load (g.blockSize * k) g.blockSize)
      dirty := s.dirty ^^^ (s.dirty &&& g.blockBit k) } := by
  intro j hj hclean
  dsimp only at hclean ⊢
  rw [testBit_clear hk] at hclean
  by_cases hblock : j / g.blockSize = k
  · obtain ⟨hle, hlt⟩ := (div_eq_iff_block g j k).mp hblock
    exact shown_block halign s.display s.buffer hle hlt
  · rw [shown_outside halign s.display (by rw [Memory.load_length])
      (fun hin => hblock ((div_eq_iff_block g j k).mpr hin))]
    refine h j hj ?_
    simpa [Ne.symm hblock] using hclean

/-- A block of which the display got the first bytes only is still dirty. -/
theorem Shown.part (halign : g.Aligned) (h : Shown g s) {k : ℕ}
    (hdirty : s.dirty.testBit k = true) (received : ℕ) :
    Shown g { s with
      display := (s.display.select (blockWindow g (g.blockSize * k))).puts
        ((s.buffer.load (g.blockSize * k) g.blockSize).take received) } := by
  intro j hj hclean
  dsimp only at hclean ⊢
  have hblock : j / g.blockSize ≠ k := by
    rintro rfl
    rw [hdirty] at hclean
    exact absurd hclean nofun
  rw [shown_outside halign s.display (by rw [List.length_take, Memory.load_length]; omega)
    (fun hin => hblock ((div_eq_iff_block g j k).mpr hin))]
  exact h j hj hclean

theorem nextOutcome_success (h : ∀ outcome ∈ bus, outcome = .success) :
    (nextOutcome bus).1 = .success ∧ ∀ outcome ∈ (nextOutcome bus).2, outcome = .success := by
  cases bus with
  | nil => exact ⟨rfl, h⟩
  | cons outcome bus =>
    exact ⟨h outcome List.mem_cons_self, fun o ho => h o (List.mem_cons_of_mem _ ho)⟩

/-- What rendering brings about. -/
structure Rendered (g : Geometry) (s s' : State) : Prop where
  shown : Shown g s'
  initialized : s'.initialized = s.initialized
  scrolling : s'.scrolling = s.scrolling

/-- The loop that renders dirty blocks.  All dirty blocks are from {lit}`m` on; without a
failure each round is done with one more of them. -/
theorem renderLoop_spec (halign : g.Aligned) {all : Bool} {n m : ℕ} (first processed : ℕ)
    (bus : List Outcome) (h : Shown g s)
    (hbits : ∀ i, s.dirty.testBit i = true → m ≤ i ∧ i < g.blockCount)
    (hfirst : first ≤ m) :
    Rendered g s (renderLoop g all n first processed bus s) ∧
      (all = true → (∀ outcome ∈ bus, outcome = .success) → g.blockCount ≤ m + n →
        (renderLoop g all n first processed bus s).dirty = 0) := by
  induction n generalizing s first m processed bus with
  | zero =>
    refine ⟨⟨h, rfl, rfl⟩, fun _ _ hle => Nat.eq_of_testBit_eq fun i => ?_⟩
    rw [Nat.zero_testBit, ← Bool.not_eq_true]
    intro hbit
    have := hbits i hbit
    omega
  | succ n ih =>
    unfold renderLoop
    split_ifs with hmore
    · obtain ⟨i, hi⟩ := Nat.exists_testBit_of_ne_zero hmore.1
      obtain ⟨hmi, hilt⟩ := hbits i hi
      obtain ⟨hk, _, hdirty, hclean⟩ := nextDirty_spec (n := g.blockCount) (k := first)
        (by omega) (by omega) hi
      dsimp only
      generalize nextDirty s.dirty g.blockCount first = k at hk hdirty hclean ⊢
      obtain ⟨hmk, hklt⟩ := hbits k hdirty
      cases hcmd : (nextOutcome bus).1 with
      | failure window place received =>
        have hidle : Idle s (sendCmd (.failure window place received) (calcBounds g k) s).1 :=
          ⟨rfl, rfl, rfl, rfl, rfl⟩
        refine ⟨⟨h.idle hidle, rfl, rfl⟩, fun _ hok => ?_⟩
        rw [(nextOutcome_success hok).1] at hcmd
        exact absurd hcmd nofun
      | success =>
        simp only [sendCmd, if_true, runCommands_calcBounds halign hklt]
        cases hdata : (nextOutcome (nextOutcome bus).2).1 with
        | failure window place received =>
          refine ⟨⟨h.part halign hdirty received, rfl, rfl⟩, fun _ hok => ?_⟩
          rw [(nextOutcome_success (nextOutcome_success hok).2).1] at hdata
          exact absurd hdata nofun
        | success =>
          simp only [sendData, if_true]
          have hbits' : ∀ b, (s.dirty ^^^ (s.dirty &&& g.blockBit k)).testBit b = true →
              k + 1 ≤ b ∧ b < g.blockCount := by
            intro b hb
            rw [testBit_clear hklt] at hb
            simp only [Bool.and_eq_true, Bool.not_eq_true', decide_eq_false_iff_not] at hb
            obtain ⟨hmb, hblt⟩ := hbits b hb.1
            refine ⟨?_, hblt⟩
            by_contra hbk
            rw [hclean b (by omega) (by omega)] at hb
            exact absurd hb.1 nofun
          obtain ⟨hrendered, hdone⟩ := ih k (processed + 1) (nextOutcome (nextOutcome bus).2).2
            (h.block halign hklt) hbits' (Nat.le_succ k)
          refine ⟨⟨hrendered.shown, hrendered.initialized, hrendered.scrolling⟩, ?_⟩
          intro hall hok hle
          exact hdone hall (nextOutcome_success (nextOutcome_success hok).2).2 (by omega)
    · refine ⟨⟨h, rfl, rfl⟩, fun hall _ _ => ?_⟩
      by_contra hne
      exact hmore ⟨hne, Or.inr hall⟩

/-- All dirty blocks are blocks of the display. -/
theorem rendered_masked (halign : g.Aligned) (h : Shown g s)
    (hbits : ∀ i, s.dirty.testBit i = true → 0 ≤ i ∧ i < g.blockCount) (all : Bool)
    (bus : List Outcome) (s' : State)
    (hs' : s' = if s.dirty = 0 ∨ ¬ s.initialized ∨ s.scrolling then s
      else renderLoop g all g.blockCount 0 0 (on bus s).2 (on bus s).1) :
    Rendered g s s' ∧ (all = true → s.initialized = true → s.scrolling = false →
      (∀ outcome ∈ bus, outcome = .success) → s'.dirty = 0) := by
  split_ifs at hs' with hnothing
  · subst hs'
    refine ⟨⟨h, rfl, rfl⟩, fun _ hinit hscroll _ => ?_⟩
    rw [hinit, hscroll] at hnothing
    simpa using hnothing
  · subst hs'
    have hidle := idle_on bus s
    rw [← hidle.dirty] at hbits
    obtain ⟨hrendered, hdone⟩ := renderLoop_spec (n := g.blockCount) halign 0 0 (on bus s).2
      (h.idle hidle) hbits (Nat.le_refl 0)
    refine ⟨⟨hrendered.shown, ?_, ?_⟩, fun hall _ _ hok => hdone hall ?_ (Nat.le_add_left _ _)⟩
    · rw [hrendered.initialized, hidle.initialized]
    · rw [hrendered.scrolling, hidle.scrolling]
    · unfold on
      split_ifs
      · exact hok
      · exact (nextOutcome_success hok).2

/-- {lit}`oled_render_dirty` keeps blocks dirty that the display does not show. -/
theorem shown_renderDirty (halign : g.Aligned)
    (hwhole : g.blockCount * g.blockSize = g.matrixSize) (h : Shown g s) (all : Bool)
    (bus : List Outcome) :
    Rendered g s (renderDirty g all bus s) ∧
      (all = true → s.initialized = true → s.scrolling = false →
        (∀ outcome ∈ bus, outcome = .success) → (renderDirty g all bus s).dirty = 0) := by
  have hmasked : Shown g { s with dirty := s.dirty &&& g.allBlocksMask } := by
    intro j hj hclean
    refine h j hj ?_
    dsimp only at hclean
    rw [Nat.testBit_and, testBit_allBlocksMask, decide_eq_true (block_lt hwhole hj),
      Bool.and_true] at hclean
    exact hclean
  have hbits : ∀ i, (s.dirty &&& g.allBlocksMask).testBit i = true →
      0 ≤ i ∧ i < g.blockCount := by
    intro i hi
    rw [Nat.testBit_and, testBit_allBlocksMask, Bool.and_eq_true] at hi
    exact ⟨Nat.zero_le i, of_decide_eq_true hi.2⟩
  obtain ⟨hrendered, hdone⟩ := rendered_masked halign hmasked hbits all bus
    (renderDirty g all bus s) rfl
  exact ⟨⟨hrendered.shown, hrendered.initialized, hrendered.scrolling⟩, hdone⟩

end Render

/-! ## Runs -/

section Runs

variable {g : Geometry}

/-- Blocks that are not dirty are shown, and the display is awake. -/
structure Inv (g : Geometry) (s : State) : Prop where
  shown : Shown g s
  initialized : s.initialized = true
  scrolling : s.scrolling = false

theorem inv_start (hwhole : g.blockCount * g.blockSize = g.matrixSize) (memory : Memory UInt8)
    (display : Raster UInt8) : Inv g (start g memory display) := by
  refine ⟨fun j hj hclean => ?_, rfl, rfl⟩
  have hdirty : g.allBlocksMask.testBit (j / g.blockSize) = false := hclean
  rw [testBit_allBlocksMask, decide_eq_true (block_lt hwhole hj)] at hdirty
  exact absurd hdirty nofun

theorem Inv.step (halign : g.Aligned) (hwhole : g.blockCount * g.blockSize = g.matrixSize)
    {s : State} (h : Inv g s) {call : Call} (hin : InBuffer g s call)
    (hcovered : EachGlyph g (Covered g) s call) : Inv g (step g s call) := by
  have hdraw (hrender : ∀ all bus, call ≠ .renderDirty all bus) (hoff : ∀ bus, call ≠ .off bus) :
      Inv g (Oled.step g s call) := by
    have hmarks := marks_step hwhole hrender hoff hin hcovered
    exact ⟨h.shown.marks hwhole hmarks, hmarks.initialized.trans h.initialized,
      hmarks.scrolling.trans h.scrolling⟩
  cases call with
  | renderDirty all bus =>
    have hrendered := (shown_renderDirty halign hwhole h.shown all bus).1
    exact ⟨hrendered.shown, hrendered.initialized.trans h.initialized,
      hrendered.scrolling.trans h.scrolling⟩
  | off bus =>
    have hidle := idle_off bus s
    exact ⟨h.shown.idle hidle, hidle.initialized.trans h.initialized,
      hidle.scrolling.trans h.scrolling⟩
  | _ => exact hdraw nofun nofun

theorem Inv.tracked (halign : g.Aligned) (hwhole : g.blockCount * g.blockSize = g.matrixSize)
    {s : State} (h : Inv g s) : Tracked g s := by
  refine ⟨h.shown, fun bus hok j hj => ?_⟩
  obtain ⟨hrendered, hdone⟩ := shown_renderDirty halign hwhole h.shown true bus
  refine hrendered.shown j hj ?_
  rw [hdone rfl h.initialized h.scrolling hok, Nat.zero_testBit]

end Runs

/-- If the blocks make up the buffer and all glyphs mark what they change, blocks that are
not dirty are shown after every run. -/
theorem dirtyTracking (g : Geometry) (halign : g.Aligned)
    (hwhole : g.blockCount * g.blockSize = g.matrixSize) (memory : Memory UInt8)
    (display : Raster UInt8) (calls : List Call)
    (hin : StateMachine.Along (step g) (InBuffer g) (start g memory display) calls)
    (hcovered : StateMachine.Along (step g) (EachGlyph g (Covered g)) (start g memory display)
      calls) :
    Tracked g (StateMachine.run (step g) (start g memory display) calls) :=
  (StateMachine.run_invariant (Inv g)
    (fun _ _ h hcall => h.step halign hwhole hcall.1 hcall.2)
    (inv_start hwhole memory display) (hin.and hcovered)).tracked halign hwhole

/-- A display of 16 columns and one page, with 8 blocks of two bytes, or two blocks of eight
bytes. -/
def smallDisplay (blockCount blockSize : ℕ) (hpos : 0 < blockCount) (hle : blockCount ≤ 8)
    (hsize : 0 < blockSize) (hblocks : blockCount * blockSize ≤ 1 * 16) : Geometry where
  displayWidth := 16
  pages := 1
  columnOffset := 0
  blockBits := 8
  blockCount := blockCount
  blockSize := blockSize
  updateProcessLimit := 1
  fontWidth := 6
  fontStart := 0
  fontEnd := 1
  font := [0, 0, 0, 0, 0, 0, 0x3E, 0x5B, 0x4F, 0x5B, 0x3E, 0x00]
  width_pos := Nat.lt_of_lt_of_le (Nat.mul_pos hpos hsize) hblocks
  width_lt := by decide
  columns_le := by decide
  pages_le := by decide
  matrix_lt := by decide
  count_pos := hpos
  count_le := hle
  size_pos := hsize
  blocks_le := hblocks
  fontWidth_pos := by decide
  font_le := by decide

/-- Before it is rendered the display shows nothing. -/
def blankDisplay : Raster UInt8 where
  cells := fun _ _ => 0
  window := ⟨0, 0, 0, 0⟩
  place := (0, 0)

/-- All is rendered, and a glyph is drawn. -/
def drawGlyph : List Call :=
  [.renderDirty true [], .writeChar 1 false]

theorem dirtyTracking_drawGlyph :
    Tracked (smallDisplay 2 8 (by decide) (by decide) (by decide) (by decide))
      (StateMachine.run (step (smallDisplay 2 8 (by decide) (by decide) (by decide) (by decide)))
        (start (smallDisplay 2 8 (by decide) (by decide) (by decide) (by decide)) (fun _ => 0)
          blankDisplay) drawGlyph) :=
  dirtyTracking (smallDisplay 2 8 (by decide) (by decide) (by decide) (by decide))
    (by decide) (by decide) (fun _ => 0) blankDisplay drawGlyph (by decide +kernel)
    (by decide +kernel)

/-- With blocks of two bytes a glyph spans three of them, and the one in the middle is not
marked. -/
theorem not_dirtyTracking_drawGlyph :
    ¬ ∀ g : Geometry, g.Aligned → ∀ (memory : Memory UInt8) (display : Raster UInt8)
      (calls : List Call),
      StateMachine.Along (step g) (InBuffer g) (start g memory display) calls →
        Tracked g (StateMachine.run (step g) (start g memory display) calls) := by
  intro h
  have hshown := (h (smallDisplay 8 2 (by decide) (by decide) (by decide) (by decide))
    (by decide) (fun _ => 0) blankDisplay drawGlyph (by decide +kernel)).1 2 (by decide)
  exact absurd (hshown (by decide +kernel)) (by decide +kernel)

end Oled
end VialQmk
