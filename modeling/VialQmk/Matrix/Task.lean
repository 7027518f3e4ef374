import VialQmk.Library.Runs
import VialQmk.Library.Sweep
import Mathlib.Data.Fintype.Pi

/-!
# The matrix task

{lit}`matrix_task` compares the scanned matrix with the rows it has stored, and hands the keys
that have changed to {lit}`action_exec`.  A row that may show a ghost is left for later.  A call
that finds no change sends a tick event instead, at most one in a millisecond.

Main results:

- Definition {lit}`matrixTask`: one call.
- Definition {lit}`Faithful`: what the events of a call have to say about the matrix.
- Theorem {lit}`run_faithful_iff`: the calls of a run are faithful if and only if none of them
  finds changes in ghosted rows only while a tick is due.
-/

namespace VialQmk
namespace MatrixTask

variable {rows cols : ℕ}

/-! ## The code -/

/-- {lit}`MATRIX_HAS_GHOST` -/
structure Config where
  hasGhost : Bool

/-- What a call reads: {lit}`matrix_can_read`, the timer, the scanned rows, the keycodes of
layer 0, and {lit}`should_process_keypress`. -/
structure Call (rows cols : ℕ) where
  canRead : Bool
  now : UInt16
  matrix : Fin rows → BitVec cols
  keycodeAt : Fin rows → Fin cols → UInt16
  processKeypress : Bool

/-- {lit}`keyevent_t`, of the two types that are made here -/
inductive Event (rows cols : ℕ)
  | key (row : Fin rows) (col : Fin cols) (pressed : Bool) (time : UInt16)
  | tick (time : UInt16)
  deriving DecidableEq

/-- The calls that tell others of a change. -/
inductive Output (rows cols : ℕ)
  | actionExec (event : Event rows cols)
  | switchEvents (row : Fin rows) (col : Fin cols) (pressed : Bool)
  deriving DecidableEq

/-- {lit}`matrix_previous` and {lit}`last_tick` -/
structure State (rows cols : ℕ) where
  previous : Fin rows → BitVec cols
  lastTick : UInt16

/-- The stored rows, and what has been called so far. -/
structure Progress (rows cols : ℕ) where
  previous : Fin rows → BitVec cols
  outputs : List (Output rows cols)

variable (c : Config) (call : Call rows cols)

/-- {lit}`get_real_keys` -/
def getRealKeys (row : Fin rows) (rowdata : BitVec cols) : BitVec cols :=
  (List.finRange cols).foldl (fun out col =>
    if call.keycodeAt row col ≠ 0 ∧ rowdata.getLsbD col = true then
      out ||| (BitVec.ofNat cols 1 <<< col.val)
    else out) 0

/-- {lit}`popcount_more_than_one` -/
def popcountMoreThanOne (rowdata : BitVec cols) : Bool :=
  decide (rowdata &&& (rowdata - 1) ≠ 0)

/-- {lit}`has_ghost_in_row` -/
def hasGhostInRow (row : Fin rows) (rowdata : BitVec cols) : Bool :=
  if c.hasGhost = true then
    let rowdata := getRealKeys call row rowdata
    if popcountMoreThanOne rowdata = false then false
    else (List.finRange rows).any fun i =>
      decide (i ≠ row) && popcountMoreThanOne (getRealKeys call i (call.matrix i) &&& rowdata)
  else false

/-- {lit}`generate_tick_event` -/
def generateTickEvent (now : UInt16) (s : State rows cols) :
    State rows cols × List (Output rows cols) :=
  if now - s.lastTick ≠ 0 then ({ s with lastTick := now }, [.actionExec (.tick now)])
  else (s, [])

/-- One round of the loop over the columns. -/
def processKey (row : Fin rows) (currentRow rowChanges : BitVec cols) (p : Progress rows cols)
    (col : Fin cols) : Progress rows cols :=
  if rowChanges.getLsbD col = true then
    let keyPressed := currentRow.getLsbD col
    let keyEvents :=
      if call.processKeypress = true then [.actionExec (.key row col keyPressed call.now)] else []
    { p with outputs := p.outputs ++ keyEvents ++ [.switchEvents row col keyPressed] }
  else p

/-- One round of the loop over the rows. -/
def processRow (p : Progress rows cols) (row : Fin rows) : Progress rows cols :=
  let currentRow := call.matrix row
  let rowChanges := currentRow ^^^ p.previous row
  if rowChanges = 0 ∨ hasGhostInRow c call row currentRow = true then p
  else
    let p := (List.finRange cols).foldl (processKey call row currentRow rowChanges) p
    { p with previous := Function.update p.previous row currentRow }

/-- The test for changes. -/
def matrixChanged (s : State rows cols) : Bool :=
  (List.finRange rows).any fun row => decide (s.previous row ^^^ call.matrix row ≠ 0)

/-- {lit}`matrix_task`, with what it calls and returns. -/
def matrixTask (s : State rows cols) : State rows cols × List (Output rows cols) × Bool :=
  if call.canRead = false then
    let tick := generateTickEvent call.now s
    (tick.1, tick.2, false)
  else if matrixChanged call s = false then
    let tick := generateTickEvent call.now s
    (tick.1, tick.2, false)
  else
    let p := (List.finRange rows).foldl (processRow c call) ⟨s.previous, []⟩
    ({ s with previous := p.previous }, p.outputs, true)

/-- The state, and everything that has been called. -/
structure Board (rows cols : ℕ) where
  state : State rows cols
  outputs : List (Output rows cols)

/-- A call of {lit}`matrix_task` -/
def step (b : Board rows cols) (call : Call rows cols) : Board rows cols :=
  let res := matrixTask c call b.state
  ⟨res.1, b.outputs ++ res.2.1⟩

/-- No keys down, at time 0. -/
def start : Board rows cols :=
  ⟨⟨fun _ => 0, 0⟩, []⟩

/-! ## The events -/

/-- What {lit}`action_exec` is told about a key: is it pressed or released? -/
def Output.pressAt (row : Fin rows) (col : Fin cols) : Output rows cols → Option Bool
  | .actionExec (.key row' col' pressed _) =>
    if row' = row ∧ col' = col then some pressed else none
  | .actionExec (.tick _) => none
  | .switchEvents _ _ _ => none

/-- The presses and releases of a key. -/
def pressesAt (row : Fin rows) (col : Fin cols) (outputs : List (Output rows cols)) : List Bool :=
  outputs.filterMap (Output.pressAt row col)

/-- The time of a tick event. -/
def Output.tickTime : Output rows cols → Option UInt16
  | .actionExec (.tick time) => some time
  | .actionExec (.key _ _ _ _) => none
  | .switchEvents _ _ _ => none

/-- The time of the latest tick event. -/
def latestTick (outputs : List (Output rows cols)) : UInt16 :=
  (outputs.filterMap Output.tickTime).getLast?.getD 0

/-- Presses and releases take turns. -/
def Alternates : Bool → List Bool → Prop
  | _, [] => True
  | next, pressed :: later => pressed = next ∧ Alternates (!next) later

/-- A key is down when it was pressed last. -/
def isDown (presses : List Bool) : Bool :=
  presses.getLast?.getD false

/-- What the events have to say: the presses and releases of each key take turns, the stored
matrix is what they describe, and that of the scan where no ghost was found, and an event is
delivered when the time is not that of the latest tick. -/
structure Faithful (b : Board rows cols) (call : Call rows cols) : Prop where
  alternates : ∀ row col, Alternates true (pressesAt row col (step c b call).outputs)
  recorded : ∀ row (col : Fin cols), ((step c b call).state.previous row).getLsbD col =
    isDown (pressesAt row col (step c b call).outputs)
  scanned : call.canRead = true → ∀ row, hasGhostInRow c call row (call.matrix row) = false →
    (step c b call).state.previous row = call.matrix row
  driven : call.now ≠ latestTick b.outputs →
    ∃ event, .actionExec event ∈ (matrixTask c call b.state).2.1

/-- There is a tick event, or a key event, or none is due: no changes, or a change in a row
without a ghost. -/
def Heard (b : Board rows cols) (call : Call rows cols) : Prop :=
  call.now = latestTick b.outputs ∨ call.canRead = false ∨
    (∀ row, call.matrix row = b.state.previous row) ∨
      ∃ row, call.matrix row ≠ b.state.previous row ∧
        hasGhostInRow c call row (call.matrix row) = false

/-! ### Lists of presses -/

theorem Alternates.append_singleton {next : Bool} {presses : List Bool}
    (h : Alternates next presses) {pressed : Bool}
    (hpressed : pressed = !(presses.getLast?.getD (!next))) :
    Alternates next (presses ++ [pressed]) := by
  induction presses generalizing next with
  | nil =>
    rw [hpressed]
    exact ⟨Bool.not_not next, trivial⟩
  | cons first presses ih =>
    refine ⟨h.1, ih h.2 ?_⟩
    rw [hpressed, List.getLast?_cons, h.1, Bool.not_not]
    rfl

@[simp]
theorem isDown_nil : isDown [] = false :=
  rfl

@[simp]
theorem isDown_append_singleton (presses : List Bool) (pressed : Bool) :
    isDown (presses ++ [pressed]) = pressed := by
  simp [isDown]

@[simp]
theorem pressesAt_append (row : Fin rows) (col : Fin cols)
    (outputs outputs' : List (Output rows cols)) :
    pressesAt row col (outputs ++ outputs') =
      pressesAt row col outputs ++ pressesAt row col outputs' :=
  List.filterMap_append

/-- What a change of a key adds to its presses and releases. -/
theorem alternates_change {presses : List Bool} {bit bit' : Bool}
    (h : Alternates true presses) (hbit : bit = isDown presses) :
    Alternates true (presses ++ if (bit' ^^ bit) = true then [bit'] else []) ∧
      bit' = isDown (presses ++ if (bit' ^^ bit) = true then [bit'] else []) := by
  by_cases hsame : bit' = bit
  · rw [hsame, Bool.xor_self, if_neg Bool.false_ne_true, List.append_nil]
    exact ⟨h, hbit⟩
  · have hxor : (bit' ^^ bit) = true := by
      rw [bne_iff_ne]
      exact hsame
    rw [if_pos hxor, isDown_append_singleton]
    refine ⟨h.append_singleton ?_, rfl⟩
    rw [Bool.not_true, ← isDown, ← hbit]
    cases bit <;> cases bit' <;> simp_all

/-! ## The loops -/

section Loops

variable {c call} {row : Fin rows} {col : Fin cols} {currentRow rowChanges : BitVec cols}

theorem processKey_eq (hprocess : call.processKeypress = true) (p : Progress rows cols) :
    processKey call row currentRow rowChanges p col =
      if rowChanges.getLsbD col = true then
        { p with outputs := p.outputs ++
            [.actionExec (.key row col (currentRow.getLsbD col) call.now),
              .switchEvents row col (currentRow.getLsbD col)] }
      else p := by
  simp [processKey, hprocess]

/-- The columns that have changed, in a call that processes them. -/
theorem processKeys_pressesAt (hprocess : call.processKeypress = true) (p : Progress rows cols) :
    pressesAt row col
        ((List.finRange cols).foldl (processKey call row currentRow rowChanges) p).outputs =
      pressesAt row col p.outputs ++
        if rowChanges.getLsbD col = true then [currentRow.getLsbD col] else [] := by
  refine @Sweep.get_foldl _ _ _ _ (fun col (p : Progress rows cols) => pressesAt row col p.outputs)
    (fun col presses =>
      presses ++ if rowChanges.getLsbD col = true then [currentRow.getLsbD col] else [])
    ?_ ?_ _ (List.nodup_finRange cols) col (List.mem_finRange col) p
  · intro p col
    rw [processKey_eq hprocess]
    split_ifs
    · simp [pressesAt, Output.pressAt]
    · simp
  · intro p col col' hne
    rw [processKey_eq hprocess]
    split_ifs
    · simp [pressesAt, Output.pressAt, hne]
    · rfl

/-- The columns of another row. -/
theorem processKeys_pressesAt_of_ne (hprocess : call.processKeypress = true) {row' : Fin rows}
    (hne : row' ≠ row) (p : Progress rows cols) :
    pressesAt row col
        ((List.finRange cols).foldl (processKey call row' currentRow rowChanges) p).outputs =
      pressesAt row col p.outputs := by
  refine Sweep.keep_foldl (fun p : Progress rows cols => pressesAt row col p.outputs) ?_ _ p
  intro p col'
  rw [processKey_eq hprocess]
  split_ifs
  · simp [pressesAt, Output.pressAt, hne]
  · rfl

theorem processKeys_previous (p : Progress rows cols) :
    ((List.finRange cols).foldl (processKey call row currentRow rowChanges) p).previous =
      p.previous := by
  refine Sweep.keep_foldl Progress.previous ?_ _ p
  intro p col
  unfold processKey
  split_ifs <;> rfl

/-- The rounds tell of a change in a row with one. -/
theorem processKeys_delivers (hprocess : call.processKeypress = true) (hchanges : rowChanges ≠ 0)
    (p : Progress rows cols) : ∃ event, Output.actionExec event ∈
      ((List.finRange cols).foldl (processKey call row currentRow rowChanges) p).outputs := by
  have hcol : ∃ col : Fin cols, rowChanges.getLsbD col = true := by
    by_contra hnone
    rw [not_exists] at hnone
    apply hchanges
    apply BitVec.eq_of_getLsbD_eq
    intro i hi
    rw [Bool.eq_false_iff.mpr (hnone ⟨i, hi⟩)]
    simp
  rcases hcol with ⟨col, hcol⟩
  refine (@Sweep.flag_foldl _ _ _ _ (fun _ _ => ())
    (fun p : Progress rows cols => ∃ event, Output.actionExec event ∈ p.outputs)
    (fun (col : Fin cols) _ => rowChanges.getLsbD col = true) (fun _ _ _ _ => rfl) ?_
    _ (List.nodup_finRange cols) p).mpr (Or.inr ⟨col, List.mem_finRange col, hcol⟩)
  intro p col
  rw [processKey_eq hprocess]
  split_ifs with hbit
  · exact iff_of_true ⟨.key row col (currentRow.getLsbD col) call.now, by simp⟩ (Or.inr hbit)
  · exact (or_iff_left hbit).symm

/-- Something is told in a round only if it has been told before, or the row has changed. -/
theorem processRow_delivers (hprocess : call.processKeypress = true) (p : Progress rows cols) :
    (∃ event, Output.actionExec event ∈ (processRow c call p row).outputs) ↔
      (∃ event, Output.actionExec event ∈ p.outputs) ∨
        (call.matrix row ≠ p.previous row ∧ hasGhostInRow c call row (call.matrix row) = false) := by
  unfold processRow
  dsimp only
  split_ifs with hskip
  · rw [or_iff_left]
    rintro ⟨hne, hghost⟩
    rcases hskip with hsame | hghost'
    · exact hne (by simpa using hsame)
    · exact absurd (hghost'.symm.trans hghost) Bool.true_eq_false_eq_False
  · rw [not_or, Bool.not_eq_true] at hskip
    refine iff_of_true (processKeys_delivers hprocess hskip.1 p) (Or.inr ⟨?_, hskip.2⟩)
    intro hsame
    exact hskip.1 (by simp [hsame])

/-- What a call makes of a row, and of the presses and releases of its keys. -/
def afterRow (c : Config) (call : Call rows cols) (row : Fin rows)
    (x : BitVec cols × (Fin cols → List Bool)) : BitVec cols × (Fin cols → List Bool) :=
  if call.matrix row = x.1 ∨ hasGhostInRow c call row (call.matrix row) = true then x
  else (call.matrix row, fun col => x.2 col ++
    if ((call.matrix row).getLsbD col ^^ x.1.getLsbD col) = true then
      [(call.matrix row).getLsbD col] else [])

theorem xor_eq_zero_iff (x y : BitVec cols) : x ^^^ y = 0 ↔ x = y :=
  BitVec.xor_eq_zero_iff

/-- What belongs to a row: what is stored of it, and the presses and releases of its keys. -/
def Progress.rowAt (row : Fin rows) (p : Progress rows cols) :
    BitVec cols × (Fin cols → List Bool) :=
  (p.previous row, fun col => pressesAt row col p.outputs)

theorem rowAt_processRow_of_ne (hprocess : call.processKeypress = true) (p : Progress rows cols)
    (row row' : Fin rows) (hne : row' ≠ row) : (processRow c call p row').rowAt row = p.rowAt row := by
  unfold processRow Progress.rowAt
  dsimp only
  split_ifs
  · rfl
  · simp only [Function.update_of_ne hne.symm, processKeys_previous,
      processKeys_pressesAt_of_ne hprocess hne]

theorem rowAt_processRow (hprocess : call.processKeypress = true) (p : Progress rows cols)
    (row : Fin rows) : (processRow c call p row).rowAt row = afterRow c call row (p.rowAt row) := by
  unfold processRow afterRow Progress.rowAt
  simp only [xor_eq_zero_iff]
  split_ifs with hskip
  · rfl
  · simp only [Function.update_self, processKeys_pressesAt hprocess, BitVec.getLsbD_xor]

theorem processRows_row (hprocess : call.processKeypress = true) (p : Progress rows cols)
    (row : Fin rows) : ((List.finRange rows).foldl (processRow c call) p).rowAt row =
      afterRow c call row (p.rowAt row) :=
  Sweep.get_foldl (f := afterRow c call) (rowAt_processRow hprocess) (rowAt_processRow_of_ne hprocess)
    (List.nodup_finRange rows) (List.mem_finRange row) p

/-- The loops tell of a change if and only if there is one in a row without a ghost. -/
theorem processRows_delivers (hprocess : call.processKeypress = true)
    (previous : Fin rows → BitVec cols) :
    (∃ event, Output.actionExec event ∈
      ((List.finRange rows).foldl (processRow c call) ⟨previous, []⟩).outputs) ↔
      ∃ row, call.matrix row ≠ previous row ∧
        hasGhostInRow c call row (call.matrix row) = false := by
  refine (@Sweep.flag_foldl _ _ _ _ Progress.rowAt
    (fun p : Progress rows cols => ∃ event, Output.actionExec event ∈ p.outputs)
    (fun row x => call.matrix row ≠ x.1 ∧ hasGhostInRow c call row (call.matrix row) = false)
    (rowAt_processRow_of_ne hprocess) (fun p _ => processRow_delivers hprocess p)
    _ (List.nodup_finRange rows) _).trans ?_
  simp [Progress.rowAt]

/-- The loops make no tick events. -/
theorem processRows_tickTime (p : Progress rows cols) :
    ((List.finRange rows).foldl (processRow c call) p).outputs.filterMap Output.tickTime =
      p.outputs.filterMap Output.tickTime := by
  refine Sweep.keep_foldl (fun p : Progress rows cols => p.outputs.filterMap Output.tickTime)
    ?_ _ p
  intro p row
  unfold processRow
  dsimp only
  split_ifs
  · rfl
  · refine Sweep.keep_foldl (fun p : Progress rows cols => p.outputs.filterMap Output.tickTime)
      ?_ _ p
    intro p col
    unfold processKey
    split_ifs
    · simp [Output.tickTime]
    · simp [Output.tickTime]
    · rfl

end Loops

/-! ## The call -/

section Calls

variable {c call} {s : State rows cols} {b : Board rows cols}

theorem matrixChanged_eq_false_iff :
    matrixChanged call s = false ↔ ∀ row, call.matrix row = s.previous row := by
  rw [matrixChanged, List.any_eq_false]
  apply forall_congr'
  intro row
  rw [decide_eq_true_iff, not_not, xor_eq_zero_iff, eq_comm]
  exact forall_prop_of_true (List.mem_finRange row)

theorem generateTickEvent_row (now : UInt16) (row : Fin rows) :
    ((generateTickEvent now s).1.previous row,
      fun col => pressesAt row col (generateTickEvent now s).2) = (s.previous row, fun _ => []) := by
  unfold generateTickEvent
  split_ifs <;> rfl

theorem generateTickEvent_delivers (now : UInt16) :
    (∃ event, Output.actionExec event ∈ (generateTickEvent now s).2) ↔ now ≠ s.lastTick := by
  by_cases hdue : now = s.lastTick
  · rw [generateTickEvent, hdue, if_neg (by simp)]
    simp
  · have hdiff : now - s.lastTick ≠ 0 := by
      rwa [Ne, UInt16.sub_eq_iff_eq_add, UInt16.zero_add]
    rw [generateTickEvent, if_pos hdiff]
    simp [hdue]

/-- What a call makes of a row, and of the presses and releases of its keys. -/
theorem matrixTask_row (hprocess : call.processKeypress = true) (row : Fin rows) :
    let x := ((matrixTask c call s).1.previous row,
      fun col => pressesAt row col (matrixTask c call s).2.1)
    (x = (s.previous row, fun _ => []) ∧
        (call.canRead = true → call.matrix row = s.previous row)) ∨
      x = afterRow c call row (s.previous row, fun _ => []) := by
  unfold matrixTask
  dsimp only
  split_ifs with hread hsame
  · exact Or.inl ⟨generateTickEvent_row call.now row,
      fun hread' => absurd (hread'.symm.trans hread) nofun⟩
  · exact Or.inl ⟨generateTickEvent_row call.now row,
      fun _ => matrixChanged_eq_false_iff.mp hsame row⟩
  · exact Or.inr (processRows_row hprocess ⟨s.previous, []⟩ row)

/-- A call delivers an event when a tick is due, or for a change in a row without a ghost. -/
theorem matrixTask_delivers (hprocess : call.processKeypress = true) :
    (∃ event, Output.actionExec event ∈ (matrixTask c call s).2.1) ↔
      if call.canRead = false ∨ matrixChanged call s = false then call.now ≠ s.lastTick
      else ∃ row, call.matrix row ≠ s.previous row ∧
        hasGhostInRow c call row (call.matrix row) = false := by
  unfold matrixTask
  by_cases hread : call.canRead = false
  · rw [if_pos hread, if_pos (Or.inl hread)]
    exact generateTickEvent_delivers call.now
  · by_cases hsame : matrixChanged call s = false
    · rw [if_neg hread, if_pos hsame, if_pos (Or.inr hsame)]
      exact generateTickEvent_delivers call.now
    · rw [if_neg hread, if_neg hsame, if_neg (not_or.mpr ⟨hread, hsame⟩)]
      exact processRows_delivers hprocess s.previous

theorem matrixTask_lastTick (c : Config) (call : Call rows cols) (b : Board rows cols)
    (htick : b.state.lastTick = latestTick b.outputs) :
    (step c b call).state.lastTick = latestTick (step c b call).outputs := by
  have hgenerate : (generateTickEvent call.now b.state).1.lastTick =
      latestTick (b.outputs ++ (generateTickEvent call.now b.state).2) := by
    unfold generateTickEvent latestTick
    split_ifs
    · simp [Output.tickTime]
    · rw [List.append_nil]
      exact htick
  unfold step matrixTask
  dsimp only
  split_ifs
  · exact hgenerate
  · exact hgenerate
  · rw [latestTick, List.filterMap_append, processRows_tickTime, List.filterMap_nil,
      List.append_nil]
    exact htick

/-! ## Runs -/

/-- The stored matrix is what the events describe. -/
structure Inv (b : Board rows cols) : Prop where
  alternates : ∀ row col, Alternates true (pressesAt row col b.outputs)
  recorded : ∀ row (col : Fin cols),
    (b.state.previous row).getLsbD col = isDown (pressesAt row col b.outputs)
  lastTick : b.state.lastTick = latestTick b.outputs

theorem inv_start : Inv (start : Board rows cols) :=
  ⟨fun _ _ => trivial, fun _ _ => by simp [start, pressesAt], rfl⟩

theorem Inv.step (h : Inv b) (hprocess : call.processKeypress = true) :
    Inv (MatrixTask.step c b call) := by
  have hkey : ∀ row (col : Fin cols),
      Alternates true (pressesAt row col (MatrixTask.step c b call).outputs) ∧
        ((MatrixTask.step c b call).state.previous row).getLsbD col =
          isDown (pressesAt row col (MatrixTask.step c b call).outputs) := by
    intro row col
    have hpresses : pressesAt row col (MatrixTask.step c b call).outputs =
        pressesAt row col b.outputs ++ pressesAt row col (matrixTask c call b.state).2.1 :=
      pressesAt_append row col _ _
    have hsame := And.intro (h.alternates row col) (h.recorded row col)
    rw [hpresses]
    rcases @matrixTask_row rows cols c call b.state hprocess row with ⟨hrow, -⟩ | hrow
    · rw [Prod.mk.injEq] at hrow
      rw [congrFun hrow.2 col, List.append_nil, MatrixTask.step, hrow.1]
      exact hsame
    · unfold afterRow at hrow
      split_ifs at hrow
      · rw [Prod.mk.injEq] at hrow
        rw [congrFun hrow.2 col, List.append_nil, MatrixTask.step, hrow.1]
        exact hsame
      · rw [Prod.mk.injEq] at hrow
        rw [congrFun hrow.2 col, MatrixTask.step, hrow.1, List.nil_append]
        exact alternates_change hsame.1 hsame.2
  exact ⟨fun row col => (hkey row col).1, fun row col => (hkey row col).2,
    matrixTask_lastTick c call b h.lastTick⟩

/-- A call is faithful if an event is heard when a tick is due. -/
theorem Inv.faithful_iff (h : Inv b) (hprocess : call.processKeypress = true) :
    Faithful c b call ↔ Heard c b call := by
  have hnext := h.step (c := c) hprocess
  have hdelivers := @matrixTask_delivers rows cols c call b.state hprocess
  rw [h.lastTick] at hdelivers
  constructor
  · intro hfaithful
    by_cases hnow : call.now = latestTick b.outputs
    · exact Or.inl hnow
    · have hevent := hdelivers.mp (hfaithful.driven hnow)
      split_ifs at hevent with hquiet
      · rcases hquiet with hread | hsame
        · exact Or.inr (Or.inl hread)
        · exact Or.inr (Or.inr (Or.inl (matrixChanged_eq_false_iff.mp hsame)))
      · exact Or.inr (Or.inr (Or.inr hevent))
  · intro hheard
    refine ⟨hnext.alternates, hnext.recorded, fun hread row hghost => ?_, fun hdue => ?_⟩
    · rcases @matrixTask_row rows cols c call b.state hprocess row with ⟨hrow, hsame⟩ | hrow
      · exact (congrArg Prod.fst hrow).trans (hsame hread).symm
      · unfold afterRow at hrow
        split_ifs at hrow with hskip
        · have hsame : call.matrix row = b.state.previous row := by
            rcases hskip with hsame | hghost'
            · exact hsame
            · exact absurd (hghost'.symm.trans hghost) nofun
          exact (congrArg Prod.fst hrow).trans hsame.symm
        · exact congrArg Prod.fst hrow
    · rw [hdelivers]
      split_ifs with hquiet
      · exact hdue
      · rw [not_or] at hquiet
        rcases hheard with hnow | hread | hsame | hrow
        · exact absurd hnow hdue
        · exact absurd hread hquiet.1
        · exact absurd (matrixChanged_eq_false_iff.mpr hsame) hquiet.2
        · exact hrow

end Calls

/-- The calls of a run that processes keypresses are faithful if and only if an event is heard in
each of them when a tick is due. -/
theorem run_faithful_iff (c : Config) (calls : List (Call rows cols))
    (hprocess : ∀ call ∈ calls, call.processKeypress = true) :
    StateMachine.Along (step c) (Faithful c) start calls ↔
      StateMachine.Along (step c) (Heard c) start calls := by
  have hcalls : StateMachine.Along (step c) (fun _ call => call.processKeypress = true) start
      calls :=
    StateMachine.along_of_forall fun call hmem _ => hprocess call hmem
  have hinv : StateMachine.Along (step c) (fun b call => Inv b ∧ call.processKeypress = true) start
      calls :=
    StateMachine.along_of_invariant Inv (fun _ _ h hp => h.step hp) (fun _ _ h hp => ⟨h, hp⟩)
      inv_start hcalls
  exact StateMachine.along_congr (fun _ _ h => h.1.faithful_iff h.2) hinv

/-- A key is pressed and released. -/
theorem run_faithful_iff_tap :
    let call (now : UInt16) (row : BitVec 2) : Call 1 2 :=
      ⟨true, now, fun _ => row, fun _ _ => 4, true⟩
    StateMachine.Along (step ⟨true⟩) (Faithful ⟨true⟩) start [call 5 1, call 6 1, call 7 0] := by
  intro call
  refine (run_faithful_iff ⟨true⟩ [call 5 1, call 6 1, call 7 0] (by simp [call])).mpr ?_
  refine ⟨?_, ?_, ?_, trivial⟩
  · exact Or.inr (Or.inr (Or.inr ⟨0, by decide +kernel, by decide +kernel⟩))
  · exact Or.inr (Or.inr (Or.inl fun row => by revert row; decide +kernel))
  · exact Or.inr (Or.inr (Or.inr ⟨0, by decide +kernel, by decide +kernel⟩))

/-- Two keys of a row are down.  A third one in another row shows a ghost, and while it is held
no event is delivered. -/
theorem not_faithful_ghost :
    let call (now : UInt16) (row row' : BitVec 2) : Call 2 2 :=
      ⟨true, now, fun i => if i = 0 then row else row', fun _ _ => 4, true⟩
    ¬ StateMachine.Along (step ⟨true⟩) (Faithful ⟨true⟩) start [call 5 3 0, call 6 3 3] := by
  intro call hfaithful
  have hdriven := hfaithful.2.1.driven (by decide +kernel)
  have hnone : (matrixTask ⟨true⟩ (call 6 3 3) (step ⟨true⟩ start (call 5 3 0)).state).2.1 = [] := by
    decide +kernel
  rw [hnone] at hdriven
  simp at hdriven

end MatrixTask
end VialQmk
