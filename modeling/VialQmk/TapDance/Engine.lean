import VialQmk.Library.Runs
import Mathlib.Logic.Function.Basic
import Mathlib.Tactic.Common

/-!
# Tap dance - engine

The callbacks of a tap dance send keycodes, and a keycode beyond the modified ones goes
through the whole keyboard: the engine is entered again while it is at work, by the same
dance or by another one.  A state therefore holds the calls that are still to be executed,
the next one first, and a step executes one of them.  A call that makes other calls puts
them in front.

The events of such keycodes share one key position and one variable for the keycode, which
is read when the event is processed.  The tapping code may keep them back.  Two ways in are left
out: the keycodes that a macro sends which a callback has started, and the events that the tapping
code has kept back and processes while a callback runs.

Main results:

- Definition {lit}`exec`: the functions of {lit}`process_tap_dance.c` and the callbacks of
  {lit}`vial.c`, one call at a time.
- Definition {lit}`step`: key events, host edits, the task and the calls in progress, in any
  order.
-/

namespace VialQmk
namespace TapDance

open Function (update)

/-! ## Keycodes and entries -/

/-- {lit}`QK_TAP_DANCE` -/
def qkTapDance : ℕ := 0x5700

/-- {lit}`QK_TAP_DANCE_MAX` -/
def qkTapDanceMax : ℕ := 0x57FF

/-- {lit}`QK_MODS_MAX` -/
def qkModsMax : ℕ := 0x1FFF

/-- {lit}`TD` -/
def td (i : ℕ) : ℕ :=
  qkTapDance + i

/-- {lit}`IS_QK_TAP_DANCE` -/
def isTapDance (keycode : ℕ) : Bool :=
  qkTapDance ≤ keycode && keycode ≤ qkTapDanceMax

/-- {lit}`QK_TAP_DANCE_GET_INDEX` -/
def getIndex (keycode : ℕ) : ℕ :=
  keycode % 256

/-- {lit}`vial_tap_dance_entry_t` -/
structure Entry where
  onTap : ℕ
  onHold : ℕ
  onDoubleTap : ℕ
  onTapHold : ℕ
  customTappingTerm : UInt16
deriving DecidableEq

/-- {lit}`tap_dance_state_t`, without the modifiers. -/
structure Dance where
  interruptingKeycode : ℕ
  count : UInt8
  pressed : Bool
  finished : Bool
  interrupted : Bool
deriving DecidableEq

/-- A dance that is not under way. -/
def Dance.zero : Dance :=
  ⟨0, 0, false, false, false⟩

/-- The values of {lit}`dance_state`. -/
inductive DanceStep
  | none
  | singleTap
  | singleHold
  | doubleTap
  | doubleHold
  | doubleSingleTap
  | moreTaps
deriving DecidableEq

/-- {lit}`dance_step` -/
def danceStep (d : Dance) : DanceStep :=
  if d.count = 1 then
    if d.interrupted || !d.pressed then .singleTap else .singleHold
  else if d.count = 2 then
    if d.interrupted then .doubleSingleTap
    else if d.pressed then .doubleHold
    else .doubleTap
  else .moreTaps

/-! ## State -/

/-- Where the keycode of an event comes from: from the keymap, where it may be another one
after a dance has finished, or from {lit}`g_vial_magic_keycode_override`.  An event of the
latter kind carries the dance whose callback has sent it, and the keycode it was sent
with. -/
inductive Source
  | keymap (keycode again : ℕ)
  | magic (owner : Option ℕ) (sent : ℕ)
deriving DecidableEq

/-- A keycode that goes down or up.  {lit}`owner` is the dance that has sent it. -/
structure Event where
  owner : Option ℕ
  keycode : ℕ
  pressed : Bool
deriving DecidableEq

/-- Calls that are still to be executed. -/
inductive Call
  /-- {lit}`process_record_quantum` up to {lit}`preprocess_tap_dance` -/
  | processRecord (src : Source) (pressed : Bool)
  /-- the second lookup of the keycode, when a dance has been finished -/
  | lookAgain (src : Source) (pressed : Bool)
  /-- the rest of {lit}`process_record_quantum` -/
  | processKeycode (owner : Option ℕ) (keycode : ℕ) (pressed : Bool)
  /-- {lit}`process_tap_dance` on a release -/
  | tapDanceRelease (keycode : ℕ)
  /-- {lit}`active_td` after a press -/
  | activate (i : ℕ)
  /-- {lit}`process_tap_dance_action_on_dance_finished` -/
  | onDanceFinished (i : ℕ)
  /-- what follows the callback there -/
  | afterFinished (i : ℕ)
  /-- {lit}`process_tap_dance_action_on_reset`, on a release or not -/
  | onReset (i : ℕ) (released : Bool)
  /-- what follows the callback there -/
  | afterReset (i : ℕ) (released : Bool)
  /-- the rest of {lit}`on_dance_finished`, after the tap -/
  | afterTap (st : DanceStep) (i : ℕ)
  /-- {lit}`vial_keycode_down` and {lit}`vial_keycode_up` -/
  | vialKeycode (owner : Option ℕ) (keycode : ℕ) (pressed : Bool)
deriving DecidableEq

/-- The dances, the entries in the EEPROM, and the calls in progress. -/
structure State where
  /-- {lit}`tap_dance_actions`: the memory from its start on -/
  dances : ℕ → Dance
  danceState : ℕ → DanceStep
  table : ℕ → Entry
  tdEntry : Entry
  activeTd : ℕ
  lastTapTime : UInt16
  now : UInt16
  /-- {lit}`g_vial_magic_keycode_override` -/
  magic : ℕ
  vialUnlockInProgress : Bool
  /-- events the tapping code keeps back -/
  waiting : List Event
  calls : List Call
  /-- the keycodes that have gone down and up -/
  log : List Event
  /-- the indices {lit}`tap_dance_actions` was accessed with -/
  accesses : List ℕ

/-- {lit}`VIAL_TAP_DANCE_ENTRIES`, and the tapping term of a key without one of its own. -/
structure Config where
  vialTapDanceEntries : ℕ
  tappingTerm : UInt16

namespace State

/-- Put calls in front. -/
def call (cs : List Call) (s : State) : State :=
  { s with calls := cs ++ s.calls }

/-- Access a dance. -/
def access (i : ℕ) (s : State) : State :=
  { s with accesses := s.accesses ++ [i] }

/-- Change a dance. -/
def modify (i : ℕ) (f : Dance → Dance) (s : State) : State :=
  { s with dances := update s.dances i (f (s.dances i)) }

/-- {lit}`keymap_key_to_keycode` for the position of the sent keycodes -/
def magicKeycode (s : State) : ℕ :=
  if s.vialUnlockInProgress then 0 else s.magic

/-- Count a tap. -/
def countTap (i : ℕ) (s : State) : State :=
  { (s.access i).modify i fun d => { d with pressed := true, count := d.count + 1 } with
    lastTapTime := s.now }

/-- The keycode of an event. -/
def lookup (s : State) : Source → ℕ
  | .keymap keycode _ => keycode
  | .magic _ _ => s.magicKeycode

/-- The keycode of an event after a dance was finished. -/
def lookupAgain (s : State) : Source → ℕ
  | .keymap _ keycode => keycode
  | .magic _ _ => s.magicKeycode

end State

/-- The dance that has sent an event. -/
def Source.owner : Source → Option ℕ
  | .keymap _ _ => none
  | .magic owner _ => owner

variable (c : Config)

/-- {lit}`dynamic_keymap_get_tap_dance` -/
def dynamicKeymapGetTapDance (s : State) (i : ℕ) : Option Entry :=
  if i < c.vialTapDanceEntries then some (s.table i) else none

/-- {lit}`get_tapping_term` for a tap-dance keycode -/
def getTappingTerm (s : State) (keycode : ℕ) : UInt16 :=
  if isTapDance keycode then
    match dynamicKeymapGetTapDance c s (getIndex keycode) with
    | some entry => entry.customTappingTerm
    | none => c.tappingTerm
  else c.tappingTerm

/-! ## Callbacks -/

/-- {lit}`vial_keycode_tap` -/
def vialKeycodeTap (i keycode : ℕ) : List Call :=
  [.vialKeycode (some i) keycode true, .vialKeycode (some i) keycode false]

/-- {lit}`on_dance` -/
def onDance (i : ℕ) (s : State) : State × List Call :=
  match dynamicKeymapGetTapDance c s i with
  | none => (s, [])
  | some entry =>
    let kc := entry.onTap
    let count := (s.dances i).count
    ({ s with tdEntry := entry },
      if kc ≠ 0 then
        if count = 3 then vialKeycodeTap i kc ++ vialKeycodeTap i kc ++ vialKeycodeTap i kc
        else if 3 < count then vialKeycodeTap i kc
        else []
      else [])

/-- The calls of {lit}`on_dance_finished`. -/
def finishedCalls (i : ℕ) (entry : Entry) : DanceStep → List Call
  | .singleTap => if entry.onTap ≠ 0 then [.vialKeycode (some i) entry.onTap true] else []
  | .singleHold =>
    if entry.onHold ≠ 0 then [.vialKeycode (some i) entry.onHold true]
    else if entry.onTap ≠ 0 then [.vialKeycode (some i) entry.onTap true]
    else []
  | .doubleTap =>
    if entry.onDoubleTap ≠ 0 then [.vialKeycode (some i) entry.onDoubleTap true]
    else if entry.onTap ≠ 0 then vialKeycodeTap i entry.onTap ++ [.afterTap .doubleTap i]
    else []
  | .doubleHold =>
    if entry.onTapHold ≠ 0 then [.vialKeycode (some i) entry.onTapHold true]
    else if entry.onTap ≠ 0 then vialKeycodeTap i entry.onTap ++ [.afterTap .doubleHold i]
    else if entry.onHold ≠ 0 then [.vialKeycode (some i) entry.onHold true]
    else []
  | .doubleSingleTap =>
    if entry.onTap ≠ 0 then vialKeycodeTap i entry.onTap ++ [.afterTap .doubleSingleTap i]
    else []
  | .none | .moreTaps => []

/-- The keycode that goes down after the tap in {lit}`on_dance_finished`. -/
def afterTapKeycode (entry : Entry) : DanceStep → ℕ
  | .doubleHold => if entry.onHold ≠ 0 then entry.onHold else entry.onTap
  | _ => entry.onTap

/-- The calls of {lit}`on_dance_reset`. -/
def resetCalls (i : ℕ) (entry : Entry) : DanceStep → List Call
  | .singleTap => if entry.onTap ≠ 0 then [.vialKeycode (some i) entry.onTap false] else []
  | .singleHold =>
    if entry.onHold ≠ 0 then [.vialKeycode (some i) entry.onHold false]
    else if entry.onTap ≠ 0 then [.vialKeycode (some i) entry.onTap false]
    else []
  | .doubleTap =>
    if entry.onDoubleTap ≠ 0 then [.vialKeycode (some i) entry.onDoubleTap false]
    else if entry.onTap ≠ 0 then [.vialKeycode (some i) entry.onTap false]
    else []
  | .doubleHold =>
    if entry.onTapHold ≠ 0 then [.vialKeycode (some i) entry.onTapHold false]
    else if entry.onTap ≠ 0 then
      if entry.onHold ≠ 0 then [.vialKeycode (some i) entry.onHold false]
      else [.vialKeycode (some i) entry.onTap false]
    else if entry.onHold ≠ 0 then [.vialKeycode (some i) entry.onHold false]
    else []
  | .doubleSingleTap => if entry.onTap ≠ 0 then [.vialKeycode (some i) entry.onTap false] else []
  | .none | .moreTaps => []

/-- {lit}`on_dance_finished` -/
def onDanceFinished (i : ℕ) (s : State) : State × List Call :=
  match dynamicKeymapGetTapDance c s i with
  | none => (s, [])
  | some entry =>
    let st := danceStep (s.dances i)
    ({ s with tdEntry := entry, danceState := update s.danceState i st }, finishedCalls i entry st)

/-- {lit}`on_dance_reset` -/
def onDanceReset (i : ℕ) (s : State) : State × List Call :=
  match dynamicKeymapGetTapDance c s i with
  | none => (s, [])
  | some entry =>
    let st := s.danceState i
    let s := s.modify i fun d => { d with count := 0 }
    ({ s with tdEntry := entry, danceState := update s.danceState i .none }, resetCalls i entry st)

/-! ## The engine -/

/-- {lit}`preprocess_tap_dance` interrupts the active dance. -/
def preprocessTapDance (src : Source) (keycode : ℕ) (pressed : Bool) (s : State) : State :=
  if pressed ∧ s.activeTd ≠ 0 ∧ keycode ≠ s.activeTd then
    let i := getIndex s.activeTd
    ((s.access i).modify i fun d =>
      { d with interrupted := true, interruptingKeycode := keycode }).call
      [.onDanceFinished i, .lookAgain src pressed]
  else s.call [.processKeycode src.owner keycode pressed]

/-- {lit}`process_record_vial`, which looks at releases only. -/
def processRecordVial (keycode : ℕ) (s : State) : State :=
  if isTapDance keycode then
    let idx := keycode - qkTapDance
    match dynamicKeymapGetTapDance c s idx with
    | none => s
    | some entry =>
      let s := { s.access idx with tdEntry := entry }
      let count := (s.dances idx).count
      if (count = 1 ∧ entry.onTap ≠ 0 ∧ entry.onHold ≠ 0 ∧ entry.onDoubleTap = 0 ∧
          entry.onTapHold = 0) ∨ (count = 2 ∧ entry.onDoubleTap ≠ 0) then
        (s.modify idx fun d => { d with pressed := false }).call [.onDanceFinished idx]
      else s
  else s

/-- {lit}`process_tap_dance` on a press -/
def processTapDance (keycode : ℕ) (s : State) : State :=
  if isTapDance keycode then
    let i := getIndex keycode
    let res := onDance c i (s.countTap i)
    res.1.call (res.2 ++ [.activate i])
  else s

/-- {lit}`process_tap_dance` on a release -/
def processTapDanceRelease (keycode : ℕ) (s : State) : State :=
  if isTapDance keycode then
    let i := getIndex keycode
    let s := (s.access i).modify i fun d => { d with pressed := false }
    if (s.dances i).finished then s.call [.onReset i true] else s
  else s

/-- {lit}`vial_keycode_down` and {lit}`vial_keycode_up`.  The tapping code may keep the
event back. -/
def vialKeycode (keepsBack : Bool) (owner : Option ℕ) (keycode : ℕ) (pressed : Bool)
    (s : State) : State :=
  let s := { s with magic := keycode }
  let e : Event := ⟨owner, keycode, pressed⟩
  if keycode ≤ qkModsMax then { s with log := s.log ++ [e] }
  else if keepsBack = true then { s with waiting := s.waiting ++ [e] }
  else s.call [.processRecord (.magic owner keycode) pressed]

/-- Execute a call. -/
def exec (keepsBack : Bool) (s : State) : Call → State
  | .processRecord src pressed => preprocessTapDance src (s.lookup src) pressed s
  | .lookAgain src pressed => s.call [.processKeycode src.owner (s.lookupAgain src) pressed]
  | .processKeycode owner keycode pressed =>
    let s := { s with log := s.log ++ [⟨owner, keycode, pressed⟩] }
    if pressed then processTapDance c keycode s
    else processRecordVial c keycode (s.call [.tapDanceRelease keycode])
  | .tapDanceRelease keycode => processTapDanceRelease keycode s
  | .activate i => { s with activeTd := if (s.dances i).finished then 0 else td i }
  | .onDanceFinished i =>
    if (s.dances i).finished then s.call [.afterFinished i]
    else
      let res := onDanceFinished c i (s.modify i fun d => { d with finished := true })
      res.1.call (res.2 ++ [.afterFinished i])
  | .afterFinished i =>
    let s := { s with activeTd := 0 }
    if (s.dances i).pressed then s else s.call [.onReset i false]
  | .onReset i released =>
    let res := onDanceReset c i s
    res.1.call (res.2 ++ [.afterReset i released])
  | .afterReset i released =>
    let s := s.modify i fun _ => Dance.zero
    if released ∧ s.activeTd = td i then { s with activeTd := 0 } else s
  | .afterTap st i => s.call [.vialKeycode (some i) (afterTapKeycode s.tdEntry st) true]
  | .vialKeycode owner keycode pressed => vialKeycode keepsBack owner keycode pressed s

/-! ## Runs -/

/-- What happens next. -/
inductive Input
  /-- the next call is executed, and the tapping code keeps back what it sends, or not -/
  | next (keepsBack : Bool)
  /-- a key event is processed, with the keycode it has, and the one it has after a dance
  was finished -/
  | key (keycode again : ℕ) (pressed : Bool)
  /-- a macro or another feature sends a keycode -/
  | send (keycode : ℕ) (pressed : Bool)
  /-- the tapping code processes the first event it has kept back -/
  | tapped
  /-- the host starts or ends the unlocking -/
  | unlock (inProgress : Bool)
  /-- {lit}`tap_dance_task` -/
  | task
  /-- time passes -/
  | time (now : UInt16)
  /-- {lit}`dynamic_keymap_set_tap_dance` -/
  | edit (i : ℕ) (entry : Entry)
deriving DecidableEq

/-- Does the tapping code keep back what is sent? -/
def Input.keepsBack : Input → Bool
  | .next keepsBack => keepsBack
  | _ => false

/-- {lit}`tap_dance_task` -/
def tapDanceTask (s : State) : State :=
  if s.activeTd = 0 ∨ s.now - s.lastTapTime ≤ getTappingTerm c s s.activeTd then s
  else
    let i := getIndex s.activeTd
    let s := s.access i
    if (s.dances i).interrupted then s else s.call [.onDanceFinished i]

/-- What the main loop does when no call is in progress. -/
def accept (s : State) : Input → State
  | .next _ => s
  | .key keycode again pressed => s.call [.processRecord (.keymap keycode again) pressed]
  | .send keycode pressed => s.call [.vialKeycode none keycode pressed]
  | .tapped =>
    match s.waiting with
    | [] => s
    | e :: waiting =>
      { s with waiting := waiting }.call [.processRecord (.magic e.owner e.keycode) e.pressed]
  | .unlock inProgress => { s with vialUnlockInProgress := inProgress }
  | .task => tapDanceTask c s
  | .time now => { s with now := now }
  | .edit i entry =>
    if i < c.vialTapDanceEntries then { s with table := update s.table i entry } else s

/-- One step.  The calls in progress are executed before anything else happens. -/
def step (s : State) (input : Input) : State :=
  match s.calls with
  | call :: calls => exec c input.keepsBack { s with calls := calls } call
  | [] => accept c s input

/-- After the start, with the entries of the EEPROM. -/
def initial (table : ℕ → Entry) : State where
  dances _ := Dance.zero
  danceState _ := .none
  table := table
  tdEntry := ⟨0, 0, 0, 0, 0⟩
  activeTd := 0
  lastTapTime := 0
  now := 0
  magic := 0
  vialUnlockInProgress := false
  waiting := []
  calls := []
  log := []
  accesses := []

/-! ## Keycodes of dances -/

theorem getIndex_lt (keycode : ℕ) : getIndex keycode < 256 :=
  Nat.mod_lt _ (by decide)

theorem getIndex_td {i : ℕ} (h : i < 256) : getIndex (td i) = i := by
  simp only [getIndex, td, qkTapDance]
  omega

theorem isTapDance_iff {keycode : ℕ} :
    isTapDance keycode = true ↔ qkTapDance ≤ keycode ∧ keycode ≤ qkTapDanceMax := by
  simp [isTapDance]

theorem isTapDance_td {i : ℕ} (h : i < 256) : isTapDance (td i) = true := by
  rw [isTapDance_iff, td, qkTapDance, qkTapDanceMax]
  omega

theorem sub_qkTapDance {keycode : ℕ} (h : isTapDance keycode = true) :
    keycode - qkTapDance = getIndex keycode := by
  rw [isTapDance_iff, qkTapDance, qkTapDanceMax] at h
  simp only [getIndex, qkTapDance]
  omega

theorem td_ne_zero (i : ℕ) : td i ≠ 0 := by
  simp only [td, qkTapDance]
  omega

theorem td_inj {i j : ℕ} : td i = td j ↔ i = j := by
  simp only [td]
  omega

/-! ## What the functions do -/

section Cases

variable {c} {keepsBack : Bool} {i keycode : ℕ} {s : State}

theorem dynamicKeymapGetTapDance_of_lt (h : i < c.vialTapDanceEntries) :
    dynamicKeymapGetTapDance c s i = some (s.table i) :=
  if_pos h

theorem dynamicKeymapGetTapDance_of_ge (h : ¬ i < c.vialTapDanceEntries) :
    dynamicKeymapGetTapDance c s i = none :=
  if_neg h

/-- The hook for releases does nothing, or looks at the entry, or finishes the dance. -/
theorem processRecordVial_cases (keycode : ℕ) (s : State) :
    processRecordVial c keycode s = s ∨
      isTapDance keycode = true ∧ getIndex keycode < c.vialTapDanceEntries ∧
        (processRecordVial c keycode s =
            { s.access (getIndex keycode) with tdEntry := s.table (getIndex keycode) } ∨
          processRecordVial c keycode s =
            (({ s.access (getIndex keycode) with tdEntry := s.table (getIndex keycode) } :
              State).modify (getIndex keycode) fun d => { d with pressed := false }).call
                [.onDanceFinished (getIndex keycode)]) := by
  by_cases htd : isTapDance keycode = true
  · rw [processRecordVial, if_pos htd, sub_qkTapDance htd]
    dsimp only
    by_cases hlt : getIndex keycode < c.vialTapDanceEntries
    · right
      refine ⟨htd, hlt, ?_⟩
      rw [dynamicKeymapGetTapDance_of_lt hlt]
      dsimp only
      split_ifs
      · exact Or.inr rfl
      · exact Or.inl rfl
    · left
      rw [dynamicKeymapGetTapDance_of_ge hlt]
  · left
    rw [processRecordVial, if_neg htd]

/-- A press is counted, and may send taps. -/
theorem processTapDance_cases (keycode : ℕ) (s : State) :
    isTapDance keycode = false ∧ processTapDance c keycode s = s ∨
      isTapDance keycode = true ∧ ∃ k entry, processTapDance c keycode s =
        ({ s.countTap (getIndex keycode) with tdEntry := entry } : State).call
          ((List.replicate k (vialKeycodeTap (getIndex keycode)
            (s.table (getIndex keycode)).onTap)).flatten ++ [.activate (getIndex keycode)]) := by
  by_cases htd : isTapDance keycode = true
  · right
    refine ⟨htd, ?_⟩
    simp only [processTapDance, if_pos htd, onDance]
    by_cases hlt : getIndex keycode < c.vialTapDanceEntries
    · rw [dynamicKeymapGetTapDance_of_lt hlt]
      dsimp only
      split_ifs
      · exact ⟨3, _, rfl⟩
      · exact ⟨1, _, rfl⟩
      · exact ⟨0, _, rfl⟩
      · exact ⟨0, _, rfl⟩
    · rw [dynamicKeymapGetTapDance_of_ge hlt]
      exact ⟨0, _, rfl⟩
  · left
    exact ⟨Bool.eq_false_iff.mpr htd, if_neg htd⟩

/-- A dance that is not finished is, and its callback is called. -/
theorem exec_onDanceFinished (hfinished : (s.dances i).finished = false) :
    ¬ i < c.vialTapDanceEntries ∧ exec c keepsBack s (.onDanceFinished i) =
        (s.modify i fun d => { d with finished := true }).call [.afterFinished i] ∨
      i < c.vialTapDanceEntries ∧ exec c keepsBack s (.onDanceFinished i) =
        ({ s.modify i fun d => { d with finished := true } with
            tdEntry := s.table i
            danceState := update s.danceState i (danceStep (s.dances i)) } : State).call
          (finishedCalls i (s.table i) (danceStep (s.dances i)) ++ [.afterFinished i]) := by
  have hopen : ¬ (s.dances i).finished = true := Bool.eq_false_iff.mp hfinished
  have hstep : danceStep ((s.modify i fun d => { d with finished := true }).dances i) =
      danceStep (s.dances i) := by
    rw [State.modify]
    dsimp only
    rw [Function.update_self]
    rfl
  rw [exec, if_neg hopen, onDanceFinished]
  by_cases hlt : i < c.vialTapDanceEntries
  · right
    rw [dynamicKeymapGetTapDance_of_lt hlt]
    dsimp only
    rw [hstep]
    exact ⟨hlt, rfl⟩
  · left
    rw [dynamicKeymapGetTapDance_of_ge hlt]
    exact ⟨hlt, rfl⟩

theorem exec_onReset (i : ℕ) (released : Bool) (s : State) :
    ¬ i < c.vialTapDanceEntries ∧ exec c keepsBack s (.onReset i released) =
        s.call [.afterReset i released] ∨
      i < c.vialTapDanceEntries ∧ exec c keepsBack s (.onReset i released) =
        ({ s.modify i fun d => { d with count := 0 } with
            tdEntry := s.table i
            danceState := update s.danceState i .none } : State).call
          (resetCalls i (s.table i) (s.danceState i) ++ [.afterReset i released]) := by
  rw [exec, onDanceReset]
  by_cases hlt : i < c.vialTapDanceEntries
  · right
    rw [dynamicKeymapGetTapDance_of_lt hlt]
    exact ⟨hlt, rfl⟩
  · left
    rw [dynamicKeymapGetTapDance_of_ge hlt]
    exact ⟨hlt, rfl⟩

/-- The callbacks send keycodes, and go on after a tap. -/
theorem mem_finishedCalls {entry : Entry} {st : DanceStep} {call : Call}
    (h : call ∈ finishedCalls i entry st) :
    (∃ keycode pressed, call = .vialKeycode (some i) keycode pressed) ∨
      ∃ st', call = .afterTap st' i := by
  unfold finishedCalls at h
  repeat' split at h
  all_goals simp only [vialKeycodeTap, List.cons_append, List.nil_append, List.mem_cons,
    List.not_mem_nil, or_false] at h
  all_goals grind

theorem mem_resetCalls {entry : Entry} {st : DanceStep} {call : Call}
    (h : call ∈ resetCalls i entry st) :
    ∃ keycode, call = .vialKeycode (some i) keycode false := by
  unfold resetCalls at h
  repeat' split at h
  all_goals simp only [List.mem_cons, List.not_mem_nil, or_false] at h
  all_goals exact ⟨_, h⟩

theorem mem_taps {k : ℕ} {call : Call}
    (h : call ∈ (List.replicate k (vialKeycodeTap i keycode)).flatten) :
    ∃ pressed, call = .vialKeycode (some i) keycode pressed := by
  rw [List.mem_flatten] at h
  rcases h with ⟨tap, htap, hcall⟩
  rw [List.eq_of_mem_replicate htap, vialKeycodeTap, List.mem_cons, List.mem_singleton] at hcall
  rcases hcall with hdown | hup
  · exact ⟨true, hdown⟩
  · exact ⟨false, hup⟩

end Cases

end TapDance
end VialQmk
