import VialQmk.Library.Resumption
import VialQmk.Tapping.ProcessTapping

/-!
# Combos - the engine

{lit}`process_combo.c` as the keyboard is built with Vial: the entries come from a table
that the host edits, with one term for all of them.  Keys that may belong to a combo are
withheld in a buffer; a combo that is fully pressed waits in a ring, and its output takes
the place of its last key before the buffer is dumped.

A dumped key is processed at once, and may lead to key events of its own before the rest
of the buffer is dumped; so the functions are programs that hand over control where they
call {lit}`action_tapping_process` or {lit}`process_combo_event`.  The rules for combos
that must be held or tapped, and the other hooks of a build, are parameters.

The state also keeps a trace of what happens inside a call.

Main results:

- Definitions {lit}`processCombo` and {lit}`comboTask`: one key event, and the timeout.
- Definition {lit}`program`: the calls the rest of the firmware makes.
-/

namespace VialQmk
namespace Combos

open Tapping (KeyEvent KeyEventType KeyRecord Tap)

/-! ## Records and entries -/

/-- The position of a key. -/
structure KeyPos where
  row : UInt8
  col : UInt8
deriving DecidableEq

/-- {lit}`keyrecord_t`, with the keycode of a combo or 0. -/
structure ComboRecord where
  event : KeyEvent KeyPos
  tap : Tap
  keycode : UInt16
deriving DecidableEq

/-- {lit}`combo_t`, with the keys up to {lit}`COMBO_END`. -/
structure Combo where
  keys : List UInt16
  keycode : UInt16
  disabled : Bool
  active : Bool
  state : ℕ
deriving DecidableEq

/-- {lit}`queued_record_t`; the combo index -1 is {lit}`none`. -/
structure QueuedRecord where
  record : ComboRecord
  comboIndex : Option ℕ
  keycode : UInt16
deriving DecidableEq

/-- The build options and hooks. -/
structure Build where
  /-- {lit}`COMBO_KEY_BUFFER_LENGTH` -/
  keyBufferLength : ℕ
  /-- {lit}`COMBO_BUFFER_LENGTH` -/
  comboBufferLength : ℕ
  comboBufferLength_pos : 0 < comboBufferLength
  /-- The width of {lit}`combo_t.state`, {lit}`MAX_COMBO_LENGTH` -/
  stateBits : ℕ
  /-- {lit}`COMBO_STRICT_TIMER` -/
  strictTimer : Bool
  /-- {lit}`COMBO_HOLD_TERM` -/
  holdTerm : UInt16
  /-- {lit}`_get_combo_must_hold`, by the index and the keycode of the combo -/
  mustHold : ℕ → UInt16 → Bool
  /-- {lit}`get_combo_must_tap`, by the index and the keycode of the combo -/
  mustTap : ℕ → UInt16 → Bool
  /-- {lit}`keys_pressed_in_order` and {lit}`combo_should_trigger` -/
  mayTrigger : ℕ → Combo → ℕ → UInt16 → ComboRecord → Bool
  /-- {lit}`process_combo_key_release` -/
  processKeyRelease : ℕ → Combo → ℕ → UInt16 → Bool

/-- The build of Vial, without any hooks. -/
def Build.vial : Build where
  keyBufferLength := 8
  comboBufferLength := 4
  comboBufferLength_pos := by decide
  stateBits := 8
  strictTimer := false
  holdTerm := 200
  mustHold := fun _ _ => false
  mustTap := fun _ _ => false
  mayTrigger := fun _ _ _ _ _ => true
  processKeyRelease := fun _ _ _ _ => false

/-- What is handed over to the rest of the firmware. -/
inductive Emission
  /-- {lit}`action_tapping_process` -/
  | record (r : ComboRecord)
  /-- {lit}`process_combo_event` -/
  | comboEvent (comboIndex : ℕ) (pressed : Bool)
deriving DecidableEq

/-- What the trace notes. -/
inductive Note
  /-- A key press is withheld: when, whether combos are enabled, whether the buffer has
  room for it, and the timer before. -/
  | withheld (time : ℕ) (enabled room : Bool) (timer : UInt16)
  /-- All keys of a combo are down within its term. -/
  | fullyPressed (comboIndex : ℕ)
  /-- All keys of a combo are down, but its term has passed. -/
  | expired (comboIndex : ℕ)
  /-- A combo is put into the ring, which may look empty then. -/
  | queued (comboIndex : ℕ) (wraps : Bool)
  /-- A key press finds that key of a combo down already, where the combo takes it for a
  release. -/
  | pressedAgain (comboIndex : ℕ)
  /-- A key release drops a combo. -/
  | dropped (comboIndex : ℕ)
  /-- {lit}`apply_combos` drops a combo that must be tapped. -/
  | tapOnly (comboIndex : ℕ)
  /-- {lit}`ACTIVATE_COMBO` -/
  | activated (comboIndex : ℕ)
  /-- The loop of {lit}`apply_combos` begins, and ends. -/
  | applying
  | applied
  /-- {lit}`dump_key_buffer` begins, and ends while combos are pending or not. -/
  | dumping
  | dumped (pending : Bool)
  /-- {lit}`combo_disable` begins, and ends with no key of a combo down or not. -/
  | turnedOff
  | off (clean : Bool)
deriving DecidableEq

/-- The static variables, the entries, the clock in ms, its value when the timer was set,
and the trace, the latest note first.  {lit}`key_buffer_size` is the length of
{lit}`keyBuffer`. -/
structure Engine where
  combos : List Combo
  comboTerm : UInt16
  enabled : Bool
  timer : UInt16
  longestTerm : UInt16
  keyBuffer : List QueuedRecord
  keyBufferNext : ℕ
  comboBuffer : List ℕ
  comboBufferRead : ℕ
  comboBufferWrite : ℕ
  clock : ℕ
  stamp : ℕ
  trace : List Note
deriving DecidableEq

/-- After power-up, with the entries of the host. -/
def Engine.initial (build : Build) (combos : List Combo) (comboTerm : UInt16) : Engine where
  combos := combos
  comboTerm := comboTerm
  enabled := true
  timer := 0
  longestTerm := 0
  keyBuffer := []
  keyBufferNext := 0
  comboBuffer := List.replicate build.comboBufferLength 0
  comboBufferRead := 0
  comboBufferWrite := 0
  clock := 0
  stamp := 0
  trace := []

namespace Engine

def note (n : Note) (s : Engine) : Engine :=
  { s with trace := n :: s.trace }

def modifyCombo (comboIndex : ℕ) (f : Combo → Combo) (s : Engine) : Engine :=
  { s with combos := s.combos.modify comboIndex f }

/-- {lit}`timer_read` -/
def timerRead (s : Engine) : UInt16 :=
  UInt16.ofNat s.clock

/-- {lit}`timer_elapsed` -/
def timerElapsed (s : Engine) (last : UInt16) : UInt16 :=
  s.timerRead - last

end Engine

/-- A program of the engine. -/
abbrev ComboM := Program Emission Engine

/-! ## The state bits of an entry -/

namespace Combo

/-- {lit}`DISABLE_COMBO` -/
def disable (combo : Combo) : Combo :=
  { combo with disabled := true }

/-- {lit}`ACTIVATE_COMBO` -/
def activate (combo : Combo) : Combo :=
  { combo with active := true }

/-- {lit}`DEACTIVATE_COMBO` -/
def deactivate (combo : Combo) : Combo :=
  { combo with active := false }

/-- {lit}`RESET_COMBO_STATE` -/
def reset (combo : Combo) : Combo :=
  { combo with
    disabled := false
    state := 0 }

/-- {lit}`COMBO` entries as {lit}`reload_combo` makes them. -/
def ofEntry (keys : List UInt16) (keycode : UInt16) : Combo :=
  ⟨keys.takeWhile (· ≠ 0), keycode, false, false, 0⟩

end Combo

/-- {lit}`ALL_COMBO_KEYS_ARE_DOWN` -/
def allKeysDown (state keyCount : ℕ) : Bool :=
  2 ^ keyCount - 1 = state

/-- {lit}`ONLY_ONE_KEY_IS_DOWN` -/
def onlyOneKeyDown (state : ℕ) : Bool :=
  state &&& (state - 1) = 0

/-- {lit}`KEY_NOT_YET_RELEASED` -/
def keyNotYetReleased (state keyIndex : ℕ) : Bool :=
  state.testBit keyIndex

/-- {lit}`KEY_STATE_DOWN` -/
def keyStateDown (build : Build) (state keyIndex : ℕ) : ℕ :=
  (state ||| 2 ^ keyIndex) % 2 ^ build.stateBits

/-- {lit}`KEY_STATE_UP` -/
def keyStateUp (state keyIndex : ℕ) : ℕ :=
  state ^^^ (state &&& 2 ^ keyIndex)

/-- The index of {lit}`_find_key_index_and_count`: the last key of the combo that has this
keycode. -/
def findKeyIndex (keys : List UInt16) (keycode : UInt16) : Option ℕ :=
  ((List.range keys.length).filter fun i => keys[i]? = some keycode).getLast?

/-! ## Pending combos -/

/-- {lit}`INCREMENT_MOD` -/
def Build.incrementMod (build : Build) (i : ℕ) : ℕ :=
  (i + 1) % build.comboBufferLength

/-- {lit}`clear_combos` -/
def clearCombos (s : Engine) : Engine :=
  { s with
    longestTerm := 0
    combos := s.combos.map fun combo => if combo.active then combo else combo.reset }

/-- The loop of {lit}`drop_combo_from_buffer` from the position {lit}`i` on. -/
def dropComboLoop (build : Build) (comboIndex : ℕ) : ℕ → ℕ → Engine → Engine
  | 0, _, s => s
  | n + 1, i, s =>
    if i ≠ s.comboBufferWrite then
      if s.comboBuffer[i]? = some comboIndex then
        let s := s.modifyCombo comboIndex Combo.disable
        if i = s.comboBufferRead then
          { s with comboBufferRead := build.incrementMod s.comboBufferRead }
        else s
      else dropComboLoop build comboIndex n (build.incrementMod i) s
    else s

/-- {lit}`drop_combo_from_buffer` -/
def dropComboFromBuffer (build : Build) (comboIndex : ℕ) (s : Engine) : Engine :=
  dropComboLoop build comboIndex build.comboBufferLength s.comboBufferRead s

/-- The record of the last key of a combo becomes the output of the combo. -/
def QueuedRecord.output (comboIndex : ℕ) (keycode : UInt16) (q : QueuedRecord) : QueuedRecord :=
  { q with
    record :=
      { q.record with
        keycode := keycode
        event := { q.record.event with type := .combo, key := ⟨0, 0⟩ } }
    comboIndex := some comboIndex }

/-- The record is not processed any more. -/
def QueuedRecord.tick (q : QueuedRecord) : QueuedRecord :=
  { q with record := { q.record with event := { q.record.event with type := .tick } } }

/-- The loop of {lit}`apply_combo` over the rest of the buffer: the new records, and
whether the combo was activated. -/
def applyComboLoop (build : Build) (comboIndex : ℕ) (combo : Combo) :
    ℕ → List QueuedRecord → List QueuedRecord × Bool
  | _, [] => ([], false)
  | state, q :: rest =>
    match findKeyIndex combo.keys q.keycode with
    | none =>
      let (rest, activated) := applyComboLoop build comboIndex combo state rest
      (q :: rest, activated)
    | some keyIndex =>
      let state := keyStateDown build state keyIndex
      if allKeysDown state combo.keys.length then
        (q.output comboIndex combo.keycode :: rest, true)
      else
        let (rest, activated) := applyComboLoop build comboIndex combo state rest
        (q.tick :: rest, activated)

/-- {lit}`apply_combo` -/
def applyCombo (build : Build) (comboIndex : ℕ) (s : Engine) : Engine :=
  match s.combos[comboIndex]? with
  | none => s
  | some combo =>
    if combo.disabled then s
    else
      let (keyBuffer, activated) := applyComboLoop build comboIndex combo 0 s.keyBuffer
      let s := { s with keyBuffer := keyBuffer }
      let s :=
        if activated then
          (s.modifyCombo comboIndex Combo.activate).note (.activated comboIndex)
        else s
      dropComboFromBuffer build comboIndex s

/-- The loop of {lit}`apply_combos` from the position {lit}`i` on. -/
def applyCombosLoop (build : Build) : ℕ → ℕ → Engine → Engine
  | 0, _, s => s
  | n + 1, i, s =>
    if i ≠ s.comboBufferWrite then
      match s.comboBuffer[i]? with
      | none => s
      | some comboIndex =>
        let s :=
          match s.combos[comboIndex]? with
          | none => s
          | some combo =>
            -- tap-only combos are applied on key release only
            if build.mustTap comboIndex combo.keycode then
              dropComboFromBuffer build comboIndex (s.note (.tapOnly comboIndex))
            else applyCombo build comboIndex s
        applyCombosLoop build n (build.incrementMod i) s
    else s

/-- Whether two combos share a key. -/
def shareKey (keys1 keys2 : List UInt16) : Bool :=
  keys1.any fun key => keys2.contains key

/-- {lit}`overlaps`, on the indices of the combos: the one to be dropped. -/
def overlaps (s : Engine) (index1 index2 : ℕ) : Option ℕ :=
  match s.combos[index1]?, s.combos[index2]? with
  | some combo1, some combo2 =>
    if shareKey combo1.keys combo2.keys then
      if combo2.keys.length < combo1.keys.length then some index2 else some index1
    else none
  | _, _ => none

/-- The loop of {lit}`process_single_combo` that disables the pending combos which overlap
with a new one, from the position {lit}`i` on, and the last combo to be dropped. -/
def overlapLoop (build : Build) (comboIndex : ℕ) : ℕ → ℕ → Option ℕ → Engine → Engine × Option ℕ
  | 0, _, drop, s => (s, drop)
  | n + 1, i, drop, s =>
    if i ≠ s.comboBufferWrite then
      match s.comboBuffer[i]? with
      | none => (s, drop)
      | some buffered =>
        match overlaps s buffered comboIndex with
        | none => overlapLoop build comboIndex n (build.incrementMod i) none s
        | some drop =>
          let s := s.modifyCombo drop Combo.disable
          if drop = comboIndex then (s, some drop)
          else if i = s.comboBufferRead ∧ drop = buffered then
            overlapLoop build comboIndex n (build.incrementMod i) (some drop)
              { s with comboBufferRead := build.incrementMod s.comboBufferRead }
          else overlapLoop build comboIndex n (build.incrementMod i) (some drop) s
    else (s, drop)

/-- {lit}`_get_wait_time` -/
def getWaitTime (build : Build) (comboIndex : ℕ) (combo : Combo) (s : Engine) : UInt16 :=
  if (build.mustHold comboIndex combo.keycode || build.mustTap comboIndex combo.keycode) &&
      s.longestTerm < build.holdTerm then build.holdTerm
  else s.longestTerm

/-- A combo is put into the ring. -/
def pushCombo (build : Build) (comboIndex : ℕ) (combo : Combo) (s : Engine) : Engine :=
  let write := build.incrementMod s.comboBufferWrite
  let s :=
    { s.note (.queued comboIndex (write = s.comboBufferRead)) with
      comboBuffer := s.comboBuffer.set s.comboBufferWrite comboIndex
      comboBufferWrite := write }
  { s with longestTerm := getWaitTime build comboIndex combo s }

/-- A combo that is fully pressed within its term is put into the ring, and combos that
overlap with it are dropped. -/
def queueCombo (build : Build) (comboIndex : ℕ) (combo : Combo) (s : Engine) : Engine :=
  let (s, drop) :=
    overlapLoop build comboIndex build.comboBufferLength s.comboBufferRead none
      (s.note (.fullyPressed comboIndex))
  if drop ≠ some comboIndex then pushCombo build comboIndex combo s else s

/-- A key of a combo goes down, and the keys are withheld for its term at least. -/
def setKeyDown (comboIndex state : ℕ) (s : Engine) : Engine :=
  { s.modifyCombo comboIndex fun combo => { combo with state := state } with
    longestTerm := if s.longestTerm < s.comboTerm then s.comboTerm else s.longestTerm }

/-- The first branch of {lit}`process_single_combo`: a key of the combo is pressed. -/
def pressCombo (build : Build) (comboIndex : ℕ) (combo : Combo) (keyIndex : ℕ) (s : Engine) :
    Engine :=
  let state := if combo.active then combo.state else keyStateDown build combo.state keyIndex
  let s := if combo.active then s else setKeyDown comboIndex state s
  if allKeysDown state combo.keys.length then
    -- the combo is not buffered if its term has passed
    if s.timer ≠ 0 ∧ s.timerElapsed s.timer > s.comboTerm then
      (s.note (.expired comboIndex)).modifyCombo comboIndex Combo.disable
    else queueCombo build comboIndex { combo with state := state } s
  else s

/-! ## Programs -/

open Program

/-- What {lit}`release_combo` hands over. -/
def releaseEmission (comboIndex : ℕ) (combo : Combo) (now : UInt16) : Emission :=
  if combo.keycode ≠ 0 then
    .record ⟨⟨⟨0, 0⟩, now, .combo, false⟩, ⟨false, 0⟩, combo.keycode⟩
  else .comboEvent comboIndex false

/-- {lit}`release_combo` -/
def releaseCombo (comboIndex : ℕ) (combo : Combo) : ComboM Unit := do
  let s ← get
  emit (releaseEmission comboIndex combo s.timerRead)
  modify (Engine.modifyCombo comboIndex Combo.deactivate)

/-- What {lit}`dump_key_buffer` does with one record. -/
def QueuedRecord.emission (q : QueuedRecord) : Emission :=
  match q.comboIndex with
  | some comboIndex =>
    if q.record.keycode = 0 then .comboEvent comboIndex true else .record q.record
  | none => .record q.record

/-- The loop of {lit}`dump_key_buffer` from the record {lit}`i` on.  A nested call may add
records, and may take over the rest of them. -/
def dumpLoop : ℕ → ℕ → ComboM Unit
  | 0, _ => pure ()
  | n + 1, i => do
    match (← get).keyBuffer[i]? with
    | none => pure ()
    | some q =>
      modify fun s => { s with keyBufferNext := i + 1 }
      if q.record.event.type = .tick then dumpLoop n (i + 1)
      else
        emit q.emission
        modify fun s => { s with keyBuffer := s.keyBuffer.modify i QueuedRecord.tick }
        dumpLoop n (i + 1)

/-- {lit}`dump_key_buffer` -/
def dumpKeyBuffer (build : Build) : ComboM Unit := do
  let s ← get
  if s.keyBuffer = [] then pure ()
  else
    modify (Engine.note .dumping)
    dumpLoop build.keyBufferLength s.keyBufferNext
    modify fun s =>
      { s with
        keyBufferNext := 0
        keyBuffer := [] }
    modify fun s => s.note (.dumped (s.comboBufferRead ≠ s.comboBufferWrite))

/-- {lit}`apply_combos` -/
def applyCombos (build : Build) : ComboM Unit := do
  modify (Engine.note .applying)
  modify fun s => applyCombosLoop build build.comboBufferLength s.comboBufferRead s
  modify (Engine.note .applied)
  dumpKeyBuffer build
  modify clearCombos

/-- The combo is released already if the hook {lit}`process_combo_key_release` says so. -/
def releaseIfAsked (build : Build) (comboIndex : ℕ) (combo : Combo) (keyIndex : ℕ)
    (keycode : UInt16) : ComboM Unit :=
  if build.processKeyRelease comboIndex combo keyIndex keycode then releaseCombo comboIndex combo
  else pure ()

/-- The second branch of {lit}`process_single_combo`, the chord releases; returns whether
the key is part of the combo. -/
def releaseChord (build : Build) (comboIndex : ℕ) (combo : Combo) (keyIndex : ℕ)
    (keycode : UInt16) (partOfCombo : Bool) : ComboM Bool := do
  if ¬ combo.active ∧ allKeysDown combo.state combo.keys.length then
    -- first key quickly released
    if combo.disabled || build.mustHold comboIndex combo.keycode then
      modify (Engine.note (.dropped comboIndex))
      modify (dropComboFromBuffer build comboIndex)
      pure false
    else if build.mustTap comboIndex combo.keycode then
      modify (applyCombo build comboIndex)
      applyCombos build
      releaseIfAsked build comboIndex combo keyIndex keycode
      pure partOfCombo
    else pure partOfCombo
  else if combo.active ∧ onlyOneKeyDown combo.state ∧
      keyNotYetReleased combo.state keyIndex then
    -- last key released
    releaseCombo comboIndex combo
    pure true
  else if combo.active ∧ keyNotYetReleased combo.state keyIndex then
    -- first or middle key released
    releaseIfAsked build comboIndex combo keyIndex keycode
    pure true
  else pure false

/-- The trace notes a press that is taken for the release of a key that is down. -/
def notePressedAgain (comboIndex : ℕ) (combo : Combo) (keyIndex : ℕ) (record : ComboRecord)
    (s : Engine) : Engine :=
  if record.event.pressed ∧ keyNotYetReleased combo.state keyIndex then
    s.note (.pressedAgain comboIndex)
  else s

/-- {lit}`process_single_combo` -/
def processSingleCombo (build : Build) (comboIndex : ℕ) (keycode : UInt16)
    (record : ComboRecord) : ComboM Bool := do
  let s ← get
  match s.combos[comboIndex]? with
  | none => pure false
  | some combo =>
    match findKeyIndex combo.keys keycode with
    | none => pure false
    | some keyIndex =>
      let partOfCombo := !combo.disabled && s.enabled &&
        build.mayTrigger comboIndex combo keyIndex keycode record
      if record.event.pressed && partOfCombo then
        modify (pressCombo build comboIndex combo keyIndex)
        pure true
      else
        modify (notePressedAgain comboIndex combo keyIndex record)
        let partOfCombo ← releaseChord build comboIndex combo keyIndex keycode partOfCombo
        modify (Engine.modifyCombo comboIndex fun combo =>
          { combo with state := keyStateUp combo.state keyIndex })
        pure partOfCombo

/-- The loop of {lit}`process_combo` over these entries; {lit}`no_combo_keys_pressed` is
not used. -/
def comboLoop (build : Build) (keycode : UInt16) (record : ComboRecord) :
    List ℕ → Bool → ComboM Bool
  | [], isComboKey => pure isComboKey
  | comboIndex :: rest, isComboKey => do
    let partOfCombo ← processSingleCombo build comboIndex keycode record
    comboLoop build keycode record rest (isComboKey || partOfCombo)

/-- A key press is withheld. -/
def bufferKey (build : Build) (keycode : UInt16) (record : ComboRecord) (s : Engine) : Engine :=
  let room : Bool := s.keyBuffer.length < build.keyBufferLength
  let running : Bool := build.strictTimer ∧ s.timer ≠ 0
  { s.note (.withheld s.clock s.enabled room s.timer) with
    timer := if running then s.timer else s.timerRead
    stamp := if running then s.stamp else s.clock
    keyBuffer := if room then s.keyBuffer ++ [⟨record, none, keycode⟩] else s.keyBuffer }

/-- {lit}`combo_enable` -/
def comboEnable (s : Engine) : Engine :=
  { s with enabled := true }

/-- {lit}`combo_disable` -/
def comboDisable (build : Build) : ComboM Unit := do
  modify (Engine.note .turnedOff)
  modify fun s =>
    clearCombos
      { s with
        timer := 0
        enabled := false
        comboBufferRead := s.comboBufferWrite }
  dumpKeyBuffer build
  modify fun s => s.note (.off (s.combos.all fun combo => combo.active || combo.state = 0))

/-- {lit}`combo_toggle` -/
def comboToggle (build : Build) : ComboM Unit := do
  if (← get).enabled then comboDisable build else modify comboEnable

/-- {lit}`QK_COMBO_ON` -/
def qkComboOn : UInt16 := 0x7C50
/-- {lit}`QK_COMBO_OFF` -/
def qkComboOff : UInt16 := 0x7C51
/-- {lit}`QK_COMBO_TOGGLE` -/
def qkComboToggle : UInt16 := 0x7C52

/-- Nothing is part of a combo any more: the buffer is dumped. -/
def flush (build : Build) : ComboM Unit := do
  let s ← get
  if s.comboBufferRead ≠ s.comboBufferWrite then applyCombos build
  else
    dumpKeyBuffer build
    modify fun s => { s with timer := 0 }
    modify clearCombos

/-- {lit}`process_combo`, with the keycode of the record on the reference layer; returns
whether the record is processed further. -/
def processCombo (build : Build) (keycode refKeycode : UInt16) (record : ComboRecord) :
    ComboM Bool := do
  if keycode = qkComboOn ∧ record.event.pressed then
    modify comboEnable
    pure true
  else if keycode = qkComboOff ∧ record.event.pressed then
    comboDisable build
    pure true
  else if keycode = qkComboToggle ∧ record.event.pressed then
    comboToggle build
    pure true
  else
    let isComboKey ←
      comboLoop build refKeycode record (List.range (← get).combos.length) false
    if record.event.pressed && isComboKey then modify (bufferKey build refKeycode record)
    else flush build
    pure !isComboKey

/-- {lit}`combo_task` -/
def comboTask (build : Build) : ComboM Unit := do
  let s ← get
  if ¬ s.enabled then pure ()
  else if s.timer ≠ 0 ∧ s.timerElapsed s.timer > s.longestTerm then
    if s.comboBufferRead ≠ s.comboBufferWrite then
      applyCombos build
      modify fun s =>
        { s with
          longestTerm := 0
          timer := 0 }
    else
      dumpKeyBuffer build
      modify fun s => { s with timer := 0 }
      modify clearCombos
  else pure ()

/-- An ordinary key event. -/
def keyRecord (row col : UInt8) (time : UInt16) (pressed : Bool) : ComboRecord :=
  ⟨⟨⟨row, col⟩, time, .key, pressed⟩, ⟨false, 0⟩, 0⟩

/-! ## Calls -/

/-- The calls of the rest of the firmware. -/
inductive Call
  /-- {lit}`process_combo` -/
  | key (keycode refKeycode : UInt16) (record : ComboRecord)
  /-- {lit}`combo_task` -/
  | task
  | enable
  | disable
  | toggle
  /-- {lit}`reload_combo`, after the host set an entry. -/
  | reload (combos : List Combo)
  /-- The host sets the term. -/
  | setTerm (comboTerm : UInt16)
  /-- Time passes. -/
  | wait (ms : ℕ)

/-- What a call runs. -/
def program (build : Build) : Call → ComboM Unit
  | .key keycode refKeycode record => do
    let _ ← processCombo build keycode refKeycode record
    pure ()
  | .task => comboTask build
  | .enable => modify comboEnable
  | .disable => comboDisable build
  | .toggle => comboToggle build
  | .reload combos => modify fun s => { s with combos := combos }
  | .setTerm comboTerm => modify fun s => { s with comboTerm := comboTerm }
  | .wait ms => modify fun s => { s with clock := s.clock + ms }

end Combos
end VialQmk
