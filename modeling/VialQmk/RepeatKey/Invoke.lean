import VialQmk.Keys.Action
import VialQmk.Tapping.ProcessTapping
import Mathlib.Logic.Function.Basic

/-!
# Repeat key - records made up for another key

{lit}`repeat_key.c` and {lit}`process_repeat_key.c`: the last key that was pressed is
remembered with its mods.  A Repeat key plays it again: its press processes a record with
that keycode, its release one with the keycode registered at the press.  The Alternate
Repeat key does so with a keycode opposed to the last one.

The processing of a record may end up in the repeat key again; its recursion takes fuel.
The features behind it in the chain are left out, and of the effects of a record made up
those on the record itself are kept, which {lit}`process_action` writes through its pointer,
and the calls.  Swap hands, tri layers, media and mouse keys are enabled.

Main results:

- Definition {lit}`processRecord`: one record, through {lit}`process_last_key` and
  {lit}`process_repeat_key`.
- Theorem {lit}`processRecord_repeat_press`, {lit}`processRecord_repeat_release`: the
  records a Repeat key makes up.
-/

namespace VialQmk
namespace RepeatKey

open Function (update)
open Keys (kcNo kcTransparent)
open Tapping (Tap)

variable {K : Type}

/-! ## Keycodes -/

def qkRepeatKey : ℕ := 0x7C79
def qkAltRepeatKey : ℕ := 0x7C7A

/-- {lit}`QK_MODS ... QK_MODS_MAX` -/
def isQkMods (keycode : ℕ) : Bool :=
  0x0100 ≤ keycode && keycode ≤ 0x1FFF

/-- {lit}`QK_MOD_TAP ... QK_MOD_TAP_MAX` and {lit}`QK_LAYER_TAP ... QK_LAYER_TAP_MAX` -/
def isTapHold (keycode : ℕ) : Bool :=
  0x2000 ≤ keycode && keycode ≤ 0x4FFF

/-- {lit}`QK_SWAP_HANDS ... QK_SWAP_HANDS_MAX` -/
def isSwapHands (keycode : ℕ) : Bool :=
  0x5600 ≤ keycode && keycode ≤ 0x56FF

/-- {lit}`IS_SWAP_HANDS_KEYCODE` -/
def isSwapHandsKeycode (keycode : ℕ) : Bool :=
  0x56F0 ≤ keycode && keycode ≤ 0x56F6

/-- {lit}`QK_MOD_TAP ... QK_MOD_TAP_MAX`, less {lit}`MODS_ONESHOT` and
{lit}`MODS_TAP_TOGGLE` -/
def isModTapKey (keycode : ℕ) : Bool :=
  0x2000 ≤ keycode && keycode ≤ 0x3FFF && 0x01 < (keycode &&& 0xFF)

/-- The keys {lit}`remember_last_key` passes over however they are pressed: {lit}`TO`,
{lit}`MO`, {lit}`TG`, the one-shot keys and {lit}`TT`, the modifiers with Hyper and Meh, the
tri-layer keys and the two repeat keys. -/
def isIgnored (keycode : ℕ) : Bool :=
  (0x5200 ≤ keycode && keycode ≤ 0x523F) || (0x5260 ≤ keycode && keycode ≤ 0x52DF)
    || (0xE0 ≤ keycode && keycode ≤ 0xE7) || keycode = 0x0F00 || keycode = 0x0700
    || (0x7C77 ≤ keycode && keycode ≤ 0x7C78)
    || keycode = qkRepeatKey || keycode = qkAltRepeatKey

/-! ## State -/

/-- {lit}`keyevent_t`, less its time -/
structure KeyEvent (K : Type) where
  key : K
  pressed : Bool
deriving DecidableEq

/-- {lit}`keyrecord_t` less the event, which is written before a record kept in a static
variable is used. -/
structure Kept where
  tap : Tap
  keycode : ℕ
deriving DecidableEq

/-- {lit}`keyrecord_t` -/
structure KeyRecord (K : Type) extends Kept where
  event : KeyEvent K
deriving DecidableEq

/-- What a repeat key calls. -/
inductive Call (K : Type)
  | processRecord (record : KeyRecord K)
  | registerWeakMods (mods : UInt8)
  | unregisterWeakMods (mods : UInt8)
deriving DecidableEq

/-- The static variables of one of the two repeat keys. -/
structure Registered where
  record : Kept
  repeatCount : ℤ
deriving DecidableEq

/-- The static variables, with what the code reads elsewhere: the keycode of each key as the
layer it was pressed on has it, and the mods {lit}`get_mods`, {lit}`get_weak_mods` and
{lit}`get_oneshot_mods` give together.  The press of a record made up may end a one-shot
layer.  The calls are those made for the current event. -/
structure State (K : Type) where
  lastRecord : Kept
  lastMods : UInt8
  lastRepeatCount : ℤ
  processingRepeatCount : ℤ
  repeated : Registered
  alternate : Registered
  keycodeOf : K → ℕ
  mods : UInt8
  endsOneshot : Bool
  calls : List (Call K)

/-- The callbacks of the user. -/
structure Config (K : Type) where
  /-- {lit}`remember_last_key_user`: the mods to remember, if it returns true. -/
  rememberLastKeyUser : ℕ → KeyRecord K → UInt8 → Option UInt8
  /-- {lit}`get_alt_repeat_key_keycode_user` -/
  getAltRepeatKeyKeycodeUser : ℕ → UInt8 → ℕ
  /-- {lit}`get_hold_on_other_key_press`, false without {lit}`HOLD_ON_OTHER_KEY_PRESS` -/
  getHoldOnOtherKeyPress : KeyRecord K → Bool

/-- The default callbacks. -/
def Config.default (K : Type) : Config K where
  rememberLastKeyUser := fun _ _ mods => some mods
  getAltRepeatKeyKeycodeUser := fun _ _ => kcTransparent
  getHoldOnOtherKeyPress := fun _ => false

def Kept.zero : Kept :=
  ⟨⟨false, 0⟩, 0⟩

/-- The static variables are zero. -/
def State.boot : State K where
  lastRecord := .zero
  lastMods := 0
  lastRepeatCount := 0
  processingRepeatCount := 0
  repeated := ⟨.zero, 0⟩
  alternate := ⟨.zero, 0⟩
  keycodeOf := fun _ => kcNo
  mods := 0
  endsOneshot := false
  calls := []

def State.call (s : State K) (call : Call K) : State K :=
  { s with calls := s.calls ++ [call] }

/-! ## Alternate keycodes -/

/-- {lit}`find_alt_keycode` -/
def findAltKeycode (target : ℕ) : List (ℕ × ℕ) → ℕ
  | [] => kcNo
  | (left, right) :: table =>
    if target = left then right
    else if target = right then left
    else findAltKeycode target table

/-- F and B, D and U, N and P, A and E, O and I. -/
def modPairs : List (ℕ × ℕ) :=
  [(0x09, 0x05), (0x07, 0x18), (0x11, 0x13), (0x04, 0x08), (0x12, 0x0C)]

/-- J and K, H and L, W and B, E and B. -/
def plainPairs : List (ℕ × ℕ) :=
  [(0x0D, 0x0E), (0x0B, 0x0F), (0x1A, 0x05), (0x08, 0x05)]

/-- Left and Right, Up and Down, Home and End, Page Up and Page Down, Backspace and Delete,
the brackets; then the pairs of the media and the mouse keys. -/
def anyModsPairs : List (ℕ × ℕ) :=
  [(0x50, 0x4F), (0x52, 0x51), (0x4A, 0x4D), (0x4B, 0x4E), (0x2A, 0x4C), (0x2F, 0x30),
    (0xB6, 0xB7), (0xAB, 0xAC), (0xBB, 0xBC), (0xA9, 0xAA), (0xBD, 0xBE),
    (0xCF, 0xD0), (0xCD, 0xCE), (0xDB, 0xDC), (0xD9, 0xDA)]

/-- The mods of a report, in the format of keycodes. -/
def fiveBitMods (mods : UInt8) : ℕ :=
  (if mods &&& 0xF0 ≠ 0 then 0x10 else 0) ||| (((mods >>> 4) ||| mods) &&& 0xF).toNat

/-- The basic keycode with an alternate, and the mods to send with it. -/
def altOfBasic (keycode mods : ℕ) : ℕ :=
  let ofMods := findAltKeycode keycode (if mods &&& 0x0D ≠ 0 then modPairs else plainPairs)
  let altKeycode := if ofMods = 0 then findAltKeycode keycode anyModsPairs else ofMods
  if altKeycode ≠ 0 then (mods <<< 8) ||| altKeycode else kcNo

/-- {lit}`get_alt_repeat_key_keycode` -/
def getAltRepeatKeyKeycode (c : Config K) (s : State K) : ℕ :=
  let keycode := s.lastRecord.keycode
  let altKeycode := c.getAltRepeatKeyKeycodeUser keycode s.lastMods
  let mods := fiveBitMods s.lastMods
  if altKeycode ≠ kcTransparent then altKeycode
  else if isQkMods keycode then altOfBasic (keycode &&& 0xFF) (mods ||| (keycode >>> 8 &&& 0x1F))
  else if isTapHold keycode then altOfBasic (keycode &&& 0xFF) mods
  else if isSwapHandsKeycode keycode then kcNo
  else if isSwapHands keycode then altOfBasic (keycode &&& 0xFF) mods
  else if keycode ≤ 0xFF then altOfBasic keycode mods
  else kcNo

/-! ## The last key -/

/-- {lit}`set_last_record` -/
def State.setLastRecord (s : State K) (keycode : ℕ) (r : KeyRecord K) : State K :=
  { s with lastRecord := ⟨r.tap, keycode⟩, lastRepeatCount := 0 }

/-- {lit}`remember_last_key` -/
def rememberLastKey (c : Config K) (keycode : ℕ) (r : KeyRecord K) (mods : UInt8) :
    Option UInt8 :=
  if isIgnored keycode then none
  else if isTapHold keycode && r.tap.count = 0 then none
  else if isSwapHands keycode && (isSwapHandsKeycode keycode || r.tap.count = 0) then none
  else c.rememberLastKeyUser keycode r mods

/-- {lit}`process_last_key` -/
def processLastKey (c : Config K) (s : State K) (keycode : ℕ) (r : KeyRecord K) : State K :=
  if s.processingRepeatCount ≠ 0 then s
  else if r.event.pressed then
    match rememberLastKey c keycode r s.mods with
    | some mods => { s.setLastRecord keycode r with lastMods := mods }
    | none => s
  else s

/-! ## What is left of a record -/

/-- A swap-hands key that was tapped, and is not one of the commands. -/
def Kept.resets (record : Kept) : Bool :=
  isSwapHands record.keycode && !isSwapHandsKeycode record.keycode && record.tap.count ≠ 0

/-- {lit}`process_action` on a release resets the record of a swap-hands key that was tapped. -/
def Kept.released (record : Kept) : Kept :=
  if record.resets then .zero else record

/-- {lit}`process_action`, as far as it writes to its record.  The press of a mod-tap key that was
interrupted cancels the tap.  A press that ends a one-shot layer turns the record into its
release, and processes it. -/
def processAction (c : Config K) (endsOneshot : Bool) (r : KeyRecord K) : Kept :=
  if r.event.pressed then
    let record :=
      if isModTapKey r.keycode && r.tap.count ≠ 0 && c.getHoldOnOtherKeyPress r
          && r.tap.interrupted then
        { r.toKept with tap := { r.tap with count := 0 } }
      else r.toKept
    if endsOneshot then record.released else record
  else r.toKept.released

/-! ## Repeat keys -/

/-- {lit}`update_last_repeat_count` -/
def updateLastRepeatCount (count dir : ℤ) : ℤ :=
  if dir * count < 0 then dir
  else if dir * count < 127 then count + dir
  else count

/-- The record kept at the press, for this event. -/
def Registered.recordFor (g : Registered) (event : KeyEvent K) : KeyRecord K :=
  ⟨g.record, event⟩

variable (process : State K → KeyRecord K → Option (State K))

/-- {lit}`processing_repeat_count` is set around the call of {lit}`process_record`, which leaves
something of the record. -/
def State.generate (c : Config K) (s : State K) (g : Registered) (event : KeyEvent K) :
    Option (State K × Kept) :=
  let record := g.recordFor event
  (process { s.call (.processRecord record) with processingRepeatCount := g.repeatCount }
    record).map fun s' =>
      ({ s' with processingRepeatCount := 0 }, processAction c s.endsOneshot record)

/-- The record of the Repeat keys is written through its pointer. -/
def State.setRepeated (s : State K) (record : Kept) : State K :=
  { s with repeated := { s.repeated with record := record } }

/-- The record of the Alternate Repeat keys is written through its pointer. -/
def State.setAlternate (s : State K) (record : Kept) : State K :=
  { s with alternate := { s.alternate with record := record } }

/-- {lit}`repeat_key_invoke` -/
def repeatKeyInvoke (c : Config K) (s : State K) (event : KeyEvent K) : Option (State K) :=
  if s.processingRepeatCount ≠ 0 ∨ s.lastRecord.keycode = 0 then some s
  else if event.pressed then
    let count := updateLastRepeatCount s.lastRepeatCount 1
    let s := s.call (.registerWeakMods s.lastMods)
    let s := { s with lastRepeatCount := count, repeated := ⟨s.lastRecord, count⟩ }
    (s.generate process c s.repeated event).map fun (s, record) => s.setRepeated record
  else
    (s.generate process c s.repeated event).map fun (s, record) =>
      (s.setRepeated record).call (.unregisterWeakMods s.lastMods)

/-- {lit}`alt_repeat_key_invoke` -/
def altRepeatKeyInvoke (c : Config K) (s : State K) (event : KeyEvent K) : Option (State K) :=
  if s.processingRepeatCount ≠ 0 then some s
  else
    let record : Kept :=
      if event.pressed then ⟨⟨false, 0⟩, getAltRepeatKeyKeycode c s⟩ else s.alternate.record
    let s := { s with alternate := { s.alternate with record := record } }
    if record.keycode = 0 then some s
    else if event.pressed then
      let count := updateLastRepeatCount s.lastRepeatCount (-1)
      let s := { s with lastRepeatCount := count, alternate := ⟨record, count⟩ }
      (s.generate process c s.alternate event).map fun (s, record) => s.setAlternate record
    else (s.generate process c s.alternate event).map fun (s, record) => s.setAlternate record

/-- {lit}`process_repeat_key` -/
def processRepeatKey (c : Config K) (s : State K) (keycode : ℕ) (r : KeyRecord K) :
    Option (State K) :=
  if s.processingRepeatCount ≠ 0 then some s
  else if keycode = qkRepeatKey then repeatKeyInvoke process c s r.event
  else if keycode = qkAltRepeatKey then altRepeatKeyInvoke process c s r.event
  else some s

/-- {lit}`get_record_keycode` -/
def getRecordKeycode (s : State K) (r : KeyRecord K) : ℕ :=
  if r.keycode ≠ 0 then r.keycode else s.keycodeOf r.event.key

/-- {lit}`process_record`, as far as the repeat keys are concerned. -/
def processRecord (c : Config K) : ℕ → State K → KeyRecord K → Option (State K)
  | 0, _, _ => none
  | fuel + 1, s, r =>
    let keycode := getRecordKeycode s r
    processRepeatKey (processRecord c fuel) c (processLastKey c s keycode r) keycode r

variable {c : Config K} {n : ℕ} {s : State K} {r : KeyRecord K}

/-- While a record made up is processed, the repeat keys pass everything on. -/
theorem processRecord_processing (h : s.processingRepeatCount ≠ 0) :
    processRecord c (n + 1) s r = some s := by
  simp [processRecord, processLastKey, processRepeatKey, h]

theorem generate_eq {g : Registered} (h : g.repeatCount ≠ 0) (event : KeyEvent K) :
    s.generate (processRecord c (n + 1)) c g event =
      some ({ s.call (.processRecord (g.recordFor event)) with processingRepeatCount := 0 },
        processAction c s.endsOneshot (g.recordFor event)) := by
  unfold State.generate
  simp only [processRecord_processing (c := c) (n := n)
    (s := { s.call (.processRecord (g.recordFor event)) with
      processingRepeatCount := g.repeatCount }) h, Option.map_some]

/-- The repeat keys themselves are not remembered. -/
theorem processLastKey_ignored {keycode : ℕ} (h : isIgnored keycode) :
    processLastKey c s keycode r = s := by
  simp [processLastKey, rememberLastKey, h]

theorem processLastKey_release (keycode : ℕ) (h : r.event.pressed = false) :
    processLastKey c s keycode r = s := by
  simp [processLastKey, h]

theorem isIgnored_repeat : isIgnored qkRepeatKey = true := by
  decide

theorem isIgnored_alternate : isIgnored qkAltRepeatKey = true := by
  decide

/-- The count of a repeated key is positive. -/
theorem updateLastRepeatCount_forward {count : ℤ} (hlow : -127 ≤ count) (hhigh : count ≤ 127) :
    0 < updateLastRepeatCount count 1 ∧ updateLastRepeatCount count 1 ≤ 127 := by
  unfold updateLastRepeatCount
  split_ifs <;> omega

/-- The count of a key repeated with the alternate keycode is negative. -/
theorem updateLastRepeatCount_backward {count : ℤ} (hlow : -127 ≤ count) (hhigh : count ≤ 127) :
    updateLastRepeatCount count (-1) < 0 ∧ -127 ≤ updateLastRepeatCount count (-1) := by
  unfold updateLastRepeatCount
  split_ifs <;> omega

/-! ## What is left of a record -/

/-- A record without a tap is left as it is. -/
theorem processAction_of_count (hcount : r.tap.count = 0) (endsOneshot : Bool) :
    processAction c endsOneshot r = r.toKept := by
  have hresets : r.toKept.resets = false := by simp [Kept.resets, hcount]
  simp [processAction, Kept.released, hresets, hcount]

/-- A press keeps its keycode, unless it ends a one-shot layer with a swap-hands key. -/
theorem processAction_press (hpressed : r.event.pressed = true) {endsOneshot : Bool}
    (hresets : endsOneshot = true → r.toKept.resets = false) :
    (processAction c endsOneshot r).keycode = r.keycode := by
  rw [processAction, if_pos hpressed]
  dsimp only
  split_ifs with honeshot hcancels
  · have hnone : Kept.resets { r.toKept with tap := { r.tap with count := 0 } } = false := by
      simp [Kept.resets]
    simp [Kept.released, hnone]
  · simp [Kept.released, hresets honeshot]
  · rfl
  · rfl

/-- A release may reset the record. -/
theorem processAction_release (hreleased : r.event.pressed = false) (endsOneshot : Bool) :
    processAction c endsOneshot r = r.toKept.released := by
  rw [processAction, if_neg (by simp [hreleased])]

/-! ## One record -/

section Quiet

variable (hquiet : s.processingRepeatCount = 0)
include hquiet

theorem processRecord_other (hrepeat : getRecordKeycode s r ≠ qkRepeatKey)
    (halternate : getRecordKeycode s r ≠ qkAltRepeatKey) :
    processRecord c (n + 1) s r = some (processLastKey c s (getRecordKeycode s r) r) := by
  have hlast : (processLastKey c s (getRecordKeycode s r) r).processingRepeatCount = 0 := by
    unfold processLastKey
    split_ifs
    · exact hquiet
    · split <;> exact hquiet
    · exact hquiet
  simp [processRecord, processRepeatKey, hlast, hrepeat, halternate]

theorem processRecord_repeat (hkeycode : getRecordKeycode s r = qkRepeatKey) :
    processRecord c (n + 1) s r = repeatKeyInvoke (processRecord c n) c s r.event := by
  simp [processRecord, processRepeatKey, hquiet, hkeycode,
    processLastKey_ignored isIgnored_repeat]

theorem processRecord_alternate (hkeycode : getRecordKeycode s r = qkAltRepeatKey) :
    processRecord c (n + 1) s r = altRepeatKeyInvoke (processRecord c n) c s r.event := by
  have hne : qkAltRepeatKey ≠ qkRepeatKey := by decide
  simp [processRecord, processRepeatKey, hquiet, hkeycode, hne,
    processLastKey_ignored isIgnored_alternate]

/-- Without a last key nothing is repeated. -/
theorem processRecord_repeat_idle (hkeycode : getRecordKeycode s r = qkRepeatKey)
    (hlast : s.lastRecord.keycode = 0) : processRecord c (n + 1) s r = some s := by
  rw [processRecord_repeat hquiet hkeycode, repeatKeyInvoke, if_pos (.inr hlast)]

/-- The press of a Repeat key adds the last mods and presses the last key. -/
theorem processRecord_repeat_press (hkeycode : getRecordKeycode s r = qkRepeatKey)
    (hlast : s.lastRecord.keycode ≠ 0) (hpressed : r.event.pressed = true)
    (hcount : updateLastRepeatCount s.lastRepeatCount 1 ≠ 0) :
    processRecord c (n + 2) s r =
      some { s with
        lastRepeatCount := updateLastRepeatCount s.lastRepeatCount 1
        repeated := ⟨processAction c s.endsOneshot ⟨s.lastRecord, r.event⟩,
          updateLastRepeatCount s.lastRepeatCount 1⟩
        calls := s.calls ++ [.registerWeakMods s.lastMods,
          .processRecord ⟨s.lastRecord, r.event⟩] } := by
  have hskip : ¬ (s.processingRepeatCount ≠ 0 ∨ s.lastRecord.keycode = 0) := by
    simp [hquiet, hlast]
  rw [processRecord_repeat hquiet hkeycode, repeatKeyInvoke, if_neg hskip, if_pos hpressed]
  simp [generate_eq, hcount, State.call, State.setRepeated, Registered.recordFor, hquiet]

/-- The release of a Repeat key releases the key kept at the last press, and removes the mods
that are the last ones now. -/
theorem processRecord_repeat_release (hkeycode : getRecordKeycode s r = qkRepeatKey)
    (hlast : s.lastRecord.keycode ≠ 0) (hreleased : r.event.pressed = false)
    (hcount : s.repeated.repeatCount ≠ 0) :
    processRecord c (n + 2) s r =
      some { s with
        repeated := { s.repeated with record := s.repeated.record.released }
        calls := s.calls ++ [.processRecord (s.repeated.recordFor r.event),
          .unregisterWeakMods s.lastMods] } := by
  have hskip : ¬ (s.processingRepeatCount ≠ 0 ∨ s.lastRecord.keycode = 0) := by
    simp [hquiet, hlast]
  rw [processRecord_repeat hquiet hkeycode, repeatKeyInvoke, if_neg hskip,
    if_neg (by simp [hreleased])]
  have hleft : processAction c s.endsOneshot (s.repeated.recordFor r.event) =
      s.repeated.record.released :=
    processAction_release (r := s.repeated.recordFor r.event) hreleased _
  rw [generate_eq hcount, hleft]
  simp [State.call, State.setRepeated, hquiet]

/-- The press of an Alternate Repeat key without an alternate keycode. -/
theorem processRecord_alternate_press_none (hkeycode : getRecordKeycode s r = qkAltRepeatKey)
    (hpressed : r.event.pressed = true) (hnone : getAltRepeatKeyKeycode c s = 0) :
    processRecord c (n + 1) s r =
      some { s with alternate := { s.alternate with record := ⟨⟨false, 0⟩, 0⟩ } } := by
  rw [processRecord_alternate hquiet hkeycode, altRepeatKeyInvoke, if_neg (by simp [hquiet])]
  simp [hpressed, hnone]

/-- The press of an Alternate Repeat key presses the alternate keycode. -/
theorem processRecord_alternate_press (hkeycode : getRecordKeycode s r = qkAltRepeatKey)
    (hpressed : r.event.pressed = true) (hsome : getAltRepeatKeyKeycode c s ≠ 0)
    (hcount : updateLastRepeatCount s.lastRepeatCount (-1) ≠ 0) :
    processRecord c (n + 2) s r =
      some { s with
        lastRepeatCount := updateLastRepeatCount s.lastRepeatCount (-1)
        alternate := ⟨⟨⟨false, 0⟩, getAltRepeatKeyKeycode c s⟩,
          updateLastRepeatCount s.lastRepeatCount (-1)⟩
        calls := s.calls ++
          [.processRecord ⟨⟨⟨false, 0⟩, getAltRepeatKeyKeycode c s⟩, r.event⟩] } := by
  rw [processRecord_alternate hquiet hkeycode, altRepeatKeyInvoke, if_neg (by simp [hquiet])]
  have hleft : processAction c s.endsOneshot
      ⟨⟨⟨false, 0⟩, getAltRepeatKeyKeycode c s⟩, r.event⟩ =
        ⟨⟨false, 0⟩, getAltRepeatKeyKeycode c s⟩ := processAction_of_count rfl _
  simp [hpressed, hsome, generate_eq, hcount, State.call, State.setAlternate,
    Registered.recordFor, hleft, hquiet]

theorem processRecord_alternate_release_none (hkeycode : getRecordKeycode s r = qkAltRepeatKey)
    (hreleased : r.event.pressed = false) (hnone : s.alternate.record.keycode = 0) :
    processRecord c (n + 1) s r = some s := by
  rw [processRecord_alternate hquiet hkeycode, altRepeatKeyInvoke, if_neg (by simp [hquiet])]
  simp [hreleased, hnone]

/-- The release of an Alternate Repeat key releases the key kept at the last press. -/
theorem processRecord_alternate_release (hkeycode : getRecordKeycode s r = qkAltRepeatKey)
    (hreleased : r.event.pressed = false) (hsome : s.alternate.record.keycode ≠ 0)
    (hcount : s.alternate.repeatCount ≠ 0) (htap : s.alternate.record.tap.count = 0) :
    processRecord c (n + 2) s r =
      some { s with
        calls := s.calls ++ [.processRecord (s.alternate.recordFor r.event)] } := by
  rw [processRecord_alternate hquiet hkeycode, altRepeatKeyInvoke, if_neg (by simp [hquiet])]
  have hleft : processAction c s.endsOneshot (s.alternate.recordFor r.event) =
      s.alternate.record :=
    processAction_of_count (r := s.alternate.recordFor r.event) htap _
  simp [hreleased, hsome, generate_eq, hcount, State.call, State.setAlternate, hleft, hquiet]

end Quiet

/-- A Repeat key that is released before any press of one has kept a record, with a last key
by now, processes its own release again and again. -/
theorem processRecord_repeat_recursion (hquiet : s.processingRepeatCount = 0)
    (hkeycode : s.keycodeOf r.event.key = qkRepeatKey) (hreleased : r.event.pressed = false)
    (hlast : s.lastRecord.keycode ≠ 0) (hrecord : s.repeated.record.keycode = 0)
    (hcount : s.repeated.repeatCount = 0) (hown : r.keycode = 0) :
    processRecord c n s r = none := by
  have hskip : ∀ t : State K, t.processingRepeatCount = 0 → t.lastRecord = s.lastRecord →
      ¬ (t.processingRepeatCount ≠ 0 ∨ t.lastRecord.keycode = 0) := by
    intro t ht hsame
    simp [ht, hsame, hlast]
  induction n generalizing s r with
  | zero => rfl
  | succ n ih =>
    have hget : getRecordKeycode s r = qkRepeatKey := by simp [getRecordKeycode, hown, hkeycode]
    rw [processRecord_repeat hquiet hget, repeatKeyInvoke, if_neg (hskip s hquiet rfl),
      if_neg (by simp [hreleased]), State.generate]
    have hagain := ih (s := { s.call (.processRecord (s.repeated.recordFor r.event)) with
        processingRepeatCount := s.repeated.repeatCount })
      (r := s.repeated.recordFor r.event) hcount hkeycode hreleased hlast hrecord hcount hrecord
      hskip
    simp [hagain]

end RepeatKey
end VialQmk
