import Mathlib.Algebra.GroupWithZero.Nat
import Mathlib.Tactic.Common
import VialQmk.Library.Runs
import VialQmk.Vial.QmkSettings

/-!
# Vial - raw HID commands

{lit}`raw_hid_receive` of {lit}`via.c` and {lit}`vial_handle_cmd` of {lit}`vial.c`: every
command of the host, on the buffer that holds the report and goes back as the reply.
Reports have 32 bytes, so the length check of {lit}`vial_handle_cmd` passes.  The weak
{lit}`raw_hid_receive_kb` is the default one.

A report comes with the readings the handlers take from the rest of the firmware while
they work on it: timers and switch matrix.

Main results:

- Definitions {lit}`vialHandleCmd` and {lit}`rawHidReceive`: the dispatchers.
- Definitions {lit}`step` and {lit}`reply`: the keyboard as a machine whose inputs are
  reports.
-/

namespace VialQmk
namespace Vial

variable {L : Type}

/-! ## Command numbers -/

/-- {lit}`enum via_command_id` -/
inductive ViaCommandId
  | getProtocolVersion | getKeyboardValue | setKeyboardValue
  | dynamicKeymapGetKeycode | dynamicKeymapSetKeycode | dynamicKeymapReset
  | lightingSetValue | lightingGetValue | lightingSave
  | eepromReset | bootloaderJump
  | dynamicKeymapMacroGetCount | dynamicKeymapMacroGetBufferSize
  | dynamicKeymapMacroGetBuffer | dynamicKeymapMacroSetBuffer | dynamicKeymapMacroReset
  | dynamicKeymapGetLayerCount | dynamicKeymapGetBuffer | dynamicKeymapSetBuffer
  | vialPrefix
deriving DecidableEq

/-- The command a byte stands for. -/
def ViaCommandId.ofByte (b : UInt8) : Option ViaCommandId :=
  match b.toNat with
  | 0x01 => some .getProtocolVersion
  | 0x02 => some .getKeyboardValue
  | 0x03 => some .setKeyboardValue
  | 0x04 => some .dynamicKeymapGetKeycode
  | 0x05 => some .dynamicKeymapSetKeycode
  | 0x06 => some .dynamicKeymapReset
  | 0x07 => some .lightingSetValue
  | 0x08 => some .lightingGetValue
  | 0x09 => some .lightingSave
  | 0x0A => some .eepromReset
  | 0x0B => some .bootloaderJump
  | 0x0C => some .dynamicKeymapMacroGetCount
  | 0x0D => some .dynamicKeymapMacroGetBufferSize
  | 0x0E => some .dynamicKeymapMacroGetBuffer
  | 0x0F => some .dynamicKeymapMacroSetBuffer
  | 0x10 => some .dynamicKeymapMacroReset
  | 0x11 => some .dynamicKeymapGetLayerCount
  | 0x12 => some .dynamicKeymapGetBuffer
  | 0x13 => some .dynamicKeymapSetBuffer
  | 0xFE => some .vialPrefix
  | _ => none

/-- The commands behind the prefix of Vial. -/
inductive VialCommandId
  | getKeyboardId | getSize | getDef | getEncoder | setEncoder
  | getUnlockStatus | unlockStart | unlockPoll | lock
  | qmkSettingsQuery | qmkSettingsGet | qmkSettingsSet | qmkSettingsReset
  | dynamicEntryOp
deriving DecidableEq

/-- The Vial command a byte stands for. -/
def VialCommandId.ofByte (b : UInt8) : Option VialCommandId :=
  match b.toNat with
  | 0x00 => some .getKeyboardId
  | 0x01 => some .getSize
  | 0x02 => some .getDef
  | 0x03 => some .getEncoder
  | 0x04 => some .setEncoder
  | 0x05 => some .getUnlockStatus
  | 0x06 => some .unlockStart
  | 0x07 => some .unlockPoll
  | 0x08 => some .lock
  | 0x09 => some .qmkSettingsQuery
  | 0x0A => some .qmkSettingsGet
  | 0x0B => some .qmkSettingsSet
  | 0x0C => some .qmkSettingsReset
  | 0x0D => some .dynamicEntryOp
  | _ => none

/-- The operations of {lit}`vial_dynamic_entry_op`. -/
inductive DynamicVialOp
  | getNumberOfEntries | tapDanceGet | tapDanceSet | comboGet | comboSet
  | keyOverrideGet | keyOverrideSet
deriving DecidableEq

/-- The operation a byte stands for. -/
def DynamicVialOp.ofByte (b : UInt8) : Option DynamicVialOp :=
  match b.toNat with
  | 0x00 => some .getNumberOfEntries
  | 0x01 => some .tapDanceGet
  | 0x02 => some .tapDanceSet
  | 0x03 => some .comboGet
  | 0x04 => some .comboSet
  | 0x05 => some .keyOverrideGet
  | 0x06 => some .keyOverrideSet
  | _ => none

/-! ## What the handlers read -/

/-- What the rest of the firmware shows the handlers during one report. -/
structure Readings where
  /-- {lit}`timer_read32` -/
  timer32 : UInt32
  /-- the reading inside {lit}`timer_elapsed` -/
  timerNow : UInt16
  /-- {lit}`timer_read`, taken for {lit}`vial_unlock_timer` -/
  timerStamp : UInt16
  /-- {lit}`matrix_get_row` -/
  matrixGetRow : ℕ → ℕ
  /-- {lit}`matrix_is_on` -/
  matrixIsOn : ℕ → ℕ → Bool

/-- A value as bytes, high byte first. -/
def bytesBE (n value : ℕ) : List UInt8 :=
  (List.range n).map fun i => UInt8.ofNat (value >>> (8 * (n - 1 - i)))

/-- A 16-bit number of a report, low byte first. -/
def wordLE (msg : Memory UInt8) (p : ℕ) : ℕ :=
  (msg p).toNat ||| (msg (p + 1)).toNat <<< 8

/-! ## Reset -/

/-- One layer of the loop of {lit}`dynamic_keymap_reset`. -/
def resetLayer (c : Config L) (eeprom : Memory UInt8) (layer : ℕ) : Memory UInt8 :=
  let eeprom := (List.range c.matrixRows).foldl (fun eeprom row =>
    (List.range c.matrixCols).foldl (fun eeprom column =>
      dynamicKeymapSetKeycode c layer row column (c.keymapRaw layer row column).toNat eeprom)
      eeprom) eeprom
  if c.encoderMapEnable then
    (List.range c.numEncoders).foldl (fun eeprom encoder =>
      dynamicKeymapSetEncoder c layer encoder false (c.encodermapRaw layer encoder false).toNat
        (dynamicKeymapSetEncoder c layer encoder true (c.encodermapRaw layer encoder true).toNat
          eeprom)) eeprom
  else eeprom

/-- The tap dance without actions, with {lit}`TAPPING_TERM`. -/
def defaultTapDance (c : Config L) : List UInt8 :=
  [0, 0, 0, 0, 0, 0, 0, 0, UInt8.ofNat c.settingsDefaults.tappingTerm,
    UInt8.ofNat (c.settingsDefaults.tappingTerm >>> 8)]

/-- The combo without keys. -/
def defaultCombo : List UInt8 :=
  [0, 0, 0, 0, 0, 0, 0, 0, 0, 0]

/-- The key override with all layers and the three activation options. -/
def defaultKeyOverride : List UInt8 :=
  [0, 0, 0, 0, 0xFF, 0xFF, 0, 0, 0, 0x07]

/-- The loops of {lit}`dynamic_keymap_reset` over the entries. -/
def resetEntries (set : ℕ → List UInt8 → Memory UInt8 → Int × Memory UInt8) (entries : ℕ)
    (entry : List UInt8) (eeprom : Memory UInt8) : Memory UInt8 :=
  (List.range entries).foldl (fun eeprom i => (set i entry eeprom).2) eeprom

/-- The keys and encoders of {lit}`dynamic_keymap_reset`. -/
def resetKeymap (c : Config L) (eeprom : Memory UInt8) : Memory UInt8 :=
  (List.range c.dynamicKeymapLayerCount).foldl (resetLayer c) eeprom

/-- The tap dances of {lit}`dynamic_keymap_reset`. -/
def resetTapDances (c : Config L) (eeprom : Memory UInt8) : Memory UInt8 :=
  if c.tapDanceEnable then
    resetEntries (dynamicKeymapSetTapDance c) c.vialTapDanceEntries (defaultTapDance c) eeprom
  else eeprom

/-- The combos of {lit}`dynamic_keymap_reset`. -/
def resetCombos (c : Config L) (eeprom : Memory UInt8) : Memory UInt8 :=
  if c.comboEnable then
    resetEntries (dynamicKeymapSetCombo c) c.vialComboEntries defaultCombo eeprom
  else eeprom

/-- The key overrides of {lit}`dynamic_keymap_reset`. -/
def resetKeyOverrides (c : Config L) (eeprom : Memory UInt8) : Memory UInt8 :=
  if c.keyOverrideEnable then
    resetEntries (dynamicKeymapSetKeyOverride c) c.vialKeyOverrideEntries defaultKeyOverride eeprom
  else eeprom

/-- {lit}`dynamic_keymap_reset`, which unlocks the keyboard for the time of the reset. -/
def dynamicKeymapReset (c : Config L) (s : State L) : State L :=
  let prev := s.vialUnlocked
  let s := { s with vialUnlocked := true }
  let s := s.mapEeprom (resetKeymap c)
  let s := if c.qmkSettings then qmkSettingsReset c s else s
  let s := s.mapEeprom (resetTapDances c)
  let s := s.mapEeprom (resetCombos c)
  let s := s.mapEeprom (resetKeyOverrides c)
  { s with vialUnlocked := prev }

/-- {lit}`eeconfig_init_via` -/
def eeconfigInitVia (c : Config L) (s : State L) : State L :=
  let s := s.mapEeprom (viaEepromSetValid c false)
  let s := s.mapEeprom (viaSetLayoutOptions c c.viaEepromLayoutOptionsDefault)
  let s := dynamicKeymapReset c s
  let s := s.mapEeprom (dynamicKeymapMacroReset c)
  s.mapEeprom (viaEepromSetValid c true)

/-! ## Vial commands -/

/-- {lit}`VIAL_UNLOCK_COUNTER_MAX` -/
def vialUnlockCounterMax : Int :=
  50

/-- A truth value as the host sees it. -/
def flag (b : Bool) : UInt8 :=
  if b then 1 else 0

/-- The case {lit}`vial_get_keyboard_id`. -/
def vialGetKeyboardId (c : Config L) (msg : Memory UInt8) : Memory UInt8 :=
  let msg := ((msg.fill 0 32 0).store 0 [6, 0, 0, 0]).store 4 c.vialKeyboardUid
  if c.vialrgbEnable then msg.store 12 [1] else msg

/-- The case {lit}`vial_get_size`. -/
def vialGetSize (c : Config L) (msg : Memory UInt8) : Memory UInt8 :=
  let sz := c.keyboardDefinition.length
  msg.store 0 [UInt8.ofNat sz, UInt8.ofNat (sz >>> 8), UInt8.ofNat (sz >>> 16),
    UInt8.ofNat (sz >>> 24)]

/-- The case {lit}`vial_get_def`: 32 bytes of the definition, fewer at its end. -/
def vialGetDef (c : Config L) (msg : Memory UInt8) : Memory UInt8 :=
  let start := wordLE msg 2 * 32
  if c.keyboardDefinition.length ≤ start then msg
  else msg.store 0 ((c.keyboardDefinition.drop start).take 32)

/-- The case {lit}`vial_get_encoder`. -/
def vialGetEncoder (c : Config L) (msg eeprom : Memory UInt8) : Memory UInt8 :=
  let layer := (msg 2).toNat
  let idx := (msg 3).toNat
  (msg.store 0 (keycodeBytes (dynamicKeymapGetEncoder c layer idx false eeprom))).store 2
    (keycodeBytes (dynamicKeymapGetEncoder c layer idx true eeprom))

/-- The case {lit}`vial_set_encoder`. -/
def vialSetEncoder (c : Config L) (msg : Memory UInt8) (s : State L) : State L :=
  s.mapEeprom (dynamicKeymapSetEncoder c (msg 2).toNat (msg 3).toNat (msg 4 ≠ 0)
    (vialKeycodeFirewall s.vialUnlocked (keycode (msg 5) (msg 6))))

/-- The case {lit}`vial_get_unlock_status`. -/
def vialGetUnlockStatus (c : Config L) (msg : Memory UInt8) (s : State L) : Memory UInt8 :=
  let keys := c.vialUnlockComboRows.zip c.vialUnlockComboCols
  ((msg.fill 0 32 0xFF).store 0 [flag s.vialUnlocked, flag s.vialUnlockInProgress]).store 2
    (keys.flatMap fun key => [UInt8.ofNat key.1, UInt8.ofNat key.2])

/-- The case {lit}`vial_unlock_start`. -/
def vialUnlockStart (r : Readings) (s : State L) : State L :=
  { s with
    vialUnlockInProgress := true
    vialUnlockCounter := vialUnlockCounterMax
    vialUnlockTimer := r.timerStamp }

/-- All unlock keys are down. -/
def holding (c : Config L) (r : Readings) : Bool :=
  (c.vialUnlockComboRows.zip c.vialUnlockComboCols).all fun key => r.matrixIsOn key.1 key.2

/-- The state after the case {lit}`vial_unlock_poll`. -/
def vialUnlockPoll (c : Config L) (r : Readings) (s : State L) : State L :=
  if s.vialUnlockInProgress then
    if 100 < (r.timerNow - s.vialUnlockTimer).toNat ∧ holding c r = true then
      let s := { s with
        vialUnlockTimer := r.timerStamp
        vialUnlockCounter := s.vialUnlockCounter - 1 }
      if s.vialUnlockCounter = 0 then
        { s with vialUnlockInProgress := false, vialUnlocked := true }
      else s
    else { s with vialUnlockCounter := vialUnlockCounterMax }
  else s

/-- The reply to a poll. -/
def pollReply (msg : Memory UInt8) (s : State L) : Memory UInt8 :=
  msg.store 0 [flag s.vialUnlocked, flag s.vialUnlockInProgress, UInt8.ofInt s.vialUnlockCounter]

/-- {lit}`vial_keycode_firewall` on the 16-bit field at {lit}`p` of an entry. -/
def firewallField (vialUnlocked : Bool) (entry : Memory UInt8) (p : ℕ) : Memory UInt8 :=
  let kc := vialKeycodeFirewall vialUnlocked (keycode (entry (p + 1)) (entry p))
  entry.store p [UInt8.ofNat kc, UInt8.ofNat (kc >>> 8)]

/-- The cases of {lit}`vial_dynamic_entry_op` that read an entry. -/
def entryGet (get : ℕ → List UInt8 → Memory UInt8 → Int × List UInt8)
    (msg eeprom : Memory UInt8) : Memory UInt8 :=
  let r := get (msg 3).toNat (List.replicate 10 0) eeprom
  (msg.store 0 [UInt8.ofInt r.1]).store 1 r.2

/-- The cases of {lit}`vial_dynamic_entry_op` that write an entry, with the firewall on
the keycodes at {lit}`fields`. -/
def entrySet (set : ℕ → List UInt8 → Memory UInt8 → Int × Memory UInt8) (fields : List ℕ)
    (msg : Memory UInt8) (s : State L) : Memory UInt8 × State L :=
  let entry := Memory.store (fun _ => 0) 0 (msg.load 4 10)
  let entry := fields.foldl (firewallField s.vialUnlocked) entry
  let r := set (msg 3).toNat (entry.load 0 10) s.eeprom
  (msg.store 0 [UInt8.ofInt r.1], { s with eeprom := r.2 })

/-- {lit}`vial_dynamic_entry_op` -/
def dynamicEntryOp (c : Config L) (msg : Memory UInt8) (s : State L) : Memory UInt8 × State L :=
  match DynamicVialOp.ofByte (msg 2) with
  | some .getNumberOfEntries =>
    ((msg.fill 0 32 0).store 0 [UInt8.ofNat c.vialTapDanceEntries,
      UInt8.ofNat c.vialComboEntries, UInt8.ofNat c.vialKeyOverrideEntries], s)
  | some .tapDanceGet =>
    (if c.tapDanceEnable then entryGet (dynamicKeymapGetTapDance c) msg s.eeprom else msg, s)
  | some .tapDanceSet =>
    if c.tapDanceEnable then entrySet (dynamicKeymapSetTapDance c) [0, 2, 4, 6] msg s else (msg, s)
  | some .comboGet =>
    (if c.comboEnable then entryGet (dynamicKeymapGetCombo c) msg s.eeprom else msg, s)
  | some .comboSet =>
    if c.comboEnable then entrySet (dynamicKeymapSetCombo c) [8] msg s else (msg, s)
  | some .keyOverrideGet =>
    (if c.keyOverrideEnable then entryGet (dynamicKeymapGetKeyOverride c) msg s.eeprom else msg, s)
  | some .keyOverrideSet =>
    if c.keyOverrideEnable then entrySet (dynamicKeymapSetKeyOverride c) [2] msg s else (msg, s)
  | none => (msg, s)

/-- {lit}`vial_handle_cmd` -/
def vialHandleCmd (c : Config L) (r : Readings) (msg : Memory UInt8) (s : State L) :
    Memory UInt8 × State L :=
  match VialCommandId.ofByte (msg 1) with
  | some .getKeyboardId => (vialGetKeyboardId c msg, s)
  | some .getSize => (vialGetSize c msg, s)
  | some .getDef => (vialGetDef c msg, s)
  | some .getEncoder => (if c.encoderMapEnable then vialGetEncoder c msg s.eeprom else msg, s)
  | some .setEncoder => (msg, if c.encoderMapEnable then vialSetEncoder c msg s else s)
  | some .getUnlockStatus => (vialGetUnlockStatus c msg s, s)
  | some .unlockStart => (msg, vialUnlockStart r s)
  | some .unlockPoll =>
    let s := vialUnlockPoll c r s
    (pollReply msg s, s)
  | some .lock => (msg, { s with vialUnlocked := false })
  | some .qmkSettingsQuery =>
    (if c.qmkSettings then qmkSettingsQuery c (wordLE msg 2) 32 msg else msg.fill 0 32 0xFF, s)
  | some .qmkSettingsGet =>
    if c.qmkSettings then
      let res := qmkSettingsGet c (wordLE msg 2) 31 1 msg s
      (res.2.store 0 [UInt8.ofInt res.1], s)
    else (msg, s)
  | some .qmkSettingsSet =>
    if c.qmkSettings then
      let res := qmkSettingsSet c (wordLE msg 2) 28 4 msg s
      (msg.store 0 [UInt8.ofInt res.1], res.2)
    else (msg, s)
  | some .qmkSettingsReset => (msg, if c.qmkSettings then qmkSettingsReset c s else s)
  | some .dynamicEntryOp => dynamicEntryOp c msg s
  | none => (msg, s)

/-! ## VIA commands -/

/-- The default {lit}`raw_hid_receive_kb`: the unhandled state. -/
def rawHidReceiveKb (data : Memory UInt8) : Memory UInt8 :=
  data.store 0 [0xFF]

/-- The case {lit}`id_switch_matrix_state`, for an unlocked keyboard. -/
def switchMatrixState (c : Config L) (r : Readings) (data : Memory UInt8) : Memory UInt8 :=
  if (c.matrixCols / 8 + 1) * c.matrixRows ≤ 28 then
    let width := if 24 < c.matrixCols then 4 else if 16 < c.matrixCols then 3
      else if 8 < c.matrixCols then 2 else 1
    data.store 2 ((List.range c.matrixRows).flatMap fun row => bytesBE width (r.matrixGetRow row))
  else data

/-- The case {lit}`id_get_keyboard_value`. -/
def getKeyboardValue (c : Config L) (r : Readings) (data : Memory UInt8) (s : State L) :
    Memory UInt8 :=
  match (data 1).toNat with
  | 0x01 => data.store 2 (bytesBE 4 r.timer32.toNat)
  | 0x02 => data.store 2 (bytesBE 4 (viaGetLayoutOptions c s.eeprom))
  | 0x03 => if s.vialUnlocked then switchMatrixState c r data else data
  | _ => rawHidReceiveKb data

/-- The case {lit}`id_set_keyboard_value`. -/
def setKeyboardValue (c : Config L) (data : Memory UInt8) (s : State L) :
    Memory UInt8 × State L :=
  if (data 1).toNat = 0x02 then
    let value := (data 2).toNat <<< 24 ||| (data 3).toNat <<< 16 ||| (data 4).toNat <<< 8 |||
      (data 5).toNat
    (data, s.mapEeprom (viaSetLayoutOptions c value))
  else (rawHidReceiveKb data, s)

/-- The offset of a buffer command. -/
def bufferOffset (data : Memory UInt8) : ℕ :=
  (data 1).toNat <<< 8 ||| (data 2).toNat

/-- The commands that read a buffer: at most 28 bytes go behind the arguments. -/
def getBuffer (get : ℕ → ℕ → ℕ → Memory UInt8 → Memory UInt8 → Memory UInt8)
    (data : Memory UInt8) (s : State L) : Memory UInt8 :=
  if (data 3).toNat ≤ 28 then get (bufferOffset data) (data 3).toNat 4 data s.eeprom else data

/-- The unlock in progress lets these commands through. -/
def passesGate (data : Memory UInt8) : Bool :=
  data 0 == 0xFE && match VialCommandId.ofByte (data 1) with
    | some .getKeyboardId | some .getSize | some .getDef | some .getUnlockStatus
    | some .unlockStart | some .unlockPoll => true
    | _ => false

/-- The switch of {lit}`raw_hid_receive`. -/
def rawHidCommand (c : Config L) (r : Readings) (data : Memory UInt8) (s : State L) :
    Memory UInt8 × State L :=
  match ViaCommandId.ofByte (data 0) with
  | some .getProtocolVersion => (data.store 1 [0x00, 0x09], s)
  | some .getKeyboardValue => (getKeyboardValue c r data s, s)
  | some .setKeyboardValue => setKeyboardValue c data s
  | some .dynamicKeymapGetKeycode =>
    (data.store 4 (keycodeBytes (dynamicKeymapGetKeycode c (data 1).toNat (data 2).toNat
      (data 3).toNat s.eeprom)), s)
  | some .dynamicKeymapSetKeycode =>
    (data, s.mapEeprom (dynamicKeymapSetKeycode c (data 1).toNat (data 2).toNat (data 3).toNat
      (keycode (data 4) (data 5))))
  | some .dynamicKeymapReset => (data, dynamicKeymapReset c s)
  | some .lightingSetValue =>
    let res := c.lighting.setValue data s.lighting
    (res.1, { s with lighting := res.2 })
  | some .lightingGetValue =>
    let res := c.lighting.getValue data s.lighting
    (res.1, { s with lighting := res.2 })
  | some .lightingSave =>
    let res := c.lighting.save data s.lighting s.eeprom
    (res.1, { s with lighting := res.2.1, eeprom := res.2.2 })
  | some .eepromReset =>
    if c.viaEepromAllowReset then
      (data, eeconfigInitVia c (s.mapEeprom (viaEepromSetValid c false)))
    else (rawHidReceiveKb data, s)
  | some .bootloaderJump =>
    if s.vialUnlocked then (data, { s with bootloader := true }) else (data, s)
  | some .dynamicKeymapMacroGetCount =>
    (data.store 1 [UInt8.ofNat c.dynamicKeymapMacroCount], s)
  | some .dynamicKeymapMacroGetBufferSize =>
    (data.store 1 (bytesBE 2 c.dynamicKeymapMacroEepromSize), s)
  | some .dynamicKeymapMacroGetBuffer => (getBuffer (dynamicKeymapMacroGetBuffer c) data s, s)
  | some .dynamicKeymapMacroSetBuffer =>
    if s.vialUnlocked ∧ (data 3).toNat ≤ 28 then
      (data, s.mapEeprom (dynamicKeymapMacroSetBuffer c (bufferOffset data) (data 3).toNat 4 data))
    else (data, s)
  | some .dynamicKeymapMacroReset => (data, s.mapEeprom (dynamicKeymapMacroReset c))
  | some .dynamicKeymapGetLayerCount =>
    (data.store 1 [UInt8.ofNat c.dynamicKeymapLayerCount], s)
  | some .dynamicKeymapGetBuffer => (getBuffer (dynamicKeymapGetBuffer c) data s, s)
  | some .dynamicKeymapSetBuffer =>
    if (data 3).toNat ≤ 28 then
      let res := dynamicKeymapSetBuffer c s.vialUnlocked (bufferOffset data) (data 3).toNat 4 data
        s.eeprom
      (res.1, { s with eeprom := res.2 })
    else (data, s)
  | some .vialPrefix => vialHandleCmd c r data s
  | none => (rawHidReceiveKb data, s)

/-- {lit}`raw_hid_receive`: the reply is the buffer the report came in. -/
def rawHidReceive (c : Config L) (r : Readings) (data : Memory UInt8) (s : State L) :
    Memory UInt8 × State L :=
  if s.vialUnlockInProgress = true ∧ passesGate data = false then (data, s)
  else rawHidCommand c r data s

/-! ## The keyboard as a machine -/

instance neZero_report : NeZero 32 := ⟨by decide⟩

/-- A report of the host, with the readings it finds. -/
structure Input where
  report : Fin 32 → UInt8
  readings : Readings

/-- The buffer with the report in its first 32 bytes, and whatever stands behind it. -/
def buffer (s : State L) (report : Fin 32 → UInt8) : Memory UInt8 :=
  fun i => if h : i < 32 then report ⟨i, h⟩ else s.stray (i - 32)

/-- Receive a report. -/
def receive (c : Config L) (s : State L) (i : Input) : Memory UInt8 × State L :=
  rawHidReceive c i.readings (buffer s i.report) s

/-- The state after a report. -/
def step (c : Config L) (s : State L) (i : Input) : State L :=
  { (receive c s i).2 with stray := fun k => (receive c s i).1 (k + 32) }

/-- The reply to a report. -/
def reply (c : Config L) (s : State L) (i : Input) : Fin 32 → UInt8 :=
  fun k => (receive c s i).1 k

/-! ## A small keyboard -/

/-- One layer with one key, neither encoders nor entries, and 107 bytes of macros. -/
def smallKeyboard : Config Unit where
  eeconfigSize := 15
  viaEepromMagicAddr := 15
  viaEepromLayoutOptionsSize := 1
  viaEepromLayoutOptionsDefault := 0
  viaEepromCustomConfigSize := 0
  viaEepromAllowReset := false
  buildId := 0
  dynamicKeymapEepromAddr := 19
  dynamicKeymapLayerCount := 1
  matrixRows := 1
  matrixCols := 1
  keymapRaw _ _ _ := 4
  encoderMapEnable := false
  numEncoders := 0
  encodermapRaw _ _ _ := 0
  qmkSettings := false
  mousekeyEnable := false
  settingsDefaults :=
    { autoShiftTimeout := 175, oneshotTapToggle := 5, oneshotTimeout := 5000, mousekeyDelay := 10
      mousekeyInterval := 20, mousekeyMoveDelta := 8, mousekeyMaxSpeed := 10
      mousekeyTimeToMax := 30, mousekeyWheelDelay := 10, mousekeyWheelInterval := 80
      mousekeyWheelMaxSpeed := 8, mousekeyWheelTimeToMax := 40, comboTerm := 50
      tappingTerm := 200, tapCodeDelay := 0, tapHoldCapsDelay := 80, tappingToggle := 5 }
  tapDanceEnable := false
  vialTapDanceEntries := 0
  comboEnable := false
  vialComboEntries := 0
  keyOverrideEnable := false
  vialKeyOverrideEntries := 0
  dynamicKeymapMacroEepromAddr := 21
  dynamicKeymapMacroEepromSize := 107
  dynamicKeymapMacroCount := 16
  dynamicKeymapEepromMaxAddr := 127
  vialKeyboardUid := [1, 2, 3, 4, 5, 6, 7, 8]
  keyboardDefinition := []
  vialrgbEnable := false
  vialUnlockComboRows := [0]
  vialUnlockComboCols := [0]
  lighting := Lighting.none
  keymap_le_eeconfigSize := by decide
  eeconfigSize_le := by decide
  configEnd_le := by decide
  tapDanceEntries_eq _ := rfl
  comboEntries_eq _ := rfl
  keyOverrideEntries_eq _ := rfl
  keyOverrideEnd_le := by decide
  macroAddr_le := by decide
  macroEnd_le := by decide
  maxAddr_le := by decide
  uid_length := rfl
  comboCols_length := rfl
  comboRows_length := by decide
  lightingSave_frame _ _ _ := Memory.Frame.refl _ _ _

/-- The small keyboard, locked, with an EEPROM of zeros but for the first macro. -/
def smallState : State Unit where
  eeprom x := if x = 21 then 97 else 0
  vialUnlocked := false
  vialUnlockInProgress := false
  vialUnlockCounter := 0
  vialUnlockTimer := 0
  qs _ := 0
  keymapConfig := 0
  lighting := ()
  stray _ := 0
  bootloader := false

/-- A report that starts with these bytes, while no key is down. -/
def inputOf (bytes : List UInt8) : Input where
  report k := bytes.getD k 0
  readings :=
    { timer32 := 0, timerNow := 0, timerStamp := 0, matrixGetRow := fun _ => 0
      matrixIsOn := fun _ _ => false }

end Vial
end VialQmk
