import Mathlib.Data.Nat.Bitwise
import Mathlib.Tactic.Common

/-!
# Keys - keycodes and actions

A 16-bit keycode is turned into a 16-bit action: {lit}`keycode_config` swaps keys as the
magic settings say, and {lit}`action_for_keycode` encodes what is left.  Codes are natural
numbers, packed as the source packs them.

The usage tables of the system and consumer keys are parameters.

Main results:

- Definition {lit}`actionForKeycode`: the action of a keycode.
- Definition {lit}`Action.kind` and the fields behind it: how an action is taken apart.
-/

namespace VialQmk
namespace Keys

/-! ## Keycodes -/

def kcNo : ℕ := 0x00
def kcTransparent : ℕ := 0x01
def kcA : ℕ := 0x04
def kcEscape : ℕ := 0x29
def kcBackspace : ℕ := 0x2A
def kcSpace : ℕ := 0x2C
def kcBackslash : ℕ := 0x31
def kcGrave : ℕ := 0x35
def kcCapsLock : ℕ := 0x39
def kcLockingCapsLock : ℕ := 0x82
def kcLeftCtrl : ℕ := 0xE0
def kcLeftShift : ℕ := 0xE1
def kcLeftAlt : ℕ := 0xE2
def kcLeftGui : ℕ := 0xE3
def kcRightCtrl : ℕ := 0xE4
def kcRightAlt : ℕ := 0xE6
def kcRightGui : ℕ := 0xE7

/-- {lit}`IS_BASIC_KEYCODE` -/
def isBasicKeycode (code : ℕ) : Bool :=
  0x04 ≤ code && code ≤ 0xA4

/-- {lit}`IS_SYSTEM_KEYCODE` -/
def isSystemKeycode (code : ℕ) : Bool :=
  0xA5 ≤ code && code ≤ 0xA7

/-- {lit}`IS_CONSUMER_KEYCODE` -/
def isConsumerKeycode (code : ℕ) : Bool :=
  0xA8 ≤ code && code ≤ 0xC2

/-- {lit}`IS_MOUSE_KEYCODE` -/
def isMouseKeycode (code : ℕ) : Bool :=
  0xCD ≤ code && code ≤ 0xDF

/-- {lit}`IS_MODIFIER_KEYCODE` -/
def isModifierKeycode (code : ℕ) : Bool :=
  0xE0 ≤ code && code ≤ 0xE7

/-! ## Magic settings -/

/-- The bits of {lit}`keymap_config_t`. -/
inductive MagicBit
  | swapControlCapslock | capslockToControl | swapLaltLgui | swapRaltRgui | noGui
  | swapGraveEsc | swapBackslashBackspace | nkro | swapLctlLgui | swapRctlRgui
  | oneshotEnable | swapEscapeCapslock | autocorrectEnable
deriving DecidableEq

/-- The place of the bit, from the lowest one. -/
def MagicBit.index : MagicBit → ℕ
  | swapControlCapslock => 0
  | capslockToControl => 1
  | swapLaltLgui => 2
  | swapRaltRgui => 3
  | noGui => 4
  | swapGraveEsc => 5
  | swapBackslashBackspace => 6
  | nkro => 7
  | swapLctlLgui => 8
  | swapRctlRgui => 9
  | oneshotEnable => 10
  | swapEscapeCapslock => 11
  | autocorrectEnable => 12

/-- A setting of {lit}`keymap_config`. -/
def isSet (keymapConfig : UInt16) (b : MagicBit) : Bool :=
  keymapConfig.toNat.testBit b.index

/-- A gui key, unless they are disabled. -/
def guiOr (keymapConfig : UInt16) (gui : ℕ) : ℕ :=
  if isSet keymapConfig .noGui then kcNo else gui

/-- {lit}`keycode_config` -/
def keycodeConfig (keymapConfig : UInt16) (keycode : ℕ) : ℕ :=
  if keycode = kcCapsLock ∨ keycode = kcLockingCapsLock then
    if isSet keymapConfig .swapControlCapslock || isSet keymapConfig .capslockToControl then
      kcLeftCtrl
    else if isSet keymapConfig .swapEscapeCapslock then kcEscape
    else keycode
  else if keycode = kcLeftCtrl then
    if isSet keymapConfig .swapControlCapslock then kcCapsLock
    else if isSet keymapConfig .swapLctlLgui then guiOr keymapConfig kcLeftGui
    else kcLeftCtrl
  else if keycode = kcLeftAlt then
    if isSet keymapConfig .swapLaltLgui then guiOr keymapConfig kcLeftGui else kcLeftAlt
  else if keycode = kcLeftGui then
    if isSet keymapConfig .swapLaltLgui then kcLeftAlt
    else if isSet keymapConfig .swapLctlLgui then kcLeftCtrl
    else guiOr keymapConfig kcLeftGui
  else if keycode = kcRightCtrl then
    if isSet keymapConfig .swapRctlRgui then guiOr keymapConfig kcRightGui else kcRightCtrl
  else if keycode = kcRightAlt then
    if isSet keymapConfig .swapRaltRgui then guiOr keymapConfig kcRightGui else kcRightAlt
  else if keycode = kcRightGui then
    if isSet keymapConfig .swapRaltRgui then kcRightAlt
    else if isSet keymapConfig .swapRctlRgui then kcRightCtrl
    else guiOr keymapConfig kcRightGui
  else if keycode = kcGrave then
    if isSet keymapConfig .swapGraveEsc then kcEscape else kcGrave
  else if keycode = kcEscape then
    if isSet keymapConfig .swapGraveEsc then kcGrave
    else if isSet keymapConfig .swapEscapeCapslock then kcCapsLock
    else kcEscape
  else if keycode = kcBackslash then
    if isSet keymapConfig .swapBackslashBackspace then kcBackspace else kcBackslash
  else if keycode = kcBackspace then
    if isSet keymapConfig .swapBackslashBackspace then kcBackslash else kcBackspace
  else keycode

/-- One of the swaps of {lit}`mod_config`: exactly one of two modifiers becomes the other. -/
def swapMods (on : Bool) (mask mods mask' mods' flip mod : ℕ) : ℕ :=
  if on && (decide (mod &&& mask = mods) ^^ decide (mod &&& mask' = mods')) then mod ^^^ flip
  else mod

/-- {lit}`mod_config`, on the five bits of packed modifiers. -/
def modConfig (keymapConfig : UInt16) (mod : ℕ) : ℕ :=
  let mod := swapMods (isSet keymapConfig .swapLaltLgui) 0x14 0x04 0x18 0x08 0x0C mod
  let mod := swapMods (isSet keymapConfig .swapRaltRgui) 0x14 0x14 0x18 0x18 0x0C mod
  let mod := swapMods (isSet keymapConfig .swapLctlLgui) 0x11 0x01 0x18 0x08 0x09 mod
  let mod := swapMods (isSet keymapConfig .swapRctlRgui) 0x11 0x11 0x18 0x18 0x09 mod
  -- without gui keys both gui masks are cleared, and with them the bit of the right hand
  if isSet keymapConfig .noGui then mod &&& 0xF7 &&& 0xE7 else mod

/-! ## Actions -/

/-- {lit}`action_t.code` -/
abbrev Action :=
  ℕ

namespace Action

/-- {lit}`action.kind.id` -/
def kind (a : Action) : ℕ :=
  a >>> 12 &&& 0xF

/-- {lit}`action.key.code` -/
def keyCode (a : Action) : ℕ :=
  a &&& 0xFF

/-- {lit}`action.key.mods` -/
def keyMods (a : Action) : ℕ :=
  a >>> 8 &&& 0xF

end Action

/-- {lit}`ACTION_NO` -/
def actionNo : Action :=
  0

/-- {lit}`ACTION_TRANSPARENT` -/
def actionTransparent : Action :=
  1

/-- {lit}`ACTION` -/
def action (kind param : ℕ) : Action :=
  kind <<< 12 ||| param

/-- {lit}`ACTION_KEY` -/
def actionKey (key : ℕ) : Action :=
  action 0b0000 key

/-- {lit}`ACTION_MODS_KEY` -/
def actionModsKey (mods key : ℕ) : Action :=
  action 0b0000 ((mods &&& 0x1F) <<< 8 ||| key)

/-- {lit}`ACTION_MODS_TAP_KEY`, and with key 0 {lit}`ACTION_MODS_ONESHOT` -/
def actionModsTapKey (mods key : ℕ) : Action :=
  action 0b0010 ((mods &&& 0x1F) <<< 8 ||| key)

/-- {lit}`ACTION_LAYER_TAP` -/
def actionLayerTap (layer key : ℕ) : Action :=
  action 0b1010 (layer <<< 8 ||| key)

/-- {lit}`ACTION_LAYER_BITOP`, on the bit of one layer -/
def actionLayerBitop (op layer on : ℕ) : Action :=
  action 0b1000 (op <<< 10 ||| on <<< 8 ||| (layer / 4) <<< 5 ||| (1 <<< (layer % 4) &&& 0x1F))

/-- {lit}`ACTION_LAYER_MODS` -/
def actionLayerMods (layer mods : ℕ) : Action :=
  action 0b1001 (layer <<< 8 ||| mods)

/-- What a build adds to the keycodes: the usages of the system and consumer keys
({lit}`KEYCODE2SYSTEM`, {lit}`KEYCODE2CONSUMER`), and whether there are such keys. -/
structure Usages where
  extrakeyEnable : Bool
  swapHandsEnable : Bool
  keycode2system : ℕ → ℕ
  keycode2consumer : ℕ → ℕ

/-- {lit}`action_for_keycode`, after {lit}`keycode_config` -/
def encodeKeycode (u : Usages) (keymapConfig : UInt16) (keycode : ℕ) : Action :=
  let low := keycode &&& 0xFF
  let low5 := keycode &&& 0x1F
  let mods := keycode >>> 8 &&& 0x1F
  if isBasicKeycode keycode || isModifierKeycode keycode then actionKey keycode
  else if u.extrakeyEnable && isSystemKeycode keycode then
    action 0b0100 (0 <<< 10 ||| u.keycode2system keycode)
  else if u.extrakeyEnable && isConsumerKeycode keycode then
    action 0b0100 (1 <<< 10 ||| u.keycode2consumer keycode)
  else if isMouseKeycode keycode then action 0b0101 keycode
  else if keycode = kcTransparent then actionTransparent
  else if 0x0100 ≤ keycode ∧ keycode ≤ 0x1FFF then
    actionModsKey (modConfig keymapConfig mods) (keycodeConfig keymapConfig low)
  else if 0x4000 ≤ keycode ∧ keycode ≤ 0x4FFF then
    -- layer tap
    actionLayerTap (keycode >>> 8 &&& 0xF) (keycodeConfig keymapConfig low)
  else if 0x5200 ≤ keycode ∧ keycode ≤ 0x521F then
    -- go to a layer, on the press
    actionLayerBitop 3 low5 1
  else if 0x5220 ≤ keycode ∧ keycode ≤ 0x523F then actionLayerTap low5 0xF1
  else if 0x5240 ≤ keycode ∧ keycode ≤ 0x525F then actionLayerBitop 3 low5 0
  else if 0x5260 ≤ keycode ∧ keycode ≤ 0x527F then
    -- toggle a layer, on the release
    actionLayerBitop 2 low5 2
  else if 0x5280 ≤ keycode ∧ keycode ≤ 0x529F then actionLayerTap low5 0xF4
  else if 0x52A0 ≤ keycode ∧ keycode ≤ 0x52BF then
    actionModsTapKey (modConfig keymapConfig low5) 0x00
  else if 0x52C0 ≤ keycode ∧ keycode ≤ 0x52DF then actionLayerTap low5 0xF0
  else if 0x5000 ≤ keycode ∧ keycode ≤ 0x51FF then
    let mod := modConfig keymapConfig low5
    -- the bit of the right hand is shifted into the layer
    actionLayerMods (keycode >>> 5 &&& 0xF) (if mod &&& 0x10 ≠ 0 then mod <<< 4 else mod)
  else if 0x2000 ≤ keycode ∧ keycode ≤ 0x3FFF then
    actionModsTapKey (modConfig keymapConfig mods) (keycodeConfig keymapConfig low)
  else if u.swapHandsEnable ∧ 0x5600 ≤ keycode ∧ keycode ≤ 0x56FF then
    action 0b0110 (keycodeConfig keymapConfig low)
  else actionNo

/-- {lit}`action_for_keycode` -/
def actionForKeycode (u : Usages) (keymapConfig : UInt16) (keycode : ℕ) : Action :=
  encodeKeycode u keymapConfig (keycodeConfig keymapConfig keycode)

end Keys
end VialQmk
