import Mathlib.Algebra.Group.Nat.Defs
import VialQmk.Library.Memory

/-!
# Vial - options, EEPROM layout and state

The raw HID commands of a keyboard read and write one EEPROM, whose areas stand one
behind the other: core configuration, VIA configuration, keymap, encoders, QMK
settings, tap dances, combos, key overrides, macros.  This module fixes the options a
keyboard is built with, the layout that follows from them, and the state the command
handlers share.

The lighting code is a parameter: three handlers over a state of their own, of which
only the one that saves touches the EEPROM, inside the core configuration.

Main results:

- Definition {lit}`Config`: the options of a keyboard, with the layout checks of
  {lit}`dynamic_keymap.c`.
- Definition {lit}`State`: EEPROM, unlock variables and settings.
- Definition {lit}`KeycodeCell`: the places that hold a keycode, of all five areas.
- Theorem {lit}`KeycodeCell.apart`: different cells do not overlap.
-/

namespace VialQmk
namespace Vial

/-! ## Options -/

/-- The values {lit}`qmk_settings_reset` restores. -/
structure SettingsDefaults where
  autoShiftTimeout : ℕ
  oneshotTapToggle : ℕ
  oneshotTimeout : ℕ
  mousekeyDelay : ℕ
  mousekeyInterval : ℕ
  mousekeyMoveDelta : ℕ
  mousekeyMaxSpeed : ℕ
  mousekeyTimeToMax : ℕ
  mousekeyWheelDelay : ℕ
  mousekeyWheelInterval : ℕ
  mousekeyWheelMaxSpeed : ℕ
  mousekeyWheelTimeToMax : ℕ
  comboTerm : ℕ
  tappingTerm : ℕ
  tapCodeDelay : ℕ
  tapHoldCapsDelay : ℕ
  tappingToggle : ℕ

/-- The lighting code behind the commands {lit}`id_lighting_set_value`,
{lit}`id_lighting_get_value` and {lit}`id_lighting_save`, over its own state.  Each
handler works on the report, the last one also on the EEPROM. -/
structure Lighting (L : Type) where
  setValue : Memory UInt8 → L → Memory UInt8 × L
  getValue : Memory UInt8 → L → Memory UInt8 × L
  save : Memory UInt8 → L → Memory UInt8 → Memory UInt8 × L × Memory UInt8

/-- Without lighting the three commands return the unhandled state. -/
def Lighting.none : Lighting Unit where
  setValue data _ := (data.store 0 [0xFF], ())
  getValue data _ := (data.store 0 [0xFF], ())
  save data _ eeprom := (data.store 0 [0xFF], (), eeprom)

/-- The options of a keyboard, under the names of the source. -/
structure Options (L : Type) where
  eeconfigSize : ℕ
  viaEepromMagicAddr : ℕ
  viaEepromLayoutOptionsSize : ℕ
  viaEepromLayoutOptionsDefault : ℕ
  viaEepromCustomConfigSize : ℕ
  viaEepromAllowReset : Bool
  buildId : ℕ
  dynamicKeymapEepromAddr : ℕ
  dynamicKeymapLayerCount : ℕ
  matrixRows : ℕ
  matrixCols : ℕ
  /-- {lit}`keycode_at_keymap_location_raw`: the keymap in flash -/
  keymapRaw : ℕ → ℕ → ℕ → UInt16
  encoderMapEnable : Bool
  numEncoders : ℕ
  /-- {lit}`keycode_at_encodermap_location_raw`: the encoder map in flash -/
  encodermapRaw : ℕ → ℕ → Bool → UInt16
  qmkSettings : Bool
  mousekeyEnable : Bool
  settingsDefaults : SettingsDefaults
  tapDanceEnable : Bool
  vialTapDanceEntries : ℕ
  comboEnable : Bool
  vialComboEntries : ℕ
  keyOverrideEnable : Bool
  vialKeyOverrideEntries : ℕ
  dynamicKeymapMacroEepromAddr : ℕ
  dynamicKeymapMacroEepromSize : ℕ
  dynamicKeymapMacroCount : ℕ
  dynamicKeymapEepromMaxAddr : ℕ
  vialKeyboardUid : List UInt8
  keyboardDefinition : List UInt8
  vialrgbEnable : Bool
  vialUnlockComboRows : List ℕ
  vialUnlockComboCols : List ℕ
  lighting : Lighting L

namespace Options

variable {L : Type} (c : Options L)

/-- {lit}`VIA_EEPROM_LAYOUT_OPTIONS_ADDR` -/
def viaEepromLayoutOptionsAddr : ℕ :=
  c.viaEepromMagicAddr + 3

/-- {lit}`VIA_EEPROM_CONFIG_END` -/
def viaEepromConfigEnd : ℕ :=
  c.viaEepromLayoutOptionsAddr + c.viaEepromLayoutOptionsSize + c.viaEepromCustomConfigSize

/-- {lit}`dynamic_keymap_eeprom_size` -/
def dynamicKeymapEepromSize : ℕ :=
  c.dynamicKeymapLayerCount * c.matrixRows * c.matrixCols * 2

/-- {lit}`VIAL_ENCODERS_EEPROM_ADDR` -/
def vialEncodersEepromAddr : ℕ :=
  c.dynamicKeymapEepromAddr + c.dynamicKeymapEepromSize

/-- {lit}`dynamic_keymap_key_to_eeprom_address` -/
def dynamicKeymapKeyToEepromAddress (layer row column : ℕ) : ℕ :=
  c.dynamicKeymapEepromAddr + layer * c.matrixRows * c.matrixCols * 2 + row * c.matrixCols * 2 +
    column * 2

/-- {lit}`dynamic_keymap_encoder_to_eeprom_address` -/
def dynamicKeymapEncoderToEepromAddress (layer encoderId : ℕ) : ℕ :=
  c.vialEncodersEepromAddr + layer * c.numEncoders * 2 * 2 + encoderId * 2 * 2

/-- {lit}`VIAL_QMK_SETTINGS_EEPROM_ADDR` -/
def vialQmkSettingsEepromAddr : ℕ :=
  c.vialEncodersEepromAddr + c.numEncoders * c.dynamicKeymapLayerCount * 2 * 2

/-- {lit}`VIAL_QMK_SETTINGS_SIZE` -/
def vialQmkSettingsSize : ℕ :=
  if c.qmkSettings then 36 else 0

/-- {lit}`VIAL_TAP_DANCE_EEPROM_ADDR` -/
def vialTapDanceEepromAddr : ℕ :=
  c.vialQmkSettingsEepromAddr + c.vialQmkSettingsSize

/-- {lit}`VIAL_COMBO_EEPROM_ADDR` -/
def vialComboEepromAddr : ℕ :=
  c.vialTapDanceEepromAddr + 10 * c.vialTapDanceEntries

/-- {lit}`VIAL_KEY_OVERRIDE_EEPROM_ADDR` -/
def vialKeyOverrideEepromAddr : ℕ :=
  c.vialComboEepromAddr + 10 * c.vialComboEntries

/-- The end of the key overrides, where the macros start by default. -/
def vialKeyOverrideEepromEnd : ℕ :=
  c.vialKeyOverrideEepromAddr + 10 * c.vialKeyOverrideEntries

end Options

/-- Options that pass the layout checks: the areas stand in order, the macros have room,
and all addresses are 16-bit.  An area whose feature is off is empty.  The macros end with the
EEPROM, as they do by default; a keyboard that sets another size and ends them behind it is left
out. -/
structure Config (L : Type) extends Options L where
  keymap_le_eeconfigSize : 6 ≤ eeconfigSize
  eeconfigSize_le : eeconfigSize ≤ viaEepromMagicAddr
  configEnd_le : toOptions.viaEepromConfigEnd ≤ dynamicKeymapEepromAddr
  tapDanceEntries_eq : tapDanceEnable = false → vialTapDanceEntries = 0
  comboEntries_eq : comboEnable = false → vialComboEntries = 0
  keyOverrideEntries_eq : keyOverrideEnable = false → vialKeyOverrideEntries = 0
  keyOverrideEnd_le : toOptions.vialKeyOverrideEepromEnd ≤ dynamicKeymapMacroEepromAddr
  macroAddr_le : dynamicKeymapMacroEepromAddr + 100 ≤ dynamicKeymapEepromMaxAddr
  macroEnd_le : dynamicKeymapMacroEepromAddr + dynamicKeymapMacroEepromSize ≤
    dynamicKeymapEepromMaxAddr + 1
  maxAddr_le : dynamicKeymapEepromMaxAddr ≤ 65535
  uid_length : vialKeyboardUid.length = 8
  comboCols_length : vialUnlockComboCols.length = vialUnlockComboRows.length
  comboRows_length : vialUnlockComboRows.length < 15
  lightingSave_frame : ∀ data l eeprom,
    Memory.Frame 0 eeconfigSize eeprom (lighting.save data l eeprom).2.2

/-! ## State -/

/-- The EEPROM and the variables of the command handlers.  {lit}`stray` is the memory
behind the 32 bytes of a report: one path of {lit}`dynamic_keymap_set_buffer` reads and
writes it. -/
structure State (L : Type) where
  eeprom : Memory UInt8
  vialUnlocked : Bool
  vialUnlockInProgress : Bool
  vialUnlockCounter : Int
  vialUnlockTimer : UInt16
  /-- {lit}`QS`, as the 36 bytes of the structure -/
  qs : Memory UInt8
  /-- {lit}`keymap_config.raw` -/
  keymapConfig : UInt16
  lighting : L
  stray : Memory UInt8
  /-- {lit}`bootloader_jump` was called -/
  bootloader : Bool

/-- Apply a function to the EEPROM. -/
def State.mapEeprom {L : Type} (s : State L) (f : Memory UInt8 → Memory UInt8) : State L :=
  { s with eeprom := f s.eeprom }

/-- A keycode from its high and its low byte. -/
def keycode (high low : UInt8) : ℕ :=
  high.toNat <<< 8 ||| low.toNat

/-- {lit}`QK_BOOT` -/
def qkBoot : ℕ :=
  0x7C00

theorem keycode_eq (high low : UInt8) : keycode high low = high.toNat * 256 + low.toNat := by
  rw [keycode, ← Nat.shiftLeft_add_eq_or_of_lt low.toNat_lt, Nat.shiftLeft_eq]

theorem keycode_eq_qkBoot {high low : UInt8} :
    keycode high low = qkBoot ↔ high = 0x7C ∧ low = 0 := by
  have hhigh := high.toNat_lt
  have hlow := low.toNat_lt
  rw [keycode_eq, qkBoot, ← UInt8.toNat_inj, ← UInt8.toNat_inj]
  show _ ↔ high.toNat = 124 ∧ low.toNat = 0
  omega

/-! ## Keycode cells -/

/-- A place in the EEPROM that holds the keycode of an action: a key, a direction of an
encoder, one of the four actions of a tap dance, the output of a combo, the replacement
of a key override. -/
inductive KeycodeCell
  | keymap (layer row column : ℕ)
  | encoder (layer index : ℕ) (clockwise : Bool)
  | tapDance (index : ℕ) (action : Fin 4)
  | comboOutput (index : ℕ)
  | keyOverrideReplacement (index : ℕ)
deriving DecidableEq

namespace KeycodeCell

variable {L : Type}

/-- The keyboard has the cell. -/
def InRange (c : Config L) : KeycodeCell → Prop
  | keymap layer row column =>
    layer < c.dynamicKeymapLayerCount ∧ row < c.matrixRows ∧ column < c.matrixCols
  | encoder layer index _ => layer < c.dynamicKeymapLayerCount ∧ index < c.numEncoders
  | tapDance index _ => index < c.vialTapDanceEntries
  | comboOutput index => index < c.vialComboEntries
  | keyOverrideReplacement index => index < c.vialKeyOverrideEntries

/-- The address of the first of the two bytes of the cell. -/
def addr (c : Config L) : KeycodeCell → ℕ
  | keymap layer row column => c.dynamicKeymapKeyToEepromAddress layer row column
  | encoder layer index clockwise =>
    c.dynamicKeymapEncoderToEepromAddress layer index + (if clockwise then 0 else 2)
  | tapDance index action => c.vialTapDanceEepromAddr + index * 10 + 2 * action
  | comboOutput index => c.vialComboEepromAddr + index * 10 + 8
  | keyOverrideReplacement index => c.vialKeyOverrideEepromAddr + index * 10 + 2

/-- Keys and encoders are stored with the high byte first, the entries as structures of
a little-endian machine. -/
def bigEndian : KeycodeCell → Bool
  | keymap _ _ _ | encoder _ _ _ => true
  | tapDance _ _ | comboOutput _ | keyOverrideReplacement _ => false

/-- The keycode in the cell. -/
def value (c : Config L) (cell : KeycodeCell) (eeprom : Memory UInt8) : ℕ :=
  if cell.bigEndian then keycode (eeprom (cell.addr c)) (eeprom (cell.addr c + 1))
  else keycode (eeprom (cell.addr c + 1)) (eeprom (cell.addr c))

/-- The keycode a reset of the dynamic keymap leaves in the cell. -/
def firmwareDefault (c : Config L) : KeycodeCell → ℕ
  | keymap layer row column => (c.keymapRaw layer row column).toNat
  | encoder layer index clockwise => (c.encodermapRaw layer index clockwise).toNat
  | tapDance _ _ | comboOutput _ | keyOverrideReplacement _ => 0

end KeycodeCell

/-- A position in rows of {lit}`m` is below the end of the last row. -/
theorem mul_add_lt {i j n m : ℕ} (hi : i < n) (hj : j < m) : i * m + j < n * m := by
  have h : (i + 1) * m ≤ n * m := Nat.mul_le_mul_right m hi
  rw [Nat.succ_mul] at h
  omega

/-- A position in rows of {lit}`m` says which row and which place it is. -/
theorem mul_add_inj {i j i' j' m : ℕ} (hj : j < m) (hj' : j' < m)
    (h : i * m + j = i' * m + j') : i = i' ∧ j = j' := by
  have hrow : i = i' := by
    rcases Nat.lt_trichotomy i i' with hlt | heq | hlt
    · have hle : (i + 1) * m ≤ i' * m := Nat.mul_le_mul_right m hlt
      rw [Nat.succ_mul] at hle
      omega
    · exact heq
    · have hle : (i' + 1) * m ≤ i * m := Nat.mul_le_mul_right m hlt
      rw [Nat.succ_mul] at hle
      omega
  subst hrow
  exact ⟨rfl, by omega⟩

namespace KeycodeCell

variable {L : Type} {c : Config L}

theorem addr_keymap (c : Config L) (layer row column : ℕ) :
    (keymap layer row column).addr c = c.dynamicKeymapEepromAddr +
      2 * ((layer * c.matrixRows + row) * c.matrixCols + column) := by
  simp only [addr, Options.dynamicKeymapKeyToEepromAddress, Nat.add_mul, Nat.mul_add]
  omega

theorem addr_encoder (c : Config L) (layer index : ℕ) (clockwise : Bool) :
    (encoder layer index clockwise).addr c = c.vialEncodersEepromAddr +
      2 * (2 * (layer * c.numEncoders + index) + (if clockwise then 0 else 1)) := by
  simp only [addr, Options.dynamicKeymapEncoderToEepromAddress]
  split_ifs <;> omega

/-- Start and end of the area the cell belongs to. -/
def area (c : Config L) : KeycodeCell → ℕ × ℕ
  | keymap _ _ _ => (c.dynamicKeymapEepromAddr, c.vialEncodersEepromAddr)
  | encoder _ _ _ => (c.vialEncodersEepromAddr, c.vialQmkSettingsEepromAddr)
  | tapDance _ _ => (c.vialTapDanceEepromAddr, c.vialComboEepromAddr)
  | comboOutput _ => (c.vialComboEepromAddr, c.vialKeyOverrideEepromAddr)
  | keyOverrideReplacement _ => (c.vialKeyOverrideEepromAddr, c.vialKeyOverrideEepromEnd)

/-- The cells of a keyboard stand in their areas. -/
theorem mem_area {cell : KeycodeCell} (h : cell.InRange c) :
    (cell.area c).1 ≤ cell.addr c ∧ cell.addr c + 2 ≤ (cell.area c).2 := by
  cases cell with
  | keymap layer row column =>
    have hindex := mul_add_lt (mul_add_lt h.1 h.2.1) h.2.2
    rw [addr_keymap]
    simp only [area, Options.vialEncodersEepromAddr, Options.dynamicKeymapEepromSize]
    omega
  | encoder layer index clockwise =>
    have hindex := mul_add_lt h.1 h.2
    rw [Nat.mul_comm c.dynamicKeymapLayerCount] at hindex
    rw [addr_encoder]
    simp only [area, Options.vialQmkSettingsEepromAddr]
    split_ifs <;> omega
  | tapDance index action =>
    have hindex : index < c.vialTapDanceEntries := h
    have haction := action.isLt
    simp only [area, addr, Options.vialComboEepromAddr]
    omega
  | comboOutput index =>
    have hindex : index < c.vialComboEntries := h
    simp only [area, addr, Options.vialKeyOverrideEepromAddr]
    omega
  | keyOverrideReplacement index =>
    have hindex : index < c.vialKeyOverrideEntries := h
    simp only [area, addr, Options.vialKeyOverrideEepromEnd]
    omega

/-- The areas stand one behind the other, with the settings behind the encoders. -/
theorem areas_le (c : Config L) :
    c.eeconfigSize ≤ c.dynamicKeymapEepromAddr ∧
      c.dynamicKeymapEepromAddr ≤ c.vialEncodersEepromAddr ∧
      c.vialEncodersEepromAddr ≤ c.vialQmkSettingsEepromAddr ∧
      c.vialQmkSettingsEepromAddr ≤ c.vialTapDanceEepromAddr ∧
      c.vialTapDanceEepromAddr ≤ c.vialComboEepromAddr ∧
      c.vialComboEepromAddr ≤ c.vialKeyOverrideEepromAddr ∧
      c.vialKeyOverrideEepromAddr ≤ c.vialKeyOverrideEepromEnd := by
  have hconfig := c.configEnd_le
  have hcore := c.eeconfigSize_le
  simp only [Options.viaEepromConfigEnd, Options.viaEepromLayoutOptionsAddr] at hconfig
  refine ⟨by omega, Nat.le_add_right _ _, Nat.le_add_right _ _, Nat.le_add_right _ _,
    Nat.le_add_right _ _, Nat.le_add_right _ _, Nat.le_add_right _ _⟩

/-- The cells stand behind the VIA configuration, in front of the macros and outside of
the settings. -/
theorem bounds {cell : KeycodeCell} (h : cell.InRange c) :
    c.dynamicKeymapEepromAddr ≤ cell.addr c ∧
      cell.addr c + 2 ≤ c.dynamicKeymapMacroEepromAddr ∧
      (cell.addr c + 2 ≤ c.vialQmkSettingsEepromAddr ∨
        c.vialTapDanceEepromAddr ≤ cell.addr c) := by
  rcases areas_le c with ⟨-, hkeys, hencoders, hsettings, htaps, hcombos, hoverrides⟩
  have hmacros := c.keyOverrideEnd_le
  have harea := mem_area h
  cases cell <;> simp only [area] at harea <;> omega

/-- A cell is found by its address. -/
theorem addr_inj {x y : KeycodeCell} (hx : x.InRange c) (hy : y.InRange c)
    (h : x.addr c = y.addr c) : x = y := by
  rcases areas_le c with ⟨-, hkeys, hencoders, hsettings, htaps, hcombos, hoverrides⟩
  have hxarea := mem_area hx
  have hyarea := mem_area hy
  cases x with
  | keymap layer row column =>
    cases y with
    | keymap layer' row' column' =>
      rw [addr_keymap, addr_keymap] at h
      have hplace : layer * c.matrixRows + row = layer' * c.matrixRows + row' ∧
          column = column' := mul_add_inj hx.2.2 hy.2.2 (by omega)
      have hrow := mul_add_inj hx.2.1 hy.2.1 hplace.1
      rw [hrow.1, hrow.2, hplace.2]
    | _ => simp only [area] at hxarea hyarea; omega
  | encoder layer index clockwise =>
    cases y with
    | encoder layer' index' clockwise' =>
      rw [addr_encoder, addr_encoder] at h
      have hside : clockwise = clockwise' := by
        cases clockwise <;> cases clockwise' <;>
          simp only [if_true, Bool.false_eq_true, if_false] at h <;> first | rfl | omega
      subst hside
      have hplace : layer = layer' ∧ index = index' := mul_add_inj hx.2 hy.2 (by omega)
      rw [hplace.1, hplace.2]
    | _ => simp only [area] at hxarea hyarea; omega
  | tapDance index action =>
    cases y with
    | tapDance index' action' =>
      have haction := action.isLt
      have haction' := action'.isLt
      simp only [addr] at h
      have hindex : index = index' := by omega
      have heq : action = action' := Fin.ext (by omega)
      rw [hindex, heq]
    | _ => simp only [area] at hxarea hyarea; omega
  | comboOutput index =>
    cases y with
    | comboOutput index' =>
      simp only [addr] at h
      rw [show index = index' by omega]
    | _ => simp only [area] at hxarea hyarea; omega
  | keyOverrideReplacement index =>
    cases y with
    | keyOverrideReplacement index' =>
      simp only [addr] at h
      rw [show index = index' by omega]
    | _ => simp only [area] at hxarea hyarea; omega

/-- All cells stand at even places behind the start of the keymap. -/
theorem addr_even (c : Config L) (cell : KeycodeCell) :
    ∃ k, cell.addr c = c.dynamicKeymapEepromAddr + 2 * k := by
  have hsettings : ∃ k, c.vialQmkSettingsSize = 2 * k := by
    rw [Options.vialQmkSettingsSize]
    split_ifs
    · exact ⟨18, rfl⟩
    · exact ⟨0, rfl⟩
  rcases hsettings with ⟨k, hk⟩
  cases cell with
  | keymap layer row column => exact ⟨_, addr_keymap c layer row column⟩
  | encoder layer index clockwise =>
    rw [addr_encoder, Options.vialEncodersEepromAddr, Options.dynamicKeymapEepromSize]
    exact ⟨c.dynamicKeymapLayerCount * c.matrixRows * c.matrixCols +
      (2 * (layer * c.numEncoders + index) + (if clockwise then 0 else 1)), by omega⟩
  | tapDance index action =>
    simp only [addr, Options.vialTapDanceEepromAddr, Options.vialQmkSettingsEepromAddr,
      Options.vialEncodersEepromAddr, Options.dynamicKeymapEepromSize, hk]
    exact ⟨c.dynamicKeymapLayerCount * c.matrixRows * c.matrixCols +
      c.numEncoders * c.dynamicKeymapLayerCount * 2 + k + index * 5 + action, by omega⟩
  | comboOutput index =>
    simp only [addr, Options.vialComboEepromAddr, Options.vialTapDanceEepromAddr,
      Options.vialQmkSettingsEepromAddr, Options.vialEncodersEepromAddr,
      Options.dynamicKeymapEepromSize, hk]
    exact ⟨c.dynamicKeymapLayerCount * c.matrixRows * c.matrixCols +
      c.numEncoders * c.dynamicKeymapLayerCount * 2 + k + 5 * c.vialTapDanceEntries +
      index * 5 + 4, by omega⟩
  | keyOverrideReplacement index =>
    simp only [addr, Options.vialKeyOverrideEepromAddr, Options.vialComboEepromAddr,
      Options.vialTapDanceEepromAddr, Options.vialQmkSettingsEepromAddr,
      Options.vialEncodersEepromAddr, Options.dynamicKeymapEepromSize, hk]
    exact ⟨c.dynamicKeymapLayerCount * c.matrixRows * c.matrixCols +
      c.numEncoders * c.dynamicKeymapLayerCount * 2 + k + 5 * c.vialTapDanceEntries +
      5 * c.vialComboEntries + index * 5 + 1, by omega⟩

/-- Different cells do not overlap. -/
theorem apart {x y : KeycodeCell} (hx : x.InRange c) (hy : y.InRange c) (h : x ≠ y) :
    x.addr c + 2 ≤ y.addr c ∨ y.addr c + 2 ≤ x.addr c := by
  have hne : x.addr c ≠ y.addr c := fun heq => h (addr_inj hx hy heq)
  rcases addr_even c x with ⟨k, hk⟩
  rcases addr_even c y with ⟨k', hk'⟩
  omega

/-- The value of a cell is in its two bytes. -/
theorem value_congr {cell : KeycodeCell} {m m' : Memory UInt8}
    (h : m' (cell.addr c) = m (cell.addr c))
    (h' : m' (cell.addr c + 1) = m (cell.addr c + 1)) :
    cell.value c m' = cell.value c m := by
  rw [value, value, h, h']

/-- A write elsewhere leaves a cell alone. -/
theorem value_of_frame {cell : KeycodeCell} {m m' : Memory UInt8} {a b : ℕ}
    (h : Memory.Frame a b m m') (hout : cell.addr c + 2 ≤ a ∨ b ≤ cell.addr c) :
    cell.value c m' = cell.value c m :=
  value_congr (h _ (by omega)) (h _ (by omega))

end KeycodeCell

end Vial
end VialQmk
