import VialQmk.Vial.KeycodeWrites

/-!
# Vial - what a report does to the EEPROM

One inversion for the whole dispatcher: whatever a report contains, the EEPROM after it
is one of a dozen functions of the EEPROM before it.  What holds of the EEPROM along a
run is proved from this list.

Main results:

- Definition {lit}`Effect`: the possible EEPROM contents after a command.
- Theorem {lit}`rawHidCommand_effect`: every command has one of the effects.
- Theorem {lit}`step_effect`: a report has one of the effects, or none while an unlock is
  in progress.
-/

namespace VialQmk
namespace Vial

variable {L : Type} {c : Config L}

/-- The EEPROM a command can leave. -/
inductive Effect (c : Config L) (s : State L) (data : Memory UInt8) : Memory UInt8 → Prop
  | same : Effect c s data s.eeprom
  | config {m : Memory UInt8} (h : Memory.Frame 0 c.dynamicKeymapEepromAddr s.eeprom m) :
    Effect c s data m
  | settings {m : Memory UInt8} (h : SettingsFrame c s.eeprom m) : Effect c s data m
  | keycode (hid : ViaCommandId.ofByte (data 0) = some .dynamicKeymapSetKeycode) :
    Effect c s data (dynamicKeymapSetKeycode c (data 1).toNat (data 2).toNat (data 3).toNat
      (keycode (data 4) (data 5)) s.eeprom)
  | encoder : Effect c s data (vialSetEncoder c data s).eeprom
  | buffer (offset size p : ℕ) :
    Effect c s data (dynamicKeymapSetBuffer c s.vialUnlocked offset size p data s.eeprom).2
  | tapDance :
    Effect c s data (entrySet (dynamicKeymapSetTapDance c) [0, 2, 4, 6] data s).2.eeprom
  | combo : Effect c s data (entrySet (dynamicKeymapSetCombo c) [8] data s).2.eeprom
  | keyOverride : Effect c s data (entrySet (dynamicKeymapSetKeyOverride c) [2] data s).2.eeprom
  | macros (hunlocked : s.vialUnlocked = true) (offset size p : ℕ) :
    Effect c s data (dynamicKeymapMacroSetBuffer c offset size p data s.eeprom)
  | reset (hid : ViaCommandId.ofByte (data 0) = some .dynamicKeymapReset) :
    Effect c s data (dynamicKeymapReset c s).eeprom
  | eepromReset (hid : ViaCommandId.ofByte (data 0) = some .eepromReset)
    (hallow : c.viaEepromAllowReset = true) :
    Effect c s data (eeconfigInitVia c (s.mapEeprom (viaEepromSetValid c false))).eeprom
  | macroReset (hid : ViaCommandId.ofByte (data 0) = some .dynamicKeymapMacroReset) :
    Effect c s data (dynamicKeymapMacroReset c s.eeprom)

/-! ## Vial commands -/

/-- A poll changes the unlock variables only. -/
@[simp]
theorem vialUnlockPoll_eeprom (r : Readings) (s : State L) :
    (vialUnlockPoll c r s).eeprom = s.eeprom := by
  simp only [vialUnlockPoll]
  split_ifs <;> rfl

theorem dynamicEntryOp_effect (data : Memory UInt8) (s : State L) :
    Effect c s data (dynamicEntryOp c data s).2.eeprom := by
  simp only [dynamicEntryOp]
  cases DynamicVialOp.ofByte (data 2) with
  | none => exact .same
  | some op =>
    cases op with
    | getNumberOfEntries | tapDanceGet | comboGet | keyOverrideGet => exact .same
    | tapDanceSet =>
      dsimp only
      split_ifs
      · exact .tapDance
      · exact .same
    | comboSet =>
      dsimp only
      split_ifs
      · exact .combo
      · exact .same
    | keyOverrideSet =>
      dsimp only
      split_ifs
      · exact .keyOverride
      · exact .same

theorem vialHandleCmd_effect (r : Readings) (data : Memory UInt8) (s : State L) :
    Effect c s data (vialHandleCmd c r data s).2.eeprom := by
  simp only [vialHandleCmd]
  cases VialCommandId.ofByte (data 1) with
  | none => exact .same
  | some id =>
    cases id with
    | getKeyboardId | getSize | getDef | getEncoder | getUnlockStatus | unlockStart | lock
    | qmkSettingsQuery => exact .same
    | setEncoder =>
      dsimp only
      split_ifs
      · exact .encoder
      · exact .same
    | unlockPoll =>
      dsimp only
      rw [vialUnlockPoll_eeprom]
      exact .same
    | qmkSettingsGet =>
      dsimp only
      split_ifs <;> exact .same
    | qmkSettingsSet =>
      dsimp only
      split_ifs
      · exact .settings (qmkSettingsSet_frame c _ _ _ _ s)
      · exact .same
    | qmkSettingsReset =>
      dsimp only
      split_ifs
      · exact .settings (qmkSettingsReset_frame c s)
      · exact .same
    | dynamicEntryOp => exact dynamicEntryOp_effect data s

/-! ## VIA commands -/

/-- Layout options stand in front of the keymap. -/
theorem setLayoutOptions_frame (value : ℕ) (m : Memory UInt8) :
    Memory.Frame 0 c.dynamicKeymapEepromAddr m (viaSetLayoutOptions c value m) :=
  (frame_setLayoutOptions c value m).mono (Nat.zero_le _) c.configEnd_le

theorem setKeyboardValue_effect (data : Memory UInt8) (s : State L) :
    Effect c s data (setKeyboardValue c data s).2.eeprom := by
  simp only [setKeyboardValue]
  split_ifs
  · exact .config (setLayoutOptions_frame _ _)
  · exact .same

/-- Every command has one of the effects. -/
theorem rawHidCommand_effect (r : Readings) (data : Memory UInt8) (s : State L) :
    Effect c s data (rawHidCommand c r data s).2.eeprom := by
  simp only [rawHidCommand]
  cases hid : ViaCommandId.ofByte (data 0) with
  | none => exact .same
  | some id =>
    cases id with
    | getProtocolVersion | getKeyboardValue | dynamicKeymapGetKeycode | lightingSetValue
    | lightingGetValue | dynamicKeymapMacroGetCount | dynamicKeymapMacroGetBufferSize
    | dynamicKeymapMacroGetBuffer | dynamicKeymapGetLayerCount | dynamicKeymapGetBuffer =>
      exact .same
    | setKeyboardValue => exact setKeyboardValue_effect data s
    | dynamicKeymapSetKeycode => exact .keycode hid
    | dynamicKeymapReset => exact .reset hid
    | lightingSave =>
      have hcore := (KeycodeCell.areas_le c).1
      exact .config ((c.lightingSave_frame _ _ _).mono (Nat.le_refl _) hcore)
    | eepromReset =>
      dsimp only
      split_ifs with hallow
      · exact .eepromReset hid hallow
      · exact .same
    | bootloaderJump =>
      dsimp only
      split_ifs <;> exact .same
    | dynamicKeymapMacroSetBuffer =>
      dsimp only
      split_ifs with hopen
      · exact .macros hopen.1 _ _ _
      · exact .same
    | dynamicKeymapMacroReset => exact .macroReset hid
    | dynamicKeymapSetBuffer =>
      dsimp only
      split_ifs
      · exact .buffer _ _ _
      · exact .same
    | vialPrefix => exact vialHandleCmd_effect r data s

/-! ## Reports -/

/-- The gate of an unlock in progress holds the report back. -/
def Blocked (s : State L) (i : Input) : Prop :=
  s.vialUnlockInProgress = true ∧ passesGate (buffer s i.report) = false

/-- A report that is held back changes nothing and comes back as it is. -/
theorem receive_blocked {s : State L} {i : Input} (h : Blocked s i) :
    receive c s i = (buffer s i.report, s) :=
  if_pos h

theorem receive_open {s : State L} {i : Input} (h : ¬ Blocked s i) :
    receive c s i = rawHidCommand c i.readings (buffer s i.report) s :=
  if_neg h

@[simp]
theorem step_eeprom (s : State L) (i : Input) : (step c s i).eeprom = (receive c s i).2.eeprom :=
  rfl

/-- A report has one of the effects, or none while an unlock is in progress. -/
theorem step_effect (s : State L) (i : Input) :
    Blocked s i ∧ (step c s i).eeprom = s.eeprom ∨
      ¬ Blocked s i ∧ Effect c s (buffer s i.report) (step c s i).eeprom := by
  by_cases h : Blocked s i
  · left
    rw [step_eeprom, receive_blocked h]
    exact ⟨h, rfl⟩
  · right
    rw [step_eeprom, receive_open h]
    exact ⟨h, rawHidCommand_effect _ _ _⟩

end Vial
end VialQmk
