import VialQmk.Vial.Effects

/-!
# Vial - the bootloader keycode

A locked keyboard keeps {lit}`QK_BOOT` out of its keycode cells: encoders, entries and
the keymap buffer pass through a check.  The command that sets one key does not.

Main results:

- Definition {lit}`NoNewBoot`: a report puts {lit}`QK_BOOT` in no cell, except for the
  cells a reset restores to it.
- Theorem {lit}`step_noNewBoot`: of a locked keyboard, a report does this unless it sets
  a key to {lit}`QK_BOOT`.
- Theorem {lit}`run_noNewBoot`: the same along every run that stays locked.
-/

namespace VialQmk
namespace Vial

variable {L : Type} {c : Config L}

/-- The keyboard is locked when the report arrives. -/
def Locked (s : State L) (_ : Input) : Prop :=
  s.vialUnlocked = false

/-- The report is a command that resets the dynamic keymap. -/
def ResetsKeymap (c : Config L) (s : State L) (i : Input) : Prop :=
  ¬ Blocked s i ∧ (ViaCommandId.ofByte (i.report 0) = some .dynamicKeymapReset ∨
    ViaCommandId.ofByte (i.report 0) = some .eepromReset ∧ c.viaEepromAllowReset = true)

/-- The report puts {lit}`QK_BOOT` in no cell that did not hold it, except for cells a
reset restores to their firmware default. -/
def NoNewBoot (c : Config L) (s : State L) (i : Input) : Prop :=
  ∀ cell : KeycodeCell, cell.InRange c → cell.value c (step c s i).eeprom = qkBoot →
    cell.value c s.eeprom = qkBoot ∨ ResetsKeymap c s i ∧ cell.firmwareDefault c = qkBoot

/-- The key a report names in its first arguments. -/
def keyOf (i : Input) : KeycodeCell :=
  .keymap (i.report 1).toNat (i.report 2).toNat (i.report 3).toNat

/-- The report is {lit}`id_dynamic_keymap_set_keycode`, for a key of the keyboard that
does not hold {lit}`QK_BOOT` yet, with this keycode. -/
def SetsKeyToBoot (c : Config L) (s : State L) (i : Input) : Prop :=
  ¬ Blocked s i ∧ ViaCommandId.ofByte (i.report 0) = some .dynamicKeymapSetKeycode ∧
    (keyOf i).InRange c ∧ keycode (i.report 4) (i.report 5) = qkBoot ∧
    (keyOf i).value c s.eeprom ≠ qkBoot

/-! ## Cells outside of a write -/

theorem value_config {cell : KeycodeCell} (hcell : cell.InRange c) {m m' : Memory UInt8}
    (h : Memory.Frame 0 c.dynamicKeymapEepromAddr m m') : cell.value c m' = cell.value c m :=
  KeycodeCell.value_of_frame h (Or.inr (KeycodeCell.bounds hcell).1)

theorem value_setValid {cell : KeycodeCell} (hcell : cell.InRange c) (valid : Bool)
    (m : Memory UInt8) : cell.value c (viaEepromSetValid c valid m) = cell.value c m :=
  value_config hcell ((frame_setValid c valid m).mono (Nat.zero_le _) c.configEnd_le)

theorem value_setLayoutOptions {cell : KeycodeCell} (hcell : cell.InRange c) (value : ℕ)
    (m : Memory UInt8) : cell.value c (viaSetLayoutOptions c value m) = cell.value c m :=
  value_config hcell (setLayoutOptions_frame value m)

theorem value_settings {cell : KeycodeCell} (hcell : cell.InRange c) {m m' : Memory UInt8}
    (h : SettingsFrame c m m') : cell.value c m' = cell.value c m := by
  have hcore := (KeycodeCell.areas_le c).1
  rcases KeycodeCell.bounds hcell with ⟨hlow, -, hsettings⟩
  apply KeycodeCell.value_congr
  · exact h _ (by omega) (by omega)
  · exact h _ (by omega) (by omega)

theorem value_macros {cell : KeycodeCell} (hcell : cell.InRange c) {m m' : Memory UInt8} {e : ℕ}
    (h : Memory.Frame c.dynamicKeymapMacroEepromAddr e m m') :
    cell.value c m' = cell.value c m :=
  KeycodeCell.value_of_frame h (Or.inl (KeycodeCell.bounds hcell).2.1)

/-! ## The writes behind the check -/

/-- The check of the keymap buffer. -/
theorem boot_of_setBuffer {cell : KeycodeCell} (hcell : cell.InRange c) (offset size p : ℕ)
    (data m : Memory UInt8)
    (h : cell.value c (dynamicKeymapSetBuffer c false offset size p data m).2 = qkBoot) :
    cell.value c m = qkBoot := by
  by_cases hbig : cell.bigEndian = true
  · rcases KeycodeCell.addr_even c cell with ⟨k, hk⟩
    rw [KeycodeCell.value, if_pos hbig, hk] at h ⊢
    exact setBuffer_locked c offset size p data m k h
  · -- the entries stand behind the keymap
    have hbehind : c.vialEncodersEepromAddr ≤ cell.addr c := by
      rcases KeycodeCell.areas_le c with ⟨-, -, hencoders, hsettings, htaps, hcombos, -⟩
      have harea := KeycodeCell.mem_area hcell
      cases cell with
      | keymap _ _ _ | encoder _ _ _ => exact absurd rfl hbig
      | tapDance _ _ | comboOutput _ | keyOverrideReplacement _ =>
        simp only [KeycodeCell.area] at harea
        omega
    rwa [KeycodeCell.value_of_frame (frame_setBuffer c _ _ _ _ _ _) (Or.inr hbehind)] at h

/-- An entry command leaves cells outside of its area alone. -/
theorem entrySet_frame (start entries : ℕ) (fields : List ℕ) (msg : Memory UInt8) (s : State L) :
    Memory.Frame start (start + 10 * entries) s.eeprom
      (entrySet (setEntry start entries) fields msg s).2.eeprom :=
  frame_setEntry start entries _ s.eeprom (Memory.load_length _ _ _)

theorem boot_of_setTapDance {cell : KeycodeCell} (hcell : cell.InRange c) {s : State L}
    (hlocked : s.vialUnlocked = false) (msg : Memory UInt8)
    (h : cell.value c (entrySet (dynamicKeymapSetTapDance c) [0, 2, 4, 6] msg s).2.eeprom =
      qkBoot) : cell.value c s.eeprom = qkBoot := by
  cases cell with
  | tapDance index action =>
    have haction := action.isLt
    have hfield : 2 * (action : ℕ) ∈ [0, 2, 4, 6] := by
      simp only [List.mem_cons, List.not_mem_nil, or_false]
      omega
    exact entrySet_locked _ _ (by decide) msg hlocked index hfield h
  | keymap _ _ _ | encoder _ _ _ | comboOutput _ | keyOverrideReplacement _ =>
    rcases KeycodeCell.areas_le c with ⟨-, hkeys, hencoders, hsettings, htaps, hcombos, -⟩
    have harea := KeycodeCell.mem_area hcell
    simp only [KeycodeCell.area] at harea
    have hframe : Memory.Frame c.vialTapDanceEepromAddr c.vialComboEepromAddr s.eeprom
        (entrySet (dynamicKeymapSetTapDance c) [0, 2, 4, 6] msg s).2.eeprom :=
      entrySet_frame _ _ _ msg s
    rwa [KeycodeCell.value_of_frame hframe (by omega)] at h

theorem boot_of_setCombo {cell : KeycodeCell} (hcell : cell.InRange c) {s : State L}
    (hlocked : s.vialUnlocked = false) (msg : Memory UInt8)
    (h : cell.value c (entrySet (dynamicKeymapSetCombo c) [8] msg s).2.eeprom = qkBoot) :
    cell.value c s.eeprom = qkBoot := by
  cases cell with
  | comboOutput index =>
    exact entrySet_locked _ _ (by decide) msg hlocked index List.mem_cons_self h
  | keymap _ _ _ | encoder _ _ _ | tapDance _ _ | keyOverrideReplacement _ =>
    rcases KeycodeCell.areas_le c with ⟨-, hkeys, hencoders, hsettings, htaps, hcombos, -⟩
    have harea := KeycodeCell.mem_area hcell
    simp only [KeycodeCell.area] at harea
    have hframe : Memory.Frame c.vialComboEepromAddr c.vialKeyOverrideEepromAddr s.eeprom
        (entrySet (dynamicKeymapSetCombo c) [8] msg s).2.eeprom := entrySet_frame _ _ _ msg s
    rwa [KeycodeCell.value_of_frame hframe (by omega)] at h

theorem boot_of_setKeyOverride {cell : KeycodeCell} (hcell : cell.InRange c) {s : State L}
    (hlocked : s.vialUnlocked = false) (msg : Memory UInt8)
    (h : cell.value c (entrySet (dynamicKeymapSetKeyOverride c) [2] msg s).2.eeprom = qkBoot) :
    cell.value c s.eeprom = qkBoot := by
  cases cell with
  | keyOverrideReplacement index =>
    exact entrySet_locked _ _ (by decide) msg hlocked index List.mem_cons_self h
  | keymap _ _ _ | encoder _ _ _ | tapDance _ _ | comboOutput _ =>
    rcases KeycodeCell.areas_le c with ⟨-, hkeys, hencoders, hsettings, htaps, hcombos, -⟩
    have harea := KeycodeCell.mem_area hcell
    simp only [KeycodeCell.area] at harea
    have hframe : Memory.Frame c.vialKeyOverrideEepromAddr c.vialKeyOverrideEepromEnd s.eeprom
        (entrySet (dynamicKeymapSetKeyOverride c) [2] msg s).2.eeprom := entrySet_frame _ _ _ msg s
    rwa [KeycodeCell.value_of_frame hframe (by omega)] at h

/-- A reset of the EEPROM restores the cells like a reset of the keymap. -/
theorem value_eeconfigInitVia {cell : KeycodeCell} (hcell : cell.InRange c) (s : State L) :
    cell.value c (eeconfigInitVia c s).eeprom = cell.firmwareDefault c ∨
      cell.value c (eeconfigInitVia c s).eeprom = cell.value c s.eeprom := by
  set s' := (s.mapEeprom (viaEepromSetValid c false)).mapEeprom
    (viaSetLayoutOptions c c.viaEepromLayoutOptionsDefault) with hs'
  have hbefore : cell.value c s'.eeprom = cell.value c s.eeprom := by
    simp only [hs', State.mapEeprom]
    rw [value_setLayoutOptions hcell, value_setValid hcell]
  have hafter : cell.value c (eeconfigInitVia c s).eeprom =
      cell.value c (dynamicKeymapReset c s').eeprom := by
    simp only [eeconfigInitVia, State.mapEeprom, dynamicKeymapMacroReset]
    rw [value_setValid hcell, value_macros hcell (Memory.frame_fill _ _ _ _)]
    rfl
  rw [hafter, ← hbefore]
  exact value_reset hcell s'

/-! ## Reports -/

@[simp]
theorem buffer_report (s : State L) (report : Fin 32 → UInt8) {k : ℕ} (h : k < 32) :
    buffer s report k = report ⟨k, h⟩ :=
  dif_pos h

/-- How {lit}`QK_BOOT` can come to stand in a cell of a locked keyboard. -/
theorem boot_of_effect {s : State L} {i : Input} (hlocked : Locked s i)
    (hopen : ¬ Blocked s i) {m : Memory UInt8} (heffect : Effect c s (buffer s i.report) m)
    {cell : KeycodeCell} (hcell : cell.InRange c) (h : cell.value c m = qkBoot) :
    cell.value c s.eeprom = qkBoot ∨ (ResetsKeymap c s i ∧ cell.firmwareDefault c = qkBoot) ∨
      SetsKeyToBoot c s i := by
  cases heffect with
  | same => exact Or.inl h
  | config hframe => exact Or.inl (value_config hcell hframe ▸ h)
  | settings hframe => exact Or.inl (value_settings hcell hframe ▸ h)
  | keycode hid =>
    have hvalue := value_setKeycode hcell (i.report 1).toNat (i.report 2).toNat (i.report 3).toNat
      s.eeprom (keycode_lt (i.report 4) (i.report 5))
    by_cases hbefore : cell.value c s.eeprom = qkBoot
    · exact Or.inl hbefore
    by_cases hown : cell = keyOf i
    · have hboot := (hvalue.trans (if_pos hown)).symm.trans h
      subst hown
      exact Or.inr (Or.inr ⟨hopen, hid, hcell, hboot, hbefore⟩)
    · exact absurd ((hvalue.trans (if_neg hown)).symm.trans h) hbefore
  | encoder =>
    simp only [vialSetEncoder, State.mapEeprom, show s.vialUnlocked = false from hlocked] at h
    rw [value_setEncoder hcell _ _ _ _ (firewall_lt _ (keycode_lt _ _))] at h
    split_ifs at h
    · exact absurd h (firewall_locked _)
    · exact Or.inl h
  | buffer offset size p =>
    rw [show s.vialUnlocked = false from hlocked] at h
    exact Or.inl (boot_of_setBuffer hcell offset size p _ _ h)
  | tapDance => exact Or.inl (boot_of_setTapDance hcell hlocked _ h)
  | combo => exact Or.inl (boot_of_setCombo hcell hlocked _ h)
  | keyOverride => exact Or.inl (boot_of_setKeyOverride hcell hlocked _ h)
  | macros hunlocked => exact absurd (hlocked.symm.trans hunlocked) Bool.false_ne_true
  | reset hid =>
    rcases value_reset hcell s with hdefault | hsame
    · exact Or.inr (Or.inl ⟨⟨hopen, Or.inl hid⟩, hdefault ▸ h⟩)
    · exact Or.inl (hsame ▸ h)
  | eepromReset hid hallow =>
    rcases value_eeconfigInitVia hcell (s.mapEeprom (viaEepromSetValid c false)) with
      hdefault | hsame
    · exact Or.inr (Or.inl ⟨⟨hopen, Or.inr ⟨hid, hallow⟩⟩, hdefault ▸ h⟩)
    · rw [hsame, State.mapEeprom, value_setValid hcell] at h
      exact Or.inl h
  | macroReset hid =>
    exact Or.inl (value_macros hcell (Memory.frame_fill _ _ _ _) ▸ h)

/-- The command that sets a key does not look at the keycode. -/
theorem value_setsKeyToBoot {s : State L} {i : Input} (h : SetsKeyToBoot c s i) :
    (keyOf i).value c (step c s i).eeprom = qkBoot := by
  rcases h with ⟨hopen, hid, hcell, hboot, -⟩
  rw [step_eeprom, receive_open hopen, rawHidCommand]
  rw [show ViaCommandId.ofByte (buffer s i.report 0) = some .dynamicKeymapSetKeycode from hid]
  exact (value_setKeycode_same _ hcell (keycode_lt _ _)).trans hboot

/-- A report to a locked keyboard puts {lit}`QK_BOOT` in no new cell, unless it sets a
key to it. -/
theorem step_noNewBoot {s : State L} {i : Input} (hlocked : Locked s i) :
    NoNewBoot c s i ↔ ¬ SetsKeyToBoot c s i := by
  constructor
  · intro h hset
    rcases h (keyOf i) hset.2.2.1 (value_setsKeyToBoot hset) with hbefore | ⟨hreset, -⟩
    · exact hset.2.2.2.2 hbefore
    · have hid := hset.2.1
      rcases hreset.2 with hid' | ⟨hid', -⟩
      · exact absurd (hid.symm.trans hid') (by decide)
      · exact absurd (hid.symm.trans hid') (by decide)
  · intro h cell hcell hboot
    rcases step_effect (c := c) s i with ⟨-, hsame⟩ | ⟨hopen, heffect⟩
    · exact Or.inl (hsame ▸ hboot)
    · rcases boot_of_effect hlocked hopen heffect hcell hboot with hbefore | hreset | hset
      · exact Or.inl hbefore
      · exact Or.inr hreset
      · exact absurd hset h

/-- Along every run that stays locked, the reports that set a key to {lit}`QK_BOOT` are the
only ones that put it in a new cell. -/
theorem run_noNewBoot {s : State L} {is : List Input}
    (hlocked : StateMachine.Along (step c) Locked s is) :
    StateMachine.Along (step c) (NoNewBoot c) s is ↔
      StateMachine.Along (step c) (fun s i => ¬ SetsKeyToBoot c s i) s is :=
  StateMachine.along_congr (fun _ _ h => step_noNewBoot h) hlocked

/-- A key of the small keyboard set to another keycode. -/
theorem run_noNewBoot_smallKeyboard :
    StateMachine.Along (step smallKeyboard) (NoNewBoot smallKeyboard) smallState
      [inputOf [0x05, 0, 0, 0, 0, 0x05]] := by
  have hlocked : StateMachine.Along (step smallKeyboard) Locked smallState
      [inputOf [0x05, 0, 0, 0, 0, 0x05]] := ⟨rfl, trivial⟩
  apply (run_noNewBoot hlocked).mpr
  constructor
  · intro h
    exact absurd h.2.2.2.1 (by decide)
  · trivial

/-- The only key of the small keyboard set to {lit}`QK_BOOT`, while it is locked. -/
theorem newBoot_setKeycode :
    StateMachine.Along (step smallKeyboard) Locked smallState
        [inputOf [0x05, 0, 0, 0, 0x7C, 0x00]] ∧
      ¬ StateMachine.Along (step smallKeyboard) (NoNewBoot smallKeyboard) smallState
        [inputOf [0x05, 0, 0, 0, 0x7C, 0x00]] := by
  constructor
  · exact ⟨rfl, trivial⟩
  · intro h
    have hcell : (KeycodeCell.keymap 0 0 0).InRange smallKeyboard :=
      ⟨by decide, by decide, by decide⟩
    rcases h.1 _ hcell (by decide) with hbefore | ⟨-, hdefault⟩
    · exact absurd hbefore (by decide)
    · exact absurd hdefault (by decide)

end Vial
end VialQmk
