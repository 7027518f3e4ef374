import VialQmk.Vial.DynamicKeymap

/-!
# Vial - QMK settings

The settings of {lit}`qmk_settings.c`: a structure of 36 bytes in memory, mirrored in
the EEPROM, and a table of the settings the host may name.  The last setting of the
table stands for the flags of {lit}`keymap_config`, which live in the core
configuration.  The callbacks that copy settings into the auto shift and mouse key code
come with the settings store: no handler reads what they write.

Main results:

- Definitions {lit}`qmkSettingsQuery`, {lit}`qmkSettingsGet`, {lit}`qmkSettingsSet` and
  {lit}`qmkSettingsReset`: the four operations.
- Theorems {lit}`qmkSettingsSet_frame` and {lit}`qmkSettingsReset_frame`: they write the
  settings area and the core configuration.
-/

namespace VialQmk
namespace Vial

variable {L : Type}

/-! ## The settings structure -/

/-- The fields of {lit}`qmk_settings_t` in use. -/
inductive QsField
  | autoShiftTimeout | oskTimeout
  | mousekeyDelay | mousekeyInterval | mousekeyMoveDelta | mousekeyMaxSpeed | mousekeyTimeToMax
  | mousekeyWheelDelay | mousekeyWheelInterval | mousekeyWheelMaxSpeed | mousekeyWheelTimeToMax
  | comboTerm | tappingTerm
  | graveEscOverride | autoShift | oskTapToggle | tapping
  | tapCodeDelay | tapHoldCapsDelay | tappingToggle

namespace QsField

/-- {lit}`offsetof` the field in {lit}`qmk_settings_t` -/
def offset : QsField → ℕ
  | autoShiftTimeout => 0
  | oskTimeout => 2
  | mousekeyDelay => 4
  | mousekeyInterval => 6
  | mousekeyMoveDelta => 8
  | mousekeyMaxSpeed => 10
  | mousekeyTimeToMax => 12
  | mousekeyWheelDelay => 14
  | mousekeyWheelInterval => 16
  | mousekeyWheelMaxSpeed => 18
  | mousekeyWheelTimeToMax => 20
  | comboTerm => 22
  | tappingTerm => 24
  | graveEscOverride => 26
  | autoShift => 27
  | oskTapToggle => 28
  | tapping => 29
  | tapCodeDelay => 30
  | tapHoldCapsDelay => 32
  | tappingToggle => 34

/-- {lit}`sizeof` the field -/
def size : QsField → ℕ
  | graveEscOverride | autoShift | oskTapToggle | tapping | tappingToggle => 1
  | _ => 2

/-- {lit}`QS.field = value` -/
def set (field : QsField) (value : ℕ) (qs : Memory UInt8) : Memory UInt8 :=
  qs.store field.offset
    (if field.size = 1 then [UInt8.ofNat value]
    else [UInt8.ofNat value, UInt8.ofNat (value >>> 8)])

end QsField

/-- An entry of the table {lit}`protos`: a field, or the flags of {lit}`keymap_config`. -/
structure Proto where
  qsid : ℕ
  field : Option QsField

/-- {lit}`protos` -/
def protos (c : Config L) : List Proto :=
  [⟨1, some .graveEscOverride⟩, ⟨2, some .comboTerm⟩, ⟨3, some .autoShift⟩,
    ⟨4, some .autoShiftTimeout⟩, ⟨5, some .oskTapToggle⟩, ⟨6, some .oskTimeout⟩,
    ⟨7, some .tappingTerm⟩, ⟨8, some .tapping⟩] ++
  (if c.mousekeyEnable then
    [⟨9, some .mousekeyDelay⟩, ⟨10, some .mousekeyInterval⟩, ⟨11, some .mousekeyMoveDelta⟩,
      ⟨12, some .mousekeyMaxSpeed⟩, ⟨13, some .mousekeyTimeToMax⟩, ⟨14, some .mousekeyWheelDelay⟩,
      ⟨15, some .mousekeyWheelInterval⟩, ⟨16, some .mousekeyWheelMaxSpeed⟩,
      ⟨17, some .mousekeyWheelTimeToMax⟩]
  else []) ++
  [⟨18, some .tapCodeDelay⟩, ⟨19, some .tapHoldCapsDelay⟩, ⟨20, some .tappingToggle⟩, ⟨21, none⟩]

/-! ## EEPROM mirror -/

/-- {lit}`eeprom_settings_load` -/
def eepromSettingsLoad (c : Config L) (eeprom qs : Memory UInt8) : Memory UInt8 :=
  qs.store 0 ((List.range 36).map fun i => dynamicKeymapGetQmkSettings c i eeprom)

/-- {lit}`eeprom_settings_save` -/
def eepromSettingsSave (c : Config L) (qs eeprom : Memory UInt8) : Memory UInt8 :=
  (List.range 36).foldl (fun eeprom i =>
    if dynamicKeymapGetQmkSettings c i eeprom ≠ qs i then
      dynamicKeymapSetQmkSettings c i (qs i) eeprom
    else eeprom) eeprom

/-- {lit}`eeconfig_update_keymap` -/
def eeconfigUpdateKeymap (value : UInt16) (eeprom : Memory UInt8) : Memory UInt8 :=
  eeprom.store 4 [UInt8.ofNat value.toNat, UInt8.ofNat (value.toNat >>> 8)]

/-! ## Operations -/

/-- {lit}`eeprom_settings_get` and {lit}`magic_settings_get`, to {lit}`data` at
{lit}`p`. -/
def Proto.get (proto : Proto) (maxsz p : ℕ) (data : Memory UInt8) (s : State L) :
    Int × Memory UInt8 :=
  match proto.field with
  | some field =>
    if maxsz < field.size then (-1, data) else (0, data.store p (s.qs.load field.offset field.size))
  | none =>
    if maxsz < 4 then (-1, data)
    else
      let flags := s.keymapConfig.toNat &&& 0x3FF
      (0, data.store p [UInt8.ofNat flags, UInt8.ofNat (flags >>> 8), 0, 0])

/-- {lit}`eeprom_settings_set` and {lit}`magic_settings_set`, from {lit}`data` at
{lit}`p`. -/
def Proto.set (c : Config L) (proto : Proto) (maxsz p : ℕ) (data : Memory UInt8) (s : State L) :
    Int × State L :=
  match proto.field with
  | some field =>
    if maxsz < field.size then (-1, s)
    else
      let qs := s.qs.store field.offset (data.load p field.size)
      (0, { s with qs := qs, eeprom := eepromSettingsSave c qs s.eeprom })
  | none =>
    if maxsz < 4 then (-1, s)
    else
      let flags := UInt16.ofNat ((data p).toNat + (data (p + 1)).toNat * 256)
      let raw := (s.keymapConfig &&& 0xFC00) ||| (flags &&& 0x3FF)
      (0, { s with keymapConfig := raw, eeprom := eeconfigUpdateKeymap raw s.eeprom })

/-- {lit}`find_setting` -/
def findSetting (c : Config L) (qsid : ℕ) : Option Proto :=
  (protos c).find? fun proto => proto.qsid = qsid

/-- {lit}`qmk_settings_get` -/
def qmkSettingsGet (c : Config L) (qsid maxsz p : ℕ) (data : Memory UInt8) (s : State L) :
    Int × Memory UInt8 :=
  match findSetting c qsid with
  | none => (-1, data)
  | some proto => proto.get maxsz p data s

/-- {lit}`qmk_settings_set` -/
def qmkSettingsSet (c : Config L) (qsid maxsz p : ℕ) (data : Memory UInt8) (s : State L) :
    Int × State L :=
  match findSetting c qsid with
  | none => (-1, s)
  | some proto => proto.set c maxsz p data s

/-- {lit}`qmk_settings_query`: the numbers of the settings behind {lit}`qsidGt`, as many
as the buffer has room for. -/
def qmkSettingsQuery (c : Config L) (qsidGt sz : ℕ) (buffer : Memory UInt8) : Memory UInt8 :=
  let qsids := (protos c).map Proto.qsid |>.filter (qsidGt < ·) |>.take (sz / 2)
  (buffer.fill 0 sz 0xFF).store 0
    (qsids.flatMap fun qsid => [UInt8.ofNat qsid, UInt8.ofNat (qsid >>> 8)])

/-- The assignments of {lit}`qmk_settings_reset`. -/
def defaultSettings (c : Config L) (qs : Memory UInt8) : Memory UInt8 :=
  let d := c.settingsDefaults
  let qs := QsField.graveEscOverride.set 0 qs
  let qs := QsField.autoShift.set 0 qs
  let qs := QsField.autoShiftTimeout.set d.autoShiftTimeout qs
  let qs := QsField.oskTapToggle.set d.oneshotTapToggle qs
  let qs := QsField.oskTimeout.set d.oneshotTimeout qs
  let qs :=
    if c.mousekeyEnable then
      let qs := QsField.mousekeyDelay.set d.mousekeyDelay qs
      let qs := QsField.mousekeyInterval.set d.mousekeyInterval qs
      let qs := QsField.mousekeyMoveDelta.set d.mousekeyMoveDelta qs
      let qs := QsField.mousekeyMaxSpeed.set d.mousekeyMaxSpeed qs
      let qs := QsField.mousekeyTimeToMax.set d.mousekeyTimeToMax qs
      let qs := QsField.mousekeyWheelDelay.set d.mousekeyWheelDelay qs
      let qs := QsField.mousekeyWheelInterval.set d.mousekeyWheelInterval qs
      let qs := QsField.mousekeyWheelMaxSpeed.set d.mousekeyWheelMaxSpeed qs
      QsField.mousekeyWheelTimeToMax.set d.mousekeyWheelTimeToMax qs
    else qs
  let qs := QsField.comboTerm.set d.comboTerm qs
  let qs := QsField.tappingTerm.set d.tappingTerm qs
  let qs := QsField.tapping.set 0 qs
  let qs := QsField.tapCodeDelay.set d.tapCodeDelay qs
  let qs := QsField.tapHoldCapsDelay.set d.tapHoldCapsDelay qs
  QsField.tappingToggle.set d.tappingToggle qs

/-- {lit}`qmk_settings_reset`.  Bit 10 of {lit}`keymap_config` is
{lit}`oneshot_enable`. -/
def qmkSettingsReset (c : Config L) (s : State L) : State L :=
  let qs := defaultSettings c s.qs
  let eeprom := eeconfigUpdateKeymap 0x400 (eepromSettingsSave c qs s.eeprom)
  { s with qs := eepromSettingsLoad c eeprom qs, keymapConfig := 0x400, eeprom := eeprom }

/-! ## Frames -/

/-- The memories differ only in the core configuration and in the settings area. -/
def SettingsFrame (c : Config L) (m m' : Memory UInt8) : Prop :=
  ∀ x, c.eeconfigSize ≤ x → x < c.vialQmkSettingsEepromAddr ∨ c.vialTapDanceEepromAddr ≤ x →
    m' x = m x

theorem SettingsFrame.trans {c : Config L} {m m' m'' : Memory UInt8} (h : SettingsFrame c m m')
    (h' : SettingsFrame c m' m'') : SettingsFrame c m m'' :=
  fun x hx harea => (h' x hx harea).trans (h x hx harea)

theorem eepromSettingsSave_frame (c : Config L) (qs eeprom : Memory UInt8) :
    SettingsFrame c eeprom (eepromSettingsSave c qs eeprom) := by
  have hframe : Memory.Frame c.vialQmkSettingsEepromAddr c.vialTapDanceEepromAddr eeprom
      (eepromSettingsSave c qs eeprom) := by
    apply Memory.foldl_invariant (Memory.Frame _ _ eeprom) _ (Memory.Frame.refl _ _ _)
    intro m hm i _
    split_ifs
    · exact hm.trans (frame_setQmkSettings c i (qs i) m)
    · exact hm
  exact fun x _ harea => hframe x harea

theorem eeconfigUpdateKeymap_frame (c : Config L) (value : UInt16) (eeprom : Memory UInt8) :
    SettingsFrame c eeprom (eeconfigUpdateKeymap value eeprom) := by
  intro x hx _
  have hword := c.keymap_le_eeconfigSize
  exact Memory.store_of_ge (by simp; omega)

/-- A setting is written to its area or to the core configuration. -/
theorem qmkSettingsSet_frame (c : Config L) (qsid maxsz p : ℕ) (data : Memory UInt8)
    (s : State L) : SettingsFrame c s.eeprom (qmkSettingsSet c qsid maxsz p data s).2.eeprom := by
  unfold qmkSettingsSet
  cases findSetting c qsid with
  | none => exact fun _ _ _ => rfl
  | some proto =>
    rcases proto with ⟨qsid', field⟩
    cases field with
    | some field =>
      simp only [Proto.set]
      split_ifs
      · exact fun _ _ _ => rfl
      · exact eepromSettingsSave_frame c _ _
    | none =>
      simp only [Proto.set]
      split_ifs
      · exact fun _ _ _ => rfl
      · exact eeconfigUpdateKeymap_frame c _ _

/-- A reset of the settings writes nothing else. -/
theorem qmkSettingsReset_frame (c : Config L) (s : State L) :
    SettingsFrame c s.eeprom (qmkSettingsReset c s).eeprom :=
  (eepromSettingsSave_frame c _ _).trans (eeconfigUpdateKeymap_frame c _ _)

end Vial
end VialQmk
