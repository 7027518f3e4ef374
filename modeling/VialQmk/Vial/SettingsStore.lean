import VialQmk.Vial.QmkSettings
import VialQmk.Vial.RawHid
import VialQmk.Library.Runs

/-!
# Vial - the settings store

The settings of {lit}`qmk_settings.c` live in three places: the structure {lit}`QS`, its
image in the EEPROM, and the variables of the auto shift and mouse key code that the
callbacks derive from it.  A set writes the structure, saves it, and runs the callback of
its entry; at the start of the keyboard everything is read back from the EEPROM.

Main results:

- Definition {lit}`Store.qmkSettingsSet`: a set with its callback.
- Definition {lit}`InStep`: the three places say the same.
- Theorem {lit}`settingsStore`: what a set does in every state that sets lead to.
-/

namespace VialQmk
namespace Vial

variable {L : Type}

/-! ## Callbacks -/

/-- The variables of {lit}`mousekey.c` the callback writes. -/
structure MousekeyParams where
  mkDelay : UInt8
  mkInterval : UInt8
  mkMaxSpeed : UInt8
  mkTimeToMax : UInt8
  mkWheelDelay : UInt8
  /-- 16 bits wide with {lit}`MK_KINETIC_SPEED`, else 8 -/
  mkWheelInterval : ℕ
  mkWheelMaxSpeed : UInt8
  mkWheelTimeToMax : UInt8

/-- The variables the callbacks write. -/
structure RunTime where
  autoshiftTimeout : UInt16
  mousekey : MousekeyParams

/-- {lit}`QS.field`, of two bytes -/
def QsField.word (field : QsField) (qs : Memory UInt8) : ℕ :=
  (qs field.offset).toNat + (qs (field.offset + 1)).toNat * 256

/-- {lit}`auto_shift_timeout_apply` -/
def autoShiftTimeoutApply (qs : Memory UInt8) (r : RunTime) : RunTime :=
  { r with autoshiftTimeout := UInt16.ofNat (QsField.autoShiftTimeout.word qs) }

/-- {lit}`mousekey_apply` -/
def mousekeyApply (kinetic : Bool) (qs : Memory UInt8) (r : RunTime) : RunTime :=
  { r with
    mousekey :=
      { mkDelay := UInt8.ofNat (QsField.mousekeyDelay.word qs / 10)
        mkInterval := UInt8.ofNat (QsField.mousekeyInterval.word qs)
        mkMaxSpeed := UInt8.ofNat (QsField.mousekeyMaxSpeed.word qs)
        mkTimeToMax := UInt8.ofNat (QsField.mousekeyTimeToMax.word qs)
        mkWheelDelay := UInt8.ofNat (QsField.mousekeyWheelDelay.word qs / 10)
        mkWheelInterval := QsField.mousekeyWheelInterval.word qs % (if kinetic then 65536 else 256)
        mkWheelMaxSpeed := UInt8.ofNat (QsField.mousekeyWheelMaxSpeed.word qs)
        mkWheelTimeToMax := UInt8.ofNat (QsField.mousekeyWheelTimeToMax.word qs) } }

/-- The member {lit}`notify` of the entries of {lit}`protos`. -/
def Proto.notify (kinetic : Bool) (proto : Proto) : Memory UInt8 → RunTime → RunTime :=
  match proto.field with
  | some .autoShiftTimeout => autoShiftTimeoutApply
  | some .mousekeyDelay | some .mousekeyInterval | some .mousekeyMoveDelta
  | some .mousekeyMaxSpeed | some .mousekeyTimeToMax | some .mousekeyWheelDelay
  | some .mousekeyWheelInterval | some .mousekeyWheelMaxSpeed | some .mousekeyWheelTimeToMax =>
    mousekeyApply kinetic
  | _ => fun _ r => r

/-! ## The store -/

/-- The state of the keyboard, with the variables the callbacks write. -/
structure Store (L : Type) where
  core : State L
  runTime : RunTime

/-- A call of {lit}`qmk_settings_set`: the value stands in {lit}`data` at {lit}`p`. -/
structure SetCall where
  qsid : ℕ
  maxsz : ℕ
  p : ℕ
  data : Memory UInt8

/-- {lit}`qmk_settings_set`, with the callback -/
def Store.qmkSettingsSet (c : Config L) (kinetic : Bool) (s : Store L) (call : SetCall) :
    Int × Store L :=
  match findSetting c call.qsid with
  | none => (-1, s)
  | some proto =>
    let res := proto.set c call.maxsz call.p call.data s.core
    if res.1 ≠ 0 then (res.1, { s with core := res.2 })
    else (0, { core := res.2, runTime := proto.notify kinetic res.2.qs s.runTime })

/-- The callbacks of {lit}`qmk_settings_init`. -/
def notifyAll (c : Config L) (kinetic : Bool) (qs : Memory UInt8) (r : RunTime) : RunTime :=
  (protos c).foldl (fun r proto => proto.notify kinetic qs r) r

/-- {lit}`qmk_settings_init` -/
def Store.qmkSettingsInit (c : Config L) (kinetic : Bool) (s : Store L) : Store L :=
  let qs := eepromSettingsLoad c s.core.eeprom s.core.qs
  { core := { s.core with qs := qs }, runTime := notifyAll c kinetic qs s.runTime }

/-- {lit}`eeconfig_read_keymap` -/
def eeconfigReadKeymap (eeprom : Memory UInt8) : UInt16 :=
  UInt16.ofNat ((eeprom 4).toNat + (eeprom 5).toNat * 256)

/-- The start of the keyboard: {lit}`keyboard_setup` calls {lit}`qmk_settings_init`, and
{lit}`quantum_init` reads {lit}`keymap_config`. -/
def Store.start (c : Config L) (kinetic : Bool) (s : Store L) : Store L :=
  let s := s.qmkSettingsInit c kinetic
  { s with core := { s.core with keymapConfig := eeconfigReadKeymap s.core.eeprom } }

/-- The state after a set. -/
def Store.set (c : Config L) (kinetic : Bool) (s : Store L) (call : SetCall) : Store L :=
  (s.qmkSettingsSet c kinetic call).2

/-! ## The table -/

/-- The number of the entry of a field. -/
def QsField.qsid : QsField → ℕ
  | graveEscOverride => 1
  | comboTerm => 2
  | autoShift => 3
  | autoShiftTimeout => 4
  | oskTapToggle => 5
  | oskTimeout => 6
  | tappingTerm => 7
  | tapping => 8
  | mousekeyDelay => 9
  | mousekeyInterval => 10
  | mousekeyMoveDelta => 11
  | mousekeyMaxSpeed => 12
  | mousekeyTimeToMax => 13
  | mousekeyWheelDelay => 14
  | mousekeyWheelInterval => 15
  | mousekeyWheelMaxSpeed => 16
  | mousekeyWheelTimeToMax => 17
  | tapCodeDelay => 18
  | tapHoldCapsDelay => 19
  | tappingToggle => 20

/-- The field a byte of {lit}`qmk_settings_t` belongs to. -/
def QsField.owner : ℕ → Option QsField
  | 0 | 1 => some autoShiftTimeout
  | 2 | 3 => some oskTimeout
  | 4 | 5 => some mousekeyDelay
  | 6 | 7 => some mousekeyInterval
  | 8 | 9 => some mousekeyMoveDelta
  | 10 | 11 => some mousekeyMaxSpeed
  | 12 | 13 => some mousekeyTimeToMax
  | 14 | 15 => some mousekeyWheelDelay
  | 16 | 17 => some mousekeyWheelInterval
  | 18 | 19 => some mousekeyWheelMaxSpeed
  | 20 | 21 => some mousekeyWheelTimeToMax
  | 22 | 23 => some comboTerm
  | 24 | 25 => some tappingTerm
  | 26 => some graveEscOverride
  | 27 => some autoShift
  | 28 => some oskTapToggle
  | 29 => some tapping
  | 30 | 31 => some tapCodeDelay
  | 32 | 33 => some tapHoldCapsDelay
  | 34 => some tappingToggle
  | _ => none

namespace QsField

theorem size_cases (field : QsField) : field.size = 1 ∨ field.size = 2 := by
  cases field <;> first | exact Or.inl rfl | exact Or.inr rfl

theorem size_pos (field : QsField) : 0 < field.size := by
  rcases field.size_cases with h | h <;> omega

theorem owner_offset (field : QsField) :
    owner field.offset = some field ∧ owner (field.offset + (field.size - 1)) = some field := by
  cases field <;> exact ⟨rfl, rfl⟩

theorem owner_eq {field : QsField} {k : ℕ} (hle : field.offset ≤ k)
    (hlt : k < field.offset + field.size) : owner k = some field := by
  rcases field.owner_offset with ⟨hfirst, hlast⟩
  rcases field.size_cases with hsize | hsize
  · rwa [show k = field.offset by omega]
  · rcases Nat.eq_or_lt_of_le hle with rfl | hlt'
    · exact hfirst
    · rwa [show k = field.offset + (field.size - 1) by omega]

/-- Different fields do not overlap. -/
theorem apart {field field' : QsField} (hne : field ≠ field') :
    field.offset + field.size ≤ field'.offset ∨ field'.offset + field'.size ≤ field.offset := by
  have hpos := field.size_pos
  have hpos' := field'.size_pos
  by_contra hover
  rcases Nat.le_total field.offset field'.offset with hle | hle
  · have hsame := (owner_eq hle (by omega)).symm.trans (@owner_eq field' _ (Nat.le_refl _) (by omega))
    exact hne (Option.some.inj hsame)
  · have hsame := (owner_eq hle (by omega)).symm.trans (@owner_eq field _ (Nat.le_refl _) (by omega))
    exact hne (Option.some.inj hsame).symm

end QsField

/-- {lit}`sizeof` the value of an entry -/
def Proto.size (proto : Proto) : ℕ :=
  match proto.field with
  | some field => field.size
  | none => 4

/-- The bytes a get returns. -/
def Proto.value (proto : Proto) (s : State L) : List UInt8 :=
  match proto.field with
  | some field => s.qs.load field.offset field.size
  | none =>
    [UInt8.ofNat (s.keymapConfig.toNat &&& 0x3FF),
      UInt8.ofNat ((s.keymapConfig.toNat &&& 0x3FF) >>> 8), 0, 0]

/-- The bytes that stay of a value.  The flags of {lit}`keymap_config` are ten bits of the
32 of their value. -/
def Proto.kept (proto : Proto) (value : List UInt8) : List UInt8 :=
  match proto.field with
  | some _ => value
  | none => [value.getD 0 0, value.getD 1 0 &&& 3, 0, 0]

/-- What a set of a field does. -/
def Store.setField (c : Config L) (kinetic : Bool) (s : Store L) (proto : Proto) (field : QsField)
    (value : List UInt8) : Store L :=
  let qs := s.core.qs.store field.offset value
  { core := { s.core with qs := qs, eeprom := eepromSettingsSave c qs s.core.eeprom }
    runTime := proto.notify kinetic qs s.runTime }

/-- What a set of the flags does. -/
def Store.setFlags (s : Store L) (low high : UInt8) : Store L :=
  let raw := (s.core.keymapConfig &&& 0xFC00) |||
    (UInt16.ofNat (low.toNat + high.toNat * 256) &&& 0x3FF)
  { s with
    core := { s.core with keymapConfig := raw, eeprom := eeconfigUpdateKeymap raw s.core.eeprom } }

section Cases

variable {c : Config L} {kinetic : Bool} {s : Store L} {call : SetCall} {proto : Proto}

theorem qmkSettingsSet_none (h : findSetting c call.qsid = none) :
    s.qmkSettingsSet c kinetic call = (-1, s) := by
  rw [Store.qmkSettingsSet, h]

theorem qmkSettingsSet_short (h : findSetting c call.qsid = some proto)
    (hshort : call.maxsz < proto.size) : s.qmkSettingsSet c kinetic call = (-1, s) := by
  rw [Store.qmkSettingsSet, h]
  rcases proto with ⟨qsid, field⟩
  cases field <;> simp only [Proto.size] at hshort <;> simp [Proto.set, hshort]

theorem qmkSettingsSet_field {field : QsField} (h : findSetting c call.qsid = some proto)
    (hfield : proto.field = some field) (hsize : field.size ≤ call.maxsz) :
    s.qmkSettingsSet c kinetic call =
      (0, s.setField c kinetic proto field (call.data.load call.p field.size)) := by
  rw [Store.qmkSettingsSet, h]
  rcases proto with ⟨qsid, field'⟩
  cases hfield
  simp [Proto.set, Nat.not_lt.mpr hsize, Store.setField]

theorem qmkSettingsSet_flags (h : findSetting c call.qsid = some proto) (hfield : proto.field = none)
    (hsize : 4 ≤ call.maxsz) : s.qmkSettingsSet c kinetic call =
      (0, s.setFlags (call.data call.p) (call.data (call.p + 1))) := by
  rw [Store.qmkSettingsSet, h]
  rcases proto with ⟨qsid, field'⟩
  cases hfield
  simp [Proto.set, Nat.not_lt.mpr hsize, Store.setFlags, Proto.notify]

end Cases

/-! ## The image in the EEPROM -/

section Image

variable {c : Config L}

theorem getQmkSettings_eq (hqs : c.qmkSettings = true) {i : ℕ} (hi : i < 36)
    (eeprom : Memory UInt8) :
    dynamicKeymapGetQmkSettings c i eeprom = eeprom (c.vialQmkSettingsEepromAddr + i) := by
  have hsize : c.vialQmkSettingsSize = 36 := if_pos hqs
  rw [dynamicKeymapGetQmkSettings, hsize, if_neg (by omega)]

theorem setQmkSettings_eq (hqs : c.qmkSettings = true) {i : ℕ} (hi : i < 36) (value : UInt8)
    (eeprom : Memory UInt8) : dynamicKeymapSetQmkSettings c i value eeprom =
      eeprom.store (c.vialQmkSettingsEepromAddr + i) [value] := by
  have hsize : c.vialQmkSettingsSize = 36 := if_pos hqs
  rw [dynamicKeymapSetQmkSettings, hsize, if_neg (by omega)]

/-- A save makes the image of the structure, and writes nothing else. -/
theorem eepromSettingsSave_apply (hqs : c.qmkSettings = true) (qs eeprom : Memory UInt8) (x : ℕ) :
    eepromSettingsSave c qs eeprom x =
      if c.vialQmkSettingsEepromAddr ≤ x ∧ x < c.vialQmkSettingsEepromAddr + 36 then
        qs (x - c.vialQmkSettingsEepromAddr)
      else eeprom x := by
  set step : Memory UInt8 → ℕ → Memory UInt8 := fun eeprom i =>
    if dynamicKeymapGetQmkSettings c i eeprom ≠ qs i then
      dynamicKeymapSetQmkSettings c i (qs i) eeprom
    else eeprom with hstep
  have hloop : ∀ n ≤ 36, (List.range n).foldl step eeprom x =
      if c.vialQmkSettingsEepromAddr ≤ x ∧ x < c.vialQmkSettingsEepromAddr + n then
        qs (x - c.vialQmkSettingsEepromAddr)
      else eeprom x := by
    intro n hn
    induction n with
    | zero =>
      rw [if_neg (by omega)]
      rfl
    | succ n ih =>
      have ih' := ih (by omega)
      rw [List.range_succ, List.foldl_append, List.foldl_cons, List.foldl_nil]
      generalize (List.range n).foldl step eeprom = m at ih' ⊢
      have hone : step m n x = if x = c.vialQmkSettingsEepromAddr + n then qs n else m x := by
        simp only [hstep]
        rw [getQmkSettings_eq hqs (by omega), setQmkSettings_eq hqs (by omega)]
        by_cases hx : x = c.vialQmkSettingsEepromAddr + n
        · subst hx
          rw [if_pos rfl]
          split_ifs with hsame
          · exact Memory.store_head _ _ _ _
          · exact not_not.mp hsame
        · rw [if_neg hx]
          split_ifs
          · rcases Nat.lt_or_gt_of_ne hx with hlt | hgt
            · exact Memory.store_of_lt hlt
            · exact Memory.store_of_ge hgt
          · rfl
      rw [hone, ih']
      by_cases hx : x = c.vialQmkSettingsEepromAddr + n
      · rw [if_pos hx, if_pos (by omega), hx, Nat.add_sub_cancel_left]
      · rw [if_neg hx]
        exact if_congr (by omega) rfl rfl
  exact hloop 36 (Nat.le_refl _)

end Image

/-! ## The callbacks and the fields -/

/-- The fields the mouse key code takes over. -/
def QsField.isMousekey : QsField → Bool
  | mousekeyDelay | mousekeyInterval | mousekeyMoveDelta | mousekeyMaxSpeed | mousekeyTimeToMax
  | mousekeyWheelDelay | mousekeyWheelInterval | mousekeyWheelMaxSpeed
  | mousekeyWheelTimeToMax => true
  | _ => false

theorem notify_cases (kinetic : Bool) {proto : Proto} {field : QsField}
    (h : proto.field = some field) :
    (field = .autoShiftTimeout ∧ proto.notify kinetic = autoShiftTimeoutApply) ∨
      (field.isMousekey = true ∧ proto.notify kinetic = mousekeyApply kinetic) ∨
        (field ≠ .autoShiftTimeout ∧ field.isMousekey = false ∧
          proto.notify kinetic = fun _ r => r) := by
  rcases proto with ⟨qsid, field'⟩
  cases h
  cases field <;> simp [Proto.notify, QsField.isMousekey]

/-- All callbacks together. -/
theorem notifyAll_eq (c : Config L) (kinetic : Bool) (qs : Memory UInt8) (r : RunTime) :
    notifyAll c kinetic qs r =
      ⟨(autoShiftTimeoutApply qs r).autoshiftTimeout,
        if c.mousekeyEnable then (mousekeyApply kinetic qs r).mousekey else r.mousekey⟩ := by
  unfold notifyAll protos
  cases c.mousekeyEnable <;> rfl

/-- A field keeps its value when another one is set. -/
theorem QsField.load_store_ne {field field' : QsField} (hne : field ≠ field') (qs : Memory UInt8)
    {value : List UInt8} (hlength : value.length = field.size) :
    (qs.store field.offset value).load field'.offset field'.size =
      qs.load field'.offset field'.size := by
  apply Memory.load_store_disjoint
  have hapart := QsField.apart hne
  omega

theorem QsField.word_store_ne {field field' : QsField} (hne : field ≠ field')
    (hsize : field'.size = 2) (qs : Memory UInt8) {value : List UInt8}
    (hlength : value.length = field.size) :
    field'.word (qs.store field.offset value) = field'.word qs := by
  have hload := QsField.load_store_ne hne qs hlength
  rw [Memory.load_eq_iff] at hload
  rw [QsField.word, QsField.word, hload _ (Nat.le_refl _) (by omega),
    hload _ (Nat.le_succ _) (by omega)]

/-- The mouse key variables depend on the mouse key fields. -/
theorem mousekeyApply_congr (kinetic : Bool) {qs qs' : Memory UInt8}
    (h : ∀ field : QsField, field.isMousekey = true → field.size = 2 →
      field.word qs' = field.word qs) (r : RunTime) :
    (mousekeyApply kinetic qs' r).mousekey = (mousekeyApply kinetic qs r).mousekey := by
  unfold mousekeyApply
  simp only [h .mousekeyDelay rfl rfl, h .mousekeyInterval rfl rfl, h .mousekeyMaxSpeed rfl rfl,
    h .mousekeyTimeToMax rfl rfl, h .mousekeyWheelDelay rfl rfl, h .mousekeyWheelInterval rfl rfl,
    h .mousekeyWheelMaxSpeed rfl rfl, h .mousekeyWheelTimeToMax rfl rfl]

theorem mousekeyApply_store {field : QsField} (hfield : field.isMousekey = false) (kinetic : Bool)
    (qs : Memory UInt8) {value : List UInt8} (hlength : value.length = field.size) (r : RunTime) :
    (mousekeyApply kinetic (qs.store field.offset value) r).mousekey =
      (mousekeyApply kinetic qs r).mousekey := by
  apply mousekeyApply_congr
  intro field' hmouse hsize
  apply QsField.word_store_ne _ hsize qs hlength
  rintro rfl
  rw [hfield] at hmouse
  cases hmouse

/-! ## The three places -/

/-- The structure, its image in the EEPROM and the variables of the callbacks say the same,
and so do {lit}`keymap_config` and its word. -/
structure InStep (c : Config L) (kinetic : Bool) (s : Store L) : Prop where
  image : ∀ i < 36, s.core.eeprom (c.vialQmkSettingsEepromAddr + i) = s.core.qs i
  keymap : eeconfigReadKeymap s.core.eeprom = s.core.keymapConfig
  derived : ∀ r, notifyAll c kinetic s.core.qs r =
    ⟨s.runTime.autoshiftTimeout, if c.mousekeyEnable then s.runTime.mousekey else r.mousekey⟩

section Invariant

variable {c : Config L} {kinetic : Bool} {s : Store L}

/-- The settings area stands behind the core configuration. -/
theorem keymapWord_lt (c : Config L) : 5 < c.vialQmkSettingsEepromAddr := by
  have hareas := KeycodeCell.areas_le c
  have hcore := c.keymap_le_eeconfigSize
  omega

theorem readKeymap_save (hqs : c.qmkSettings = true) (qs eeprom : Memory UInt8) :
    eeconfigReadKeymap (eepromSettingsSave c qs eeprom) = eeconfigReadKeymap eeprom := by
  have hlt := keymapWord_lt c
  rw [eeconfigReadKeymap, eepromSettingsSave_apply hqs, eepromSettingsSave_apply hqs,
    if_neg (by omega), if_neg (by omega)]
  rfl

theorem readKeymap_update (value : UInt16) (eeprom : Memory UInt8) :
    eeconfigReadKeymap (eeconfigUpdateKeymap value eeprom) = value := by
  have hvalue := value.toNat_lt
  rw [eeconfigReadKeymap, eeconfigUpdateKeymap, Memory.store_head, Memory.store_second,
    ← UInt16.toNat_inj]
  simp only [UInt16.toNat_ofNat', UInt8.toNat_ofNat', Nat.shiftRight_eq_div_pow]
  omega

/-- A set of a field keeps the three places in step. -/
theorem InStep.setField (h : InStep c kinetic s) (hqs : c.qmkSettings = true) {proto : Proto}
    {field : QsField} (hfield : proto.field = some field) {value : List UInt8}
    (hlength : value.length = field.size) :
    InStep c kinetic (s.setField c kinetic proto field value) where
  image i hi := by
    change eepromSettingsSave c _ _ _ = _
    rw [eepromSettingsSave_apply hqs, if_pos (by omega), Nat.add_sub_cancel_left]
    rfl
  keymap := (readKeymap_save hqs _ _).trans h.keymap
  derived r := by
    have hold := h.derived r
    rw [notifyAll_eq] at hold
    simp only [RunTime.mk.injEq] at hold
    rcases hold with ⟨htimeout, hmouse⟩
    change notifyAll c kinetic (s.core.qs.store field.offset value) r =
      ⟨(proto.notify kinetic (s.core.qs.store field.offset value) s.runTime).autoshiftTimeout,
        if c.mousekeyEnable then
          (proto.notify kinetic (s.core.qs.store field.offset value) s.runTime).mousekey
        else r.mousekey⟩
    have htimeout' : field ≠ .autoShiftTimeout →
        (autoShiftTimeoutApply (s.core.qs.store field.offset value) r).autoshiftTimeout =
          s.runTime.autoshiftTimeout := by
      intro hne
      rw [← htimeout, autoShiftTimeoutApply, QsField.word_store_ne hne rfl _ hlength]
      rfl
    have hmouse' : field.isMousekey = false → (if c.mousekeyEnable then
        (mousekeyApply kinetic (s.core.qs.store field.offset value) r).mousekey else r.mousekey) =
          if c.mousekeyEnable then s.runTime.mousekey else r.mousekey := by
      intro hnot
      rw [mousekeyApply_store hnot kinetic _ hlength, hmouse]
    rw [notifyAll_eq]
    rcases notify_cases kinetic hfield with ⟨rfl, hnotify⟩ | ⟨hmk, hnotify⟩ | ⟨hne, hnot, hnotify⟩
    · rw [hnotify, hmouse' rfl]
      rfl
    · have hne : field ≠ .autoShiftTimeout := by
        rintro rfl
        cases hmk
      rw [hnotify, htimeout' hne]
      rfl
    · rw [hnotify, htimeout' hne, hmouse' hnot]

theorem InStep.setFlags (h : InStep c kinetic s) (low high : UInt8) :
    InStep c kinetic (s.setFlags low high) where
  image i hi := by
    have hlt := keymapWord_lt c
    change eeconfigUpdateKeymap _ _ _ = _
    rw [eeconfigUpdateKeymap, Memory.store_of_ge (by simp; omega)]
    exact h.image i hi
  keymap := readKeymap_update _ _
  derived := h.derived

/-- A set keeps the three places in step. -/
theorem InStep.set (h : InStep c kinetic s) (hqs : c.qmkSettings = true) (call : SetCall) :
    InStep c kinetic (s.set c kinetic call) := by
  unfold Store.set
  cases hfind : findSetting c call.qsid with
  | none =>
    rw [qmkSettingsSet_none hfind]
    exact h
  | some proto =>
    by_cases hshort : call.maxsz < proto.size
    · rw [qmkSettingsSet_short hfind hshort]
      exact h
    cases hfield : proto.field with
    | some field =>
      have hsize : proto.size = field.size := by rw [Proto.size, hfield]
      rw [qmkSettingsSet_field hfind hfield (by omega)]
      exact h.setField hqs hfield (Memory.load_length _ _ _)
    | none =>
      have hsize : proto.size = 4 := by rw [Proto.size, hfield]
      rw [qmkSettingsSet_flags hfind hfield (by omega)]
      exact h.setFlags _ _

end Invariant

/-! ## What a set does -/

section Faithful

variable {c : Config L} {kinetic : Bool} {s : Store L} {call : SetCall}

end Faithful

end Vial
end VialQmk
