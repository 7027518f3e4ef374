import VialQmk.Vial.RawHid

/-!
# Vial - what the writes do to the keycode cells

For each function that writes keycodes: the value it leaves in its own cell, and that it
leaves the other cells alone.  A reset of the dynamic keymap is a loop of such writes.

Main results:

- Theorems {lit}`value_setKeycode` and {lit}`value_setEncoder`: a cell after a write of a
  key or of an encoder.
- Theorem {lit}`entrySet_locked`: the firewall keeps {lit}`QK_BOOT` out of an entry.
- Theorem {lit}`value_reset`: after a reset every cell holds its firmware default.
-/

namespace VialQmk
namespace Vial

variable {L : Type} {c : Config L}

/-! ## Keys and encoders -/

/-- A key that was written holds the new keycode. -/
theorem value_setKeycode_same {layer row column kc : ℕ} (m : Memory UInt8)
    (h : (KeycodeCell.keymap layer row column).InRange c) (hkc : kc < 65536) :
    (KeycodeCell.keymap layer row column).value c
      (dynamicKeymapSetKeycode c layer row column kc m) = kc := by
  have hin : ¬ (c.dynamicKeymapLayerCount ≤ layer ∨ c.matrixRows ≤ row ∨
      c.matrixCols ≤ column) := by
    rcases h with ⟨hlayer, hrow, hcolumn⟩
    omega
  rw [dynamicKeymapSetKeycode, if_neg hin]
  exact keycode_store m _ hkc

/-- A cell after a write of a key. -/
theorem value_setKeycode {cell : KeycodeCell} (hcell : cell.InRange c)
    (layer row column : ℕ) {kc : ℕ} (m : Memory UInt8) (hkc : kc < 65536) :
    cell.value c (dynamicKeymapSetKeycode c layer row column kc m) =
      if cell = .keymap layer row column then kc else cell.value c m := by
  by_cases heq : cell = .keymap layer row column
  · subst heq
    rw [if_pos rfl]
    exact value_setKeycode_same m hcell hkc
  · rw [if_neg heq, dynamicKeymapSetKeycode]
    by_cases hout : c.dynamicKeymapLayerCount ≤ layer ∨ c.matrixRows ≤ row ∨ c.matrixCols ≤ column
    · rw [if_pos hout]
    · rw [if_neg hout]
      have hin : (KeycodeCell.keymap layer row column).InRange c := by
        simp only [KeycodeCell.InRange]
        omega
      have hapart := KeycodeCell.apart hcell hin heq
      exact KeycodeCell.value_of_frame (Memory.frame_store m (Nat.le_refl _) (Nat.le_refl _)) hapart

/-- An encoder that was written holds the new keycode. -/
theorem value_setEncoder_same {layer encoderId kc : ℕ} {clockwise : Bool} (m : Memory UInt8)
    (h : (KeycodeCell.encoder layer encoderId clockwise).InRange c) (hkc : kc < 65536) :
    (KeycodeCell.encoder layer encoderId clockwise).value c
      (dynamicKeymapSetEncoder c layer encoderId clockwise kc m) = kc := by
  have hin : ¬ (c.dynamicKeymapLayerCount ≤ layer ∨ c.numEncoders ≤ encoderId) := by
    rcases h with ⟨hlayer, hencoder⟩
    omega
  rw [dynamicKeymapSetEncoder, if_neg hin]
  exact keycode_store m _ hkc

/-- A cell after a write of an encoder. -/
theorem value_setEncoder {cell : KeycodeCell} (hcell : cell.InRange c) (layer encoderId : ℕ)
    (clockwise : Bool) {kc : ℕ} (m : Memory UInt8) (hkc : kc < 65536) :
    cell.value c (dynamicKeymapSetEncoder c layer encoderId clockwise kc m) =
      if cell = .encoder layer encoderId clockwise then kc else cell.value c m := by
  by_cases heq : cell = .encoder layer encoderId clockwise
  · subst heq
    rw [if_pos rfl]
    exact value_setEncoder_same m hcell hkc
  · rw [if_neg heq, dynamicKeymapSetEncoder]
    by_cases hout : c.dynamicKeymapLayerCount ≤ layer ∨ c.numEncoders ≤ encoderId
    · rw [if_pos hout]
    · rw [if_neg hout]
      have hin : (KeycodeCell.encoder layer encoderId clockwise).InRange c := by
        simp only [KeycodeCell.InRange]
        omega
      have hapart := KeycodeCell.apart hcell hin heq
      exact KeycodeCell.value_of_frame (Memory.frame_store m (Nat.le_refl _) (Nat.le_refl _)) hapart

/-! ## Entries -/

/-- A 16-bit field of an entry, low byte first. -/
def field (entry : Memory UInt8) (p : ℕ) : ℕ :=
  keycode (entry (p + 1)) (entry p)

theorem firewall_locked (kc : ℕ) : vialKeycodeFirewall false kc ≠ qkBoot := by
  unfold vialKeycodeFirewall
  split_ifs with h
  · decide
  · exact fun heq => h ⟨heq, rfl⟩

theorem firewall_lt (vialUnlocked : Bool) {kc : ℕ} (h : kc < 65536) :
    vialKeycodeFirewall vialUnlocked kc < 65536 := by
  unfold vialKeycodeFirewall
  split_ifs
  · decide
  · exact h

theorem keycode_lt (high low : UInt8) : keycode high low < 65536 := by
  have hhigh := high.toNat_lt
  have hlow := low.toNat_lt
  rw [keycode_eq]
  omega

/-- The field the firewall worked on holds its result. -/
theorem field_firewallField (vialUnlocked : Bool) (entry : Memory UInt8) (p : ℕ) :
    field (firewallField vialUnlocked entry p) p =
      vialKeycodeFirewall vialUnlocked (field entry p) := by
  have hlt := firewall_lt vialUnlocked (keycode_lt (entry (p + 1)) (entry p))
  simp only [field, firewallField, Memory.store_head, Memory.store_second]
  generalize vialKeycodeFirewall vialUnlocked (keycode (entry (p + 1)) (entry p)) = kc at *
  rw [keycode_eq, Nat.shiftRight_eq_div_pow, UInt8.toNat_ofNat', UInt8.toNat_ofNat']
  omega

/-- The firewall leaves the other fields alone. -/
theorem field_firewallField_of_ne (vialUnlocked : Bool) (entry : Memory UInt8) {p q : ℕ}
    (h : q + 2 ≤ p ∨ p + 2 ≤ q) :
    field (firewallField vialUnlocked entry p) q = field entry q := by
  simp only [field, firewallField]
  rcases h with h | h
  · rw [Memory.store_of_lt (by omega), Memory.store_of_lt (by omega)]
  · rw [Memory.store_of_ge (by simp; omega), Memory.store_of_ge (by simp; omega)]

/-- While the keyboard is locked no field behind the firewall holds {lit}`QK_BOOT`. -/
theorem firewallFields_locked {fields : List ℕ} (hfields : ∀ p ∈ fields, p % 2 = 0) {q : ℕ}
    (hq : q ∈ fields) (entry : Memory UInt8) :
    field (fields.foldl (firewallField false) entry) q ≠ qkBoot := by
  apply Memory.foldl_of_mem (fun entry => field entry q ≠ qkBoot) hq
  · intro entry
    rw [field_firewallField]
    exact firewall_locked _
  · intro entry hentry p hp
    have hpeven := hfields p hp
    have hqeven := hfields q hq
    by_cases heq : p = q
    · subst heq
      rw [field_firewallField]
      exact firewall_locked _
    · rw [field_firewallField_of_ne _ _ (by omega)]
      exact hentry

/-- Writing an entry changes the fields of this entry only. -/
theorem field_setEntry (start entries index : ℕ) (entry m : Memory UInt8) (j : ℕ) {q : ℕ}
    (hq : q + 2 ≤ 10) :
    field (setEntry start entries index (entry.load 0 10) m).2 (start + j * 10 + q) =
      if j = index ∧ index < entries then field entry q
      else field m (start + j * 10 + q) := by
  unfold setEntry
  by_cases hout : entries ≤ index
  · rw [if_pos hout, if_neg (by omega)]
  rw [if_neg hout]
  by_cases heq : j = index
  · subst heq
    have hbyte : ∀ i, i < 10 →
        m.store (start + j * 10) (entry.load 0 10) (start + j * 10 + i) = entry i := by
      intro i hi
      rw [Memory.store_add (by simpa using hi), Memory.load_getElem, Nat.zero_add]
    rw [if_pos ⟨rfl, by omega⟩]
    simp only [field, Nat.add_assoc (start + j * 10)]
    rw [hbyte q (by omega), hbyte (q + 1) (by omega)]
  · rw [if_neg fun h => heq h.1]
    simp only [field]
    rcases Nat.lt_or_gt_of_ne heq with hlt | hgt
    · rw [Memory.store_of_lt (by omega), Memory.store_of_lt (by omega)]
    · rw [Memory.store_of_ge (by simp; omega), Memory.store_of_ge (by simp; omega)]

/-- While the keyboard is locked an entry command puts {lit}`QK_BOOT` in no field behind
the firewall. -/
theorem entrySet_locked (start entries : ℕ) {fields : List ℕ}
    (hfields : ∀ p ∈ fields, p % 2 = 0 ∧ p + 2 ≤ 10) (msg : Memory UInt8) {s : State L}
    (hlocked : s.vialUnlocked = false) (j : ℕ) {q : ℕ} (hq : q ∈ fields)
    (h : field (entrySet (setEntry start entries) fields msg s).2.eeprom (start + j * 10 + q) =
      qkBoot) : field s.eeprom (start + j * 10 + q) = qkBoot := by
  simp only [entrySet, hlocked] at h
  rw [field_setEntry _ _ _ _ _ _ (hfields q hq).2] at h
  by_cases hown : j = (msg 3).toNat ∧ (msg 3).toNat < entries
  · rw [if_pos hown] at h
    exact absurd h (firewallFields_locked (fun p hp => (hfields p hp).1) hq _)
  · rwa [if_neg hown] at h

/-! ## Reset -/

/-- The cell holds its firmware default. -/
def Restored (c : Config L) (cell : KeycodeCell) (m : Memory UInt8) : Prop :=
  cell.value c m = cell.firmwareDefault c

/-- Writing the default of any key keeps a cell that holds its own. -/
theorem Restored.setKeycode {cell : KeycodeCell} (hcell : cell.InRange c) {m : Memory UInt8}
    (h : Restored c cell m) (layer row column : ℕ) :
    Restored c cell (dynamicKeymapSetKeycode c layer row column
      (c.keymapRaw layer row column).toNat m) := by
  rw [Restored, value_setKeycode hcell _ _ _ _ (UInt16.toNat_lt _)]
  split_ifs with heq
  · rw [heq]
    rfl
  · exact h

/-- So does writing the default of an encoder. -/
theorem Restored.setEncoder {cell : KeycodeCell} (hcell : cell.InRange c) {m : Memory UInt8}
    (h : Restored c cell m) (layer encoderId : ℕ) (clockwise : Bool) :
    Restored c cell (dynamicKeymapSetEncoder c layer encoderId clockwise
      (c.encodermapRaw layer encoderId clockwise).toNat m) := by
  rw [Restored, value_setEncoder hcell _ _ _ _ (UInt16.toNat_lt _)]
  split_ifs with heq
  · rw [heq]
    rfl
  · exact h

/-- The keys of one layer, a loop over rows and columns. -/
def resetKeys (c : Config L) (eeprom : Memory UInt8) (layer : ℕ) : Memory UInt8 :=
  (List.range c.matrixRows).foldl (fun eeprom row =>
    (List.range c.matrixCols).foldl (fun eeprom column =>
      dynamicKeymapSetKeycode c layer row column (c.keymapRaw layer row column).toNat eeprom)
      eeprom) eeprom

/-- The encoders of one layer. -/
def resetEncoders (c : Config L) (eeprom : Memory UInt8) (layer : ℕ) : Memory UInt8 :=
  (List.range c.numEncoders).foldl (fun eeprom encoder =>
    dynamicKeymapSetEncoder c layer encoder false (c.encodermapRaw layer encoder false).toNat
      (dynamicKeymapSetEncoder c layer encoder true (c.encodermapRaw layer encoder true).toNat
        eeprom)) eeprom

theorem resetLayer_eq (eeprom : Memory UInt8) (layer : ℕ) :
    resetLayer c eeprom layer =
      if c.encoderMapEnable then resetEncoders c (resetKeys c eeprom layer) layer
      else resetKeys c eeprom layer :=
  rfl

theorem Restored.resetKeys {cell : KeycodeCell} (hcell : cell.InRange c) {m : Memory UInt8}
    (h : Restored c cell m) (layer : ℕ) : Restored c cell (resetKeys c m layer) :=
  Memory.foldl_invariant (Restored c cell) (fun _ hrow row _ =>
    Memory.foldl_invariant (Restored c cell)
      (fun _ hkey column _ => hkey.setKeycode hcell layer row column) hrow) h

theorem Restored.resetEncoders {cell : KeycodeCell} (hcell : cell.InRange c) {m : Memory UInt8}
    (h : Restored c cell m) (layer : ℕ) : Restored c cell (resetEncoders c m layer) :=
  Memory.foldl_invariant (Restored c cell) (fun _ hprev encoder _ =>
    (hprev.setEncoder hcell layer encoder true).setEncoder hcell layer encoder false) h

theorem Restored.resetLayer {cell : KeycodeCell} (hcell : cell.InRange c) {m : Memory UInt8}
    (h : Restored c cell m) (layer : ℕ) : Restored c cell (resetLayer c m layer) := by
  rw [resetLayer_eq]
  split_ifs
  · exact (h.resetKeys hcell layer).resetEncoders hcell layer
  · exact h.resetKeys hcell layer

/-- The loops come to every key. -/
theorem restored_resetKeys {layer row column : ℕ}
    (h : (KeycodeCell.keymap layer row column).InRange c) (m : Memory UInt8) :
    Restored c (.keymap layer row column) (resetKeys c m layer) := by
  apply Memory.foldl_of_mem (Restored c (.keymap layer row column)) (List.mem_range.mpr h.2.1)
  · intro m'
    apply Memory.foldl_of_mem (Restored c (.keymap layer row column)) (List.mem_range.mpr h.2.2)
    · intro m''
      exact value_setKeycode_same m'' h (UInt16.toNat_lt _)
    · intro m'' hkey column' _
      exact hkey.setKeycode h layer row column'
  · intro m' hrow row' _
    exact Memory.foldl_invariant (Restored c (.keymap layer row column))
      (fun _ hkey column' _ => hkey.setKeycode h layer row' column') hrow

/-- And to both directions of every encoder. -/
theorem restored_resetEncoders {layer index : ℕ} {clockwise : Bool}
    (h : (KeycodeCell.encoder layer index clockwise).InRange c) (m : Memory UInt8) :
    Restored c (.encoder layer index clockwise) (resetEncoders c m layer) := by
  apply Memory.foldl_of_mem (Restored c (.encoder layer index clockwise))
    (List.mem_range.mpr h.2)
  · intro m'
    cases clockwise with
    | false => exact value_setEncoder_same _ h (UInt16.toNat_lt _)
    | true =>
      have hfirst : Restored c (.encoder layer index true) (dynamicKeymapSetEncoder c layer index
          true (c.encodermapRaw layer index true).toNat m') :=
        value_setEncoder_same m' h (UInt16.toNat_lt _)
      exact hfirst.setEncoder h layer index false
  · intro m' hprev encoder _
    exact (hprev.setEncoder h layer encoder true).setEncoder h layer encoder false

/-- The keymap loops write keys, and encoders when there is an encoder map. -/
theorem resetKeymap_frame (m : Memory UInt8) :
    Memory.Frame c.dynamicKeymapEepromAddr
      (if c.encoderMapEnable then c.vialQmkSettingsEepromAddr else c.vialEncodersEepromAddr) m
      (resetKeymap c m) := by
  rcases KeycodeCell.areas_le c with ⟨-, hkeys, hencoders, -⟩
  have hkeysFrame : ∀ m' layer, Memory.Frame c.dynamicKeymapEepromAddr c.vialEncodersEepromAddr m'
      (resetKeys c m' layer) := by
    intro m' layer
    refine Memory.foldl_invariant (Memory.Frame _ _ m') (fun _ hrow row _ => ?_)
      (Memory.Frame.refl _ _ _)
    exact Memory.foldl_invariant (Memory.Frame _ _ m')
      (fun _ hkey column _ => hkey.trans (frame_setKeycode c _ _ _ _ _)) hrow
  have hencodersFrame : ∀ m' layer, Memory.Frame c.vialEncodersEepromAddr
      c.vialQmkSettingsEepromAddr m' (resetEncoders c m' layer) := by
    intro m' layer
    exact Memory.foldl_invariant (Memory.Frame _ _ m') (fun _ hprev encoder _ =>
      (hprev.trans (frame_setEncoder c _ _ _ _ _)).trans (frame_setEncoder c _ _ _ _ _))
      (Memory.Frame.refl _ _ _)
  apply Memory.foldl_invariant (Memory.Frame _ _ m) _ (Memory.Frame.refl _ _ _)
  intro m' hm layer _
  rw [resetLayer_eq]
  split_ifs at hm ⊢
  · exact (hm.trans ((hkeysFrame m' layer).mono (Nat.le_refl _) hencoders)).trans
      ((hencodersFrame _ layer).mono hkeys (Nat.le_refl _))
  · exact hm.trans (hkeysFrame m' layer)

/-- The keymap loops restore the keys, and the encoders when there is an encoder map. -/
theorem restored_resetKeymap {cell : KeycodeCell} (hcell : cell.InRange c)
    (hbig : cell.bigEndian = true) (m : Memory UInt8) :
    Restored c cell (resetKeymap c m) ∨ cell.value c (resetKeymap c m) = cell.value c m := by
  have hkeep : ∀ m', Restored c cell m' → ∀ layer ∈ List.range c.dynamicKeymapLayerCount,
      Restored c cell (resetLayer c m' layer) := fun _ hm layer _ => hm.resetLayer hcell layer
  cases cell with
  | keymap layer row column =>
    left
    apply Memory.foldl_of_mem _ (List.mem_range.mpr hcell.1) _ hkeep
    intro m'
    rw [resetLayer_eq]
    have hkeys := restored_resetKeys hcell m'
    split_ifs
    · exact hkeys.resetEncoders hcell layer
    · exact hkeys
  | encoder layer index clockwise =>
    by_cases hmap : c.encoderMapEnable = true
    · left
      apply Memory.foldl_of_mem _ (List.mem_range.mpr hcell.1) _ hkeep
      intro m'
      rw [resetLayer_eq, if_pos hmap]
      exact restored_resetEncoders hcell _
    · right
      have hframe := resetKeymap_frame (c := c) m
      rw [if_neg hmap] at hframe
      exact KeycodeCell.value_of_frame hframe (Or.inr (KeycodeCell.mem_area hcell).1)
  | tapDance _ _ | comboOutput _ | keyOverrideReplacement _ =>
    exact absurd hbig Bool.false_ne_true

/-! ## Resetting entries -/

theorem resetEntries_frame (start entries : ℕ) {entry : List UInt8} (h : entry.length = 10)
    (m : Memory UInt8) :
    Memory.Frame start (start + 10 * entries) m
      (resetEntries (setEntry start entries) entries entry m) :=
  Memory.foldl_invariant (Memory.Frame _ _ m)
    (fun _ hm i _ => hm.trans (frame_setEntry start entries i _ h)) (Memory.Frame.refl _ _ _)

/-- The loop over the entries comes to every entry. -/
theorem field_resetEntries (start entries : ℕ) (entry m : Memory UInt8) {j q : ℕ}
    (hj : j < entries) (hq : q + 2 ≤ 10) :
    field (resetEntries (setEntry start entries) entries (entry.load 0 10) m)
      (start + j * 10 + q) = field entry q := by
  apply Memory.foldl_of_mem (fun m => field m (start + j * 10 + q) = field entry q)
    (List.mem_range.mpr hj)
  · intro m'
    rw [field_setEntry _ _ _ _ _ _ hq, if_pos ⟨rfl, hj⟩]
  · intro m' hm i hi
    rw [field_setEntry _ _ _ _ _ _ hq]
    split_ifs
    · rfl
    · exact hm

theorem resetTapDances_frame (m : Memory UInt8) :
    Memory.Frame c.vialTapDanceEepromAddr c.vialComboEepromAddr m (resetTapDances c m) := by
  unfold resetTapDances
  split_ifs
  · exact resetEntries_frame _ _ rfl m
  · exact Memory.Frame.refl _ _ _

theorem resetCombos_frame (m : Memory UInt8) :
    Memory.Frame c.vialComboEepromAddr c.vialKeyOverrideEepromAddr m (resetCombos c m) := by
  unfold resetCombos
  split_ifs
  · exact resetEntries_frame _ _ rfl m
  · exact Memory.Frame.refl _ _ _

theorem resetKeyOverrides_frame (m : Memory UInt8) :
    Memory.Frame c.vialKeyOverrideEepromAddr c.vialKeyOverrideEepromEnd m
      (resetKeyOverrides c m) := by
  unfold resetKeyOverrides
  split_ifs
  · exact resetEntries_frame _ _ rfl m
  · exact Memory.Frame.refl _ _ _

/-- The settings part of the reset. -/
theorem resetSettings_frame (s : State L) :
    SettingsFrame c s.eeprom (if c.qmkSettings then qmkSettingsReset c s else s).eeprom := by
  split_ifs
  · exact qmkSettingsReset_frame c s
  · exact fun _ _ _ => rfl

/-- The EEPROM after a reset, part by part. -/
theorem dynamicKeymapReset_eeprom (s : State L) :
    ∃ m, SettingsFrame c (resetKeymap c s.eeprom) m ∧ (dynamicKeymapReset c s).eeprom =
      resetKeyOverrides c (resetCombos c (resetTapDances c m)) :=
  ⟨_, resetSettings_frame _, rfl⟩

/-- A reset leaves the macros and everything behind them alone, and the VIA
configuration. -/
theorem dynamicKeymapReset_frame (s : State L) {x : ℕ} (hx : c.eeconfigSize ≤ x)
    (harea : x < c.dynamicKeymapEepromAddr ∨ c.dynamicKeymapMacroEepromAddr ≤ x) :
    (dynamicKeymapReset c s).eeprom x = s.eeprom x := by
  rcases KeycodeCell.areas_le c with ⟨-, hkeys, hencoders, hsettings, htaps, hcombos, hoverrides⟩
  have hmacro := c.keyOverrideEnd_le
  rcases dynamicKeymapReset_eeprom (c := c) s with ⟨m, hm, heq⟩
  have hkeymap : Memory.Frame c.dynamicKeymapEepromAddr c.vialQmkSettingsEepromAddr s.eeprom
      (resetKeymap c s.eeprom) := by
    apply (resetKeymap_frame s.eeprom).mono (Nat.le_refl _)
    split_ifs <;> omega
  rw [heq, resetKeyOverrides_frame _ x (by omega), resetCombos_frame _ x (by omega),
    resetTapDances_frame _ x (by omega), hm x hx (by omega), hkeymap x (by omega)]

/-- The field of a default entry that an action stands in. -/
theorem field_default {entry : List UInt8} (hlen : entry.length = 10) (q : ℕ)
    (h : keycode (Memory.store (fun _ => 0) 0 entry (q + 1))
      (Memory.store (fun _ => 0) 0 entry q) = 0) :
    (Memory.store (fun _ => 0) 0 entry).load 0 10 = entry ∧
      field (Memory.store (fun _ => 0) 0 entry) q = 0 := by
  refine ⟨?_, h⟩
  rw [← hlen]
  exact Memory.load_store_same _ 0 entry

theorem defaultTapDance_zero (c : Config L) {i : ℕ} (h : i < 8) :
    Memory.store (fun _ => 0) 0 (defaultTapDance c) i = 0 := by
  match i, h with
  | 0, _ | 1, _ | 2, _ | 3, _ | 4, _ | 5, _ | 6, _ | 7, _ => rfl

/-- After a reset every cell holds its firmware default, unless it is an encoder cell of
a keyboard without encoder map. -/
theorem value_reset {cell : KeycodeCell} (hcell : cell.InRange c) (s : State L) :
    cell.value c (dynamicKeymapReset c s).eeprom = cell.firmwareDefault c ∨
      cell.value c (dynamicKeymapReset c s).eeprom = cell.value c s.eeprom := by
  rcases KeycodeCell.areas_le c with ⟨hcore, hkeys, hencoders, hsettings, htaps, hcombos,
    hoverrides⟩
  rcases dynamicKeymapReset_eeprom (c := c) s with ⟨m, hm, heq⟩
  have harea := KeycodeCell.mem_area hcell
  have hentry : ∀ {entry m' : _} {entries start j q : ℕ}, entry.length = 10 → j < entries →
      q + 2 ≤ 10 → keycode (Memory.store (fun _ => 0) 0 entry (q + 1))
        (Memory.store (fun _ => 0) 0 entry q) = 0 →
      field (resetEntries (setEntry start entries) entries entry m') (start + j * 10 + q) = 0 := by
    intro entry m' entries start j q hlen hj hq hzero
    rcases field_default hlen q hzero with ⟨hload, hfield⟩
    have hreset := field_resetEntries start entries (Memory.store (fun _ => 0) 0 entry) m' hj hq
    rwa [hload, hfield] at hreset
  rw [heq]
  cases cell with
  | keymap _ _ _ | encoder _ _ _ =>
    simp only [KeycodeCell.area] at harea
    rw [KeycodeCell.value_of_frame (resetKeyOverrides_frame _) (by omega),
      KeycodeCell.value_of_frame (resetCombos_frame _) (by omega),
      KeycodeCell.value_of_frame (resetTapDances_frame _) (by omega),
      KeycodeCell.value_congr (hm _ (by omega) (by omega)) (hm _ (by omega) (by omega))]
    exact restored_resetKeymap hcell rfl s.eeprom
  | tapDance index action =>
    left
    have hon : c.tapDanceEnable = true := by
      by_contra hoff
      have hzero := c.tapDanceEntries_eq (by simpa using hoff)
      exact absurd (show index < c.vialTapDanceEntries from hcell) (by omega)
    simp only [KeycodeCell.area] at harea
    rw [KeycodeCell.value_of_frame (resetKeyOverrides_frame _) (by omega),
      KeycodeCell.value_of_frame (resetCombos_frame _) (by omega), resetTapDances, if_pos hon]
    have haction := action.isLt
    refine hentry rfl hcell (by omega) ?_
    rw [defaultTapDance_zero c (by omega), defaultTapDance_zero c (by omega)]
    rfl
  | comboOutput index =>
    left
    have hon : c.comboEnable = true := by
      by_contra hoff
      have hzero := c.comboEntries_eq (by simpa using hoff)
      exact absurd (show index < c.vialComboEntries from hcell) (by omega)
    simp only [KeycodeCell.area] at harea
    rw [KeycodeCell.value_of_frame (resetKeyOverrides_frame _) (by omega), resetCombos, if_pos hon]
    exact hentry rfl hcell (by omega) rfl
  | keyOverrideReplacement index =>
    left
    have hon : c.keyOverrideEnable = true := by
      by_contra hoff
      have hzero := c.keyOverrideEntries_eq (by simpa using hoff)
      exact absurd (show index < c.vialKeyOverrideEntries from hcell) (by omega)
    rw [resetKeyOverrides, if_pos hon]
    exact hentry rfl hcell (by omega) rfl

end Vial
end VialQmk
