import VialQmk.Vial.Keyboard

/-!
# Vial - dynamic keymap

The EEPROM functions of {lit}`dynamic_keymap.c`: single keycodes, encoders, entries of
ten bytes, settings, buffers and macros, and the layout options of {lit}`via.c`.  Every
function that writes gets a frame: the block of addresses outside of which it changes
nothing.

Main results:

- Definition {lit}`dynamicKeymapSetBuffer`: the bounded write of a part of the keymap,
  with the check for {lit}`QK_BOOT` that runs while the keyboard is locked.
- Theorem {lit}`eepromSetBuffer_apply`: what a buffer write leaves at an address.
- Theorem {lit}`guardWords_apply`: the check turns exactly the aligned occurrences of
  {lit}`QK_BOOT` into 0xFFFF.
-/

namespace VialQmk
namespace Vial

variable {L : Type}

/-! ## Keycodes -/

/-- The two bytes of a keycode, high byte first. -/
def keycodeBytes (kc : ℕ) : List UInt8 :=
  [UInt8.ofNat (kc >>> 8), UInt8.ofNat (kc &&& 0xFF)]

/-- {lit}`dynamic_keymap_get_keycode` -/
def dynamicKeymapGetKeycode (c : Config L) (layer row column : ℕ) (eeprom : Memory UInt8) : ℕ :=
  if c.dynamicKeymapLayerCount ≤ layer ∨ c.matrixRows ≤ row ∨ c.matrixCols ≤ column then 0
  else
    let address := c.dynamicKeymapKeyToEepromAddress layer row column
    keycode (eeprom address) (eeprom (address + 1))

/-- {lit}`dynamic_keymap_set_keycode` -/
def dynamicKeymapSetKeycode (c : Config L) (layer row column kc : ℕ) (eeprom : Memory UInt8) :
    Memory UInt8 :=
  if c.dynamicKeymapLayerCount ≤ layer ∨ c.matrixRows ≤ row ∨ c.matrixCols ≤ column then eeprom
  else eeprom.store (c.dynamicKeymapKeyToEepromAddress layer row column) (keycodeBytes kc)

/-- {lit}`dynamic_keymap_get_encoder` -/
def dynamicKeymapGetEncoder (c : Config L) (layer encoderId : ℕ) (clockwise : Bool)
    (eeprom : Memory UInt8) : ℕ :=
  if c.dynamicKeymapLayerCount ≤ layer ∨ c.numEncoders ≤ encoderId then 0
  else
    let address := c.dynamicKeymapEncoderToEepromAddress layer encoderId +
      (if clockwise then 0 else 2)
    keycode (eeprom address) (eeprom (address + 1))

/-- {lit}`dynamic_keymap_set_encoder` -/
def dynamicKeymapSetEncoder (c : Config L) (layer encoderId : ℕ) (clockwise : Bool) (kc : ℕ)
    (eeprom : Memory UInt8) : Memory UInt8 :=
  if c.dynamicKeymapLayerCount ≤ layer ∨ c.numEncoders ≤ encoderId then eeprom
  else
    eeprom.store (c.dynamicKeymapEncoderToEepromAddress layer encoderId +
      (if clockwise then 0 else 2)) (keycodeBytes kc)

/-- {lit}`vial_keycode_firewall` -/
def vialKeycodeFirewall (vialUnlocked : Bool) (kc : ℕ) : ℕ :=
  if kc = qkBoot ∧ vialUnlocked = false then 0 else kc

/-! ## Entries -/

/-- {lit}`dynamic_keymap_get_tap_dance` and its siblings: an entry of ten bytes from the
area at {lit}`start`. -/
def getEntry (start entries index : ℕ) (entry : List UInt8) (eeprom : Memory UInt8) :
    Int × List UInt8 :=
  if entries ≤ index then (-1, entry) else (0, eeprom.load (start + index * 10) 10)

/-- {lit}`dynamic_keymap_set_tap_dance` and its siblings. -/
def setEntry (start entries index : ℕ) (entry : List UInt8) (eeprom : Memory UInt8) :
    Int × Memory UInt8 :=
  if entries ≤ index then (-1, eeprom) else (0, eeprom.store (start + index * 10) entry)

/-- {lit}`dynamic_keymap_get_tap_dance` -/
def dynamicKeymapGetTapDance (c : Config L) (index : ℕ) : List UInt8 → Memory UInt8 →
    Int × List UInt8 :=
  getEntry c.vialTapDanceEepromAddr c.vialTapDanceEntries index

/-- {lit}`dynamic_keymap_set_tap_dance` -/
def dynamicKeymapSetTapDance (c : Config L) (index : ℕ) : List UInt8 → Memory UInt8 →
    Int × Memory UInt8 :=
  setEntry c.vialTapDanceEepromAddr c.vialTapDanceEntries index

/-- {lit}`dynamic_keymap_get_combo` -/
def dynamicKeymapGetCombo (c : Config L) (index : ℕ) : List UInt8 → Memory UInt8 →
    Int × List UInt8 :=
  getEntry c.vialComboEepromAddr c.vialComboEntries index

/-- {lit}`dynamic_keymap_set_combo` -/
def dynamicKeymapSetCombo (c : Config L) (index : ℕ) : List UInt8 → Memory UInt8 →
    Int × Memory UInt8 :=
  setEntry c.vialComboEepromAddr c.vialComboEntries index

/-- {lit}`dynamic_keymap_get_key_override` -/
def dynamicKeymapGetKeyOverride (c : Config L) (index : ℕ) : List UInt8 → Memory UInt8 →
    Int × List UInt8 :=
  getEntry c.vialKeyOverrideEepromAddr c.vialKeyOverrideEntries index

/-- {lit}`dynamic_keymap_set_key_override` -/
def dynamicKeymapSetKeyOverride (c : Config L) (index : ℕ) : List UInt8 → Memory UInt8 →
    Int × Memory UInt8 :=
  setEntry c.vialKeyOverrideEepromAddr c.vialKeyOverrideEntries index

/-! ## Settings -/

/-- {lit}`dynamic_keymap_get_qmk_settings` -/
def dynamicKeymapGetQmkSettings (c : Config L) (offset : ℕ) (eeprom : Memory UInt8) : UInt8 :=
  if c.vialQmkSettingsSize ≤ offset then 0 else eeprom (c.vialQmkSettingsEepromAddr + offset)

/-- {lit}`dynamic_keymap_set_qmk_settings` -/
def dynamicKeymapSetQmkSettings (c : Config L) (offset : ℕ) (value : UInt8)
    (eeprom : Memory UInt8) : Memory UInt8 :=
  if c.vialQmkSettingsSize ≤ offset then eeprom
  else eeprom.store (c.vialQmkSettingsEepromAddr + offset) [value]

/-! ## Buffers

A buffer is passed as the memory {lit}`data` with the address {lit}`p` of its first
byte, so that {lit}`data[i]` is {lit}`data (p + i)`, inside and outside of the report. -/

/-- {lit}`dynamic_keymap_get_buffer` and {lit}`dynamic_keymap_macro_get_buffer`. -/
def eepromGetBuffer (start limit offset size p : ℕ) (data eeprom : Memory UInt8) : Memory UInt8 :=
  (List.range size).foldl (fun data i => data.store (p + i)
    [if offset + i < limit then eeprom (start + offset + i) else 0]) data

/-- The loop that writes in {lit}`dynamic_keymap_set_buffer` and in
{lit}`dynamic_keymap_macro_set_buffer`. -/
def eepromSetBuffer (start limit offset size p : ℕ) (data eeprom : Memory UInt8) : Memory UInt8 :=
  (List.range size).foldl (fun eeprom i =>
    if offset + i < limit then eeprom.store (start + offset + i) [data (p + i)] else eeprom) eeprom

/-- {lit}`dynamic_keymap_get_buffer` -/
def dynamicKeymapGetBuffer (c : Config L) : ℕ → ℕ → ℕ → Memory UInt8 → Memory UInt8 →
    Memory UInt8 :=
  eepromGetBuffer c.dynamicKeymapEepromAddr c.dynamicKeymapEepromSize

/-- {lit}`dynamic_keymap_macro_get_buffer` -/
def dynamicKeymapMacroGetBuffer (c : Config L) : ℕ → ℕ → ℕ → Memory UInt8 → Memory UInt8 →
    Memory UInt8 :=
  eepromGetBuffer c.dynamicKeymapMacroEepromAddr c.dynamicKeymapMacroEepromSize

/-- {lit}`dynamic_keymap_macro_set_buffer` -/
def dynamicKeymapMacroSetBuffer (c : Config L) : ℕ → ℕ → ℕ → Memory UInt8 → Memory UInt8 →
    Memory UInt8 :=
  eepromSetBuffer c.dynamicKeymapMacroEepromAddr c.dynamicKeymapMacroEepromSize

/-- {lit}`dynamic_keymap_macro_reset` -/
def dynamicKeymapMacroReset (c : Config L) (eeprom : Memory UInt8) : Memory UInt8 :=
  eeprom.fill c.dynamicKeymapMacroEepromAddr c.dynamicKeymapMacroEepromSize 0

/-- The first byte is misaligned: with the byte in front of it, it must not be
{lit}`QK_BOOT`. -/
def guardFirst (target offset p : ℕ) (eeprom data : Memory UInt8) : Memory UInt8 :=
  if offset % 2 ≠ 0 ∧ keycode (eeprom (target - 1)) (data p) = qkBoot then data.store p [0xFF]
  else data

/-- The last byte is misaligned: with the byte behind it, it must not be
{lit}`QK_BOOT`. -/
def guardLast (target offset size p : ℕ) (eeprom data : Memory UInt8) : Memory UInt8 :=
  if (offset + size) % 2 ≠ 0 ∧
      keycode (data (p + size - 1)) (eeprom (target + size)) = qkBoot then
    data.store (p + size - 1) [0xFF]
  else data

/-- One round of the loop over the aligned keycodes. -/
def guardWord (p : ℕ) (data : Memory UInt8) (i : ℕ) : Memory UInt8 :=
  if keycode (data (p + i)) (data (p + i + 1)) = qkBoot then data.store (p + i) [0xFF, 0xFF]
  else data

/-- {lit}`for (uint16_t i = chk_offset; i < chk_sz; i += 2)` -/
def guardWords (p chkOffset chkSz : ℕ) (data : Memory UInt8) : Memory UInt8 :=
  (List.range ((chkSz + 1 - chkOffset) / 2)).foldl
    (fun data k => guardWord p data (chkOffset + 2 * k)) data

/-- The check that runs while the keyboard is locked.  The decrement of {lit}`chk_sz`
wraps around for an empty buffer. -/
def guardBuffer (target offset size p : ℕ) (eeprom data : Memory UInt8) : Memory UInt8 :=
  let data := guardFirst target offset p eeprom data
  let data := guardLast target offset size p eeprom data
  let chkOffset := if offset % 2 ≠ 0 then 1 else 0
  let chkSz := if (offset + size) % 2 ≠ 0 then (size + 65535) % 65536 else size
  guardWords p chkOffset chkSz data

/-- {lit}`dynamic_keymap_set_buffer` -/
def dynamicKeymapSetBuffer (c : Config L) (vialUnlocked : Bool) (offset size p : ℕ)
    (data eeprom : Memory UInt8) : Memory UInt8 × Memory UInt8 :=
  if c.dynamicKeymapEepromSize ≤ offset ∨ c.dynamicKeymapEepromSize - offset < size then
    (data, eeprom)
  else
    let data :=
      if vialUnlocked then data
      else guardBuffer (c.dynamicKeymapEepromAddr + offset) offset size p eeprom data
    (data, eepromSetBuffer c.dynamicKeymapEepromAddr c.dynamicKeymapEepromSize offset size p data
      eeprom)

/-! ## Layout options and magic -/

/-- {lit}`via_eeprom_set_valid` -/
def viaEepromSetValid (c : Config L) (valid : Bool) (eeprom : Memory UInt8) : Memory UInt8 :=
  eeprom.store c.viaEepromMagicAddr
    [if valid then UInt8.ofNat (c.buildId &&& 0xFF) else 0xFF,
      if valid then UInt8.ofNat (c.buildId >>> 8 &&& 0xFF) else 0xFF,
      if valid then UInt8.ofNat (c.buildId >>> 16 &&& 0xFF) else 0xFF]

/-- {lit}`via_get_layout_options` -/
def viaGetLayoutOptions (c : Config L) (eeprom : Memory UInt8) : ℕ :=
  (List.range c.viaEepromLayoutOptionsSize).foldl (fun value i =>
    (value <<< 8) % 2 ^ 32 ||| (eeprom (c.viaEepromLayoutOptionsAddr + i)).toNat) 0

/-- {lit}`via_set_layout_options`: the least significant byte goes to the highest
address. -/
def viaSetLayoutOptions (c : Config L) (value : ℕ) (eeprom : Memory UInt8) : Memory UInt8 :=
  (List.range c.viaEepromLayoutOptionsSize).foldl (fun eeprom i =>
    eeprom.store (c.viaEepromLayoutOptionsAddr + c.viaEepromLayoutOptionsSize - 1 - i)
      [UInt8.ofNat (value >>> (8 * i) &&& 0xFF)]) eeprom

/-! ## What the writes leave -/

/-- A keycode that was written is read back. -/
theorem keycode_store (m : Memory UInt8) (a : ℕ) {kc : ℕ} (h : kc < 65536) :
    keycode (m.store a (keycodeBytes kc) a) (m.store a (keycodeBytes kc) (a + 1)) = kc := by
  have hand : kc &&& 0xFF = kc % 256 := Nat.and_two_pow_sub_one_eq_mod kc 8
  rw [keycodeBytes, Memory.store_head, Memory.store_second, keycode_eq, Nat.shiftRight_eq_div_pow,
    hand, UInt8.toNat_ofNat', UInt8.toNat_ofNat']
  omega

/-- What a buffer write leaves at an address. -/
theorem eepromSetBuffer_apply (start limit offset size p : ℕ) (data eeprom : Memory UInt8)
    (x : ℕ) :
    eepromSetBuffer start limit offset size p data eeprom x =
      if start + offset ≤ x ∧ x < start + offset + size ∧ x < start + limit then
        data (p + (x - (start + offset)))
      else eeprom x := by
  induction size with
  | zero => simp [eepromSetBuffer]; omega
  | succ size ih =>
    rw [eepromSetBuffer, List.range_succ, List.foldl_append, List.foldl_cons, List.foldl_nil]
    change (if offset + size < limit then
      (eepromSetBuffer start limit offset size p data eeprom).store (start + offset + size)
        [data (p + size)] else eepromSetBuffer start limit offset size p data eeprom) x = _
    by_cases hin : offset + size < limit
    · rw [if_pos hin]
      rcases Nat.lt_trichotomy x (start + offset + size) with hlt | heq | hgt
      · rw [Memory.store_of_lt hlt, ih]
        split_ifs <;> first | rfl | omega
      · subst heq
        rw [if_pos (by omega), Memory.store_head]
        congr 2
        omega
      · rw [Memory.store_of_ge (by simp; omega), ih]
        split_ifs <;> first | rfl | omega
    · rw [if_neg hin, ih]
      split_ifs <;> first | rfl | omega

/-- A buffer write stays inside its area. -/
theorem frame_eepromSetBuffer (start limit offset size p : ℕ) (data eeprom : Memory UInt8) :
    Memory.Frame start (start + limit) eeprom
      (eepromSetBuffer start limit offset size p data eeprom) := by
  intro x hx
  rw [eepromSetBuffer_apply, if_neg (by omega)]

theorem frame_setKeycode (c : Config L) (layer row column kc : ℕ) (eeprom : Memory UInt8) :
    Memory.Frame c.dynamicKeymapEepromAddr c.vialEncodersEepromAddr eeprom
      (dynamicKeymapSetKeycode c layer row column kc eeprom) := by
  unfold dynamicKeymapSetKeycode
  split_ifs with hout
  · exact Memory.Frame.refl _ _ _
  · have hin : (KeycodeCell.keymap layer row column).InRange c := by
      simp only [KeycodeCell.InRange]
      omega
    have hbounds := KeycodeCell.mem_area hin
    exact Memory.frame_store _ hbounds.1 hbounds.2

theorem frame_setEncoder (c : Config L) (layer encoderId : ℕ) (clockwise : Bool) (kc : ℕ)
    (eeprom : Memory UInt8) :
    Memory.Frame c.vialEncodersEepromAddr c.vialQmkSettingsEepromAddr eeprom
      (dynamicKeymapSetEncoder c layer encoderId clockwise kc eeprom) := by
  unfold dynamicKeymapSetEncoder
  by_cases hout : c.dynamicKeymapLayerCount ≤ layer ∨ c.numEncoders ≤ encoderId
  · rw [if_pos hout]
    exact Memory.Frame.refl _ _ _
  · have hin : (KeycodeCell.encoder layer encoderId clockwise).InRange c := by
      simp only [KeycodeCell.InRange]
      omega
    have hbounds := KeycodeCell.mem_area hin
    rw [if_neg hout]
    exact Memory.frame_store _ hbounds.1 hbounds.2

/-- An entry write stays inside the area of the entries. -/
theorem frame_setEntry (start entries index : ℕ) {entry : List UInt8} (eeprom : Memory UInt8)
    (h : entry.length = 10) :
    Memory.Frame start (start + 10 * entries) eeprom
      (setEntry start entries index entry eeprom).2 := by
  unfold setEntry
  split_ifs with hout
  · exact Memory.Frame.refl _ _ _
  · exact Memory.frame_store _ (Nat.le_add_right _ _) (by omega)

theorem frame_setQmkSettings (c : Config L) (offset : ℕ) (value : UInt8)
    (eeprom : Memory UInt8) :
    Memory.Frame c.vialQmkSettingsEepromAddr c.vialTapDanceEepromAddr eeprom
      (dynamicKeymapSetQmkSettings c offset value eeprom) := by
  unfold dynamicKeymapSetQmkSettings
  split_ifs with hout
  · exact Memory.Frame.refl _ _ _
  · apply Memory.frame_store _ (Nat.le_add_right _ _)
    simp only [Options.vialTapDanceEepromAddr, List.length_singleton]
    omega

theorem frame_setBuffer (c : Config L) (vialUnlocked : Bool) (offset size p : ℕ)
    (data eeprom : Memory UInt8) :
    Memory.Frame c.dynamicKeymapEepromAddr c.vialEncodersEepromAddr eeprom
      (dynamicKeymapSetBuffer c vialUnlocked offset size p data eeprom).2 := by
  unfold dynamicKeymapSetBuffer
  by_cases hout : c.dynamicKeymapEepromSize ≤ offset ∨ c.dynamicKeymapEepromSize - offset < size
  · rw [if_pos hout]
    exact Memory.Frame.refl _ _ _
  · rw [if_neg hout]
    exact frame_eepromSetBuffer _ _ _ _ _ _ _

theorem frame_setLayoutOptions (c : Config L) (value : ℕ) (eeprom : Memory UInt8) :
    Memory.Frame c.viaEepromMagicAddr c.viaEepromConfigEnd eeprom
      (viaSetLayoutOptions c value eeprom) := by
  apply Memory.foldl_invariant (Memory.Frame _ _ eeprom) _ (Memory.Frame.refl _ _ _)
  intro m hm i hi
  rw [List.mem_range] at hi
  apply hm.trans
  apply Memory.frame_store
  · simp only [Options.viaEepromLayoutOptionsAddr]
    omega
  · simp only [Options.viaEepromConfigEnd, List.length_singleton]
    omega

theorem frame_setValid (c : Config L) (valid : Bool) (eeprom : Memory UInt8) :
    Memory.Frame c.viaEepromMagicAddr c.viaEepromConfigEnd eeprom
      (viaEepromSetValid c valid eeprom) := by
  apply Memory.frame_store _ (Nat.le_refl _)
  simp only [Options.viaEepromConfigEnd, Options.viaEepromLayoutOptionsAddr, List.length_cons,
    List.length_nil]
  omega

/-! ## The check for the bootloader keycode -/

theorem keycode_high_ne {low : UInt8} : keycode 0xFF low ≠ qkBoot := by
  rw [Ne, keycode_eq_qkBoot]
  rintro ⟨hhigh, -⟩
  exact absurd hhigh (by decide)

theorem keycode_low_ne {high : UInt8} : keycode high 0xFF ≠ qkBoot := by
  rw [Ne, keycode_eq_qkBoot]
  rintro ⟨-, hlow⟩
  exact absurd hlow (by decide)

/-- One round of the loop looks at two bytes and leaves no {lit}`QK_BOOT` there. -/
theorem guardWord_apply (p : ℕ) (data : Memory UInt8) (i : ℕ) :
    (∀ x, x < p + i ∨ p + i + 2 ≤ x → guardWord p data i x = data x) ∧
      keycode (guardWord p data i (p + i)) (guardWord p data i (p + i + 1)) ≠ qkBoot := by
  unfold guardWord
  split_ifs with hboot
  · refine ⟨fun x hx => ?_, ?_⟩
    · rcases hx with hx | hx
      · exact Memory.store_of_lt hx
      · exact Memory.store_of_ge hx
    · rw [Memory.store_head]
      exact keycode_high_ne
  · exact ⟨fun _ _ => rfl, hboot⟩

/-- The loop leaves no {lit}`QK_BOOT` at the places it looks at, and nothing changed
elsewhere. -/
theorem guardWords_apply (p o n : ℕ) (data : Memory UInt8) :
    (∀ x, x < p + o ∨ p + o + 2 * n ≤ x →
      (List.range n).foldl (fun data k => guardWord p data (o + 2 * k)) data x = data x) ∧
    ∀ k, k < n →
      keycode ((List.range n).foldl (fun data k => guardWord p data (o + 2 * k)) data
          (p + (o + 2 * k)))
        ((List.range n).foldl (fun data k => guardWord p data (o + 2 * k)) data
          (p + (o + 2 * k) + 1)) ≠ qkBoot := by
  induction n with
  | zero => exact ⟨fun _ _ => rfl, fun k hk => absurd hk (Nat.not_lt_zero k)⟩
  | succ n ih =>
    rcases ih with ⟨hsame, hguard⟩
    simp only [List.range_succ, List.foldl_append, List.foldl_cons, List.foldl_nil]
    generalize (List.range n).foldl (fun data k => guardWord p data (o + 2 * k)) data = data' at *
    rcases guardWord_apply p data' (o + 2 * n) with ⟨hsame', hguard'⟩
    constructor
    · intro x hx
      rw [hsame' x (by omega), hsame x (by omega)]
    · intro k hk
      by_cases hlast : k = n
      · subst hlast
        exact hguard'
      · have hlt : k < n := by omega
        rw [hsame' _ (by omega), hsame' _ (by omega)]
        exact hguard k hlt

theorem guardFirst_of_ne {target offset p : ℕ} {eeprom data : Memory UInt8} {x : ℕ}
    (h : x ≠ p) : guardFirst target offset p eeprom data x = data x := by
  unfold guardFirst
  split_ifs
  · rcases Nat.lt_or_gt_of_ne h with hlt | hgt
    · exact Memory.store_of_lt hlt
    · exact Memory.store_of_ge hgt
  · rfl

theorem guardLast_of_ne {target offset size p : ℕ} {eeprom data : Memory UInt8} {x : ℕ}
    (h : x ≠ p + size - 1) : guardLast target offset size p eeprom data x = data x := by
  unfold guardLast
  split_ifs
  · rcases Nat.lt_or_gt_of_ne h with hlt | hgt
    · exact Memory.store_of_lt hlt
    · exact Memory.store_of_ge hgt
  · rfl

/-- With the byte in front of it, the first byte is not {lit}`QK_BOOT`. -/
theorem guardFirst_guard {target offset p : ℕ} {eeprom data : Memory UInt8}
    (h : offset % 2 ≠ 0) :
    keycode (eeprom (target - 1)) (guardFirst target offset p eeprom data p) ≠ qkBoot := by
  unfold guardFirst
  split_ifs with hboot
  · rw [Memory.store_head]
    exact keycode_low_ne
  · exact fun heq => hboot ⟨h, heq⟩

/-- With the byte behind it, the last byte is not {lit}`QK_BOOT`. -/
theorem guardLast_guard {target offset size p : ℕ} {eeprom data : Memory UInt8}
    (h : (offset + size) % 2 ≠ 0) :
    keycode (guardLast target offset size p eeprom data (p + size - 1)) (eeprom (target + size)) ≠
      qkBoot := by
  unfold guardLast
  split_ifs with hboot
  · rw [Memory.store_head]
    exact keycode_high_ne
  · exact fun heq => hboot ⟨h, heq⟩

/-- A buffer that is not empty: the check covers the keycodes inside it, and the two
that reach over its ends. -/
theorem guardBuffer_guard (target offset : ℕ) {size : ℕ} (p : ℕ) (eeprom data : Memory UInt8)
    (hpos : 0 < size) (hsize : size < 65536) :
    (∀ i, i + 1 < size → (offset + i) % 2 = 0 →
      keycode (guardBuffer target offset size p eeprom data (p + i))
        (guardBuffer target offset size p eeprom data (p + i + 1)) ≠ qkBoot) ∧
    (offset % 2 ≠ 0 →
      keycode (eeprom (target - 1)) (guardBuffer target offset size p eeprom data p) ≠ qkBoot) ∧
    ((offset + size) % 2 ≠ 0 →
      keycode (guardBuffer target offset size p eeprom data (p + size - 1))
        (eeprom (target + size)) ≠ qkBoot) := by
  set o := if offset % 2 ≠ 0 then 1 else 0 with ho
  set sz := if (offset + size) % 2 ≠ 0 then (size + 65535) % 65536 else size with hsz
  set first := guardFirst target offset p eeprom data with hfirst
  set last := guardLast target offset size p eeprom first with hlast
  have heq : guardBuffer target offset size p eeprom data = (List.range ((sz + 1 - o) / 2)).foldl
      (fun data k => guardWord p data (o + 2 * k)) last := rfl
  rcases guardWords_apply p o ((sz + 1 - o) / 2) last with ⟨hsame, hguard⟩
  rw [← heq] at hsame hguard
  have hoval : o = offset % 2 := by
    rw [ho]
    split_ifs <;> omega
  have hszval : sz = size - (offset + size) % 2 := by
    rw [hsz]
    split_ifs <;> omega
  refine ⟨fun i hi heven => ?_, fun hodd => ?_, fun hodd => ?_⟩
  · -- inside the buffer the loop comes to every aligned keycode
    have hk := hguard ((i - o) / 2) (by omega)
    rwa [show o + 2 * ((i - o) / 2) = i by omega] at hk
  · -- the first byte is behind the loop, and not the last byte of a misaligned end
    rw [hsame p (by omega)]
    by_cases hone : size = 1
    · have hnot : ¬ (offset + size) % 2 ≠ 0 := by omega
      have hskip : last = first := if_neg fun hboot => hnot hboot.1
      rw [hskip]
      exact guardFirst_guard hodd
    · rw [hlast, guardLast_of_ne (by omega)]
      exact guardFirst_guard hodd
  · rw [hsame _ (by omega)]
    exact guardLast_guard hodd

/-- While the keyboard is locked a buffer write puts {lit}`QK_BOOT` nowhere. -/
theorem setBuffer_locked (c : Config L) (offset size p : ℕ) (data eeprom : Memory UInt8) (k : ℕ)
    (h : keycode
        ((dynamicKeymapSetBuffer c false offset size p data eeprom).2
          (c.dynamicKeymapEepromAddr + 2 * k))
        ((dynamicKeymapSetBuffer c false offset size p data eeprom).2
          (c.dynamicKeymapEepromAddr + 2 * k + 1)) = qkBoot) :
    keycode (eeprom (c.dynamicKeymapEepromAddr + 2 * k))
      (eeprom (c.dynamicKeymapEepromAddr + 2 * k + 1)) = qkBoot := by
  unfold dynamicKeymapSetBuffer at h
  by_cases hout : c.dynamicKeymapEepromSize ≤ offset ∨ c.dynamicKeymapEepromSize - offset < size
  · rw [if_pos hout] at h
    exact h
  rw [if_neg hout] at h
  simp only [Bool.false_eq_true, if_false] at h
  rw [eepromSetBuffer_apply, eepromSetBuffer_apply] at h
  have hsize : c.dynamicKeymapEepromSize ≤ 65535 := by
    have hareas := KeycodeCell.areas_le c
    have hend := c.keyOverrideEnd_le
    have hmax := c.maxAddr_le
    have hroom := c.macroAddr_le
    simp only [Options.vialEncodersEepromAddr] at hareas
    omega
  by_cases hempty : size = 0
  · rw [if_neg (by omega), if_neg (by omega)] at h
    exact h
  have hpos : 0 < size := by omega
  have hlt : size < 65536 := by omega
  rcases guardBuffer_guard (c.dynamicKeymapEepromAddr + offset) offset p eeprom data hpos hlt with
    ⟨hinside, hfirst, hlast⟩
  by_cases hlow : offset ≤ 2 * k ∧ 2 * k < offset + size
  · rw [if_pos (by omega)] at h
    by_cases hhigh : 2 * k + 1 < offset + size
    · rw [if_pos (by omega)] at h
      refine absurd h ?_
      have hword := hinside (2 * k - offset) (by omega) (by omega)
      rwa [show p + (c.dynamicKeymapEepromAddr + 2 * k - (c.dynamicKeymapEepromAddr + offset)) =
          p + (2 * k - offset) by omega,
        show p + (c.dynamicKeymapEepromAddr + 2 * k + 1 - (c.dynamicKeymapEepromAddr + offset)) =
          p + (2 * k - offset) + 1 by omega]
    · rw [if_neg (by omega)] at h
      refine absurd h ?_
      have hword := hlast (by omega)
      rwa [show p + (c.dynamicKeymapEepromAddr + 2 * k - (c.dynamicKeymapEepromAddr + offset)) =
          p + size - 1 by omega,
        show c.dynamicKeymapEepromAddr + 2 * k + 1 =
          c.dynamicKeymapEepromAddr + offset + size by omega]
  · rw [if_neg (by omega)] at h
    by_cases hhigh : 2 * k + 1 = offset
    · rw [if_pos (by omega)] at h
      refine absurd h ?_
      have hword := hfirst (by omega)
      rwa [show c.dynamicKeymapEepromAddr + 2 * k = c.dynamicKeymapEepromAddr + offset - 1 by
          omega,
        show p + (c.dynamicKeymapEepromAddr + offset - 1 + 1 -
          (c.dynamicKeymapEepromAddr + offset)) = p by omega]
    · rw [if_neg (by omega)] at h
      exact h

end Vial
end VialQmk
