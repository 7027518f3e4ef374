import VialQmk.Vial.RawHid

/-!
# Vial - buffer writes to the keymap

What {lit}`dynamic_keymap_set_buffer` does to the report it gets and to the EEPROM.  The
check of the locked keyboard works in the report: it goes over the keycodes the write
touches, two of which may stand half in the report and half in the EEPROM.

Main results:

- Theorem {lit}`guardBuffer_apply`: the check turns into 0xFF exactly the bytes of the
  report that would be part of {lit}`QK_BOOT`.
- Theorem {lit}`inBuffers_iff`: the call stays in its buffers and stores what it was given,
  unless an empty buffer at an odd offset reaches the check.
-/

namespace VialQmk
namespace Vial

variable {L : Type}

/-! ## What would be written -/

/-- The byte of the keymap at {lit}`j` if the report was written as it is. -/
def wouldBe (c : Config L) (offset size p : ℕ) (data eeprom : Memory UInt8) (j : ℕ) : UInt8 :=
  if offset ≤ j ∧ j < offset + size then data (p + (j - offset))
  else eeprom (c.dynamicKeymapEepromAddr + j)

/-- The keycode the byte {lit}`j` is part of would become {lit}`QK_BOOT`. -/
def WouldBoot (c : Config L) (offset size p : ℕ) (data eeprom : Memory UInt8) (j : ℕ) : Prop :=
  keycode (wouldBe c offset size p data eeprom (j / 2 * 2))
    (wouldBe c offset size p data eeprom (j / 2 * 2 + 1)) = qkBoot

instance (c : Config L) (offset size p : ℕ) (data eeprom : Memory UInt8) (j : ℕ) :
    Decidable (WouldBoot c offset size p data eeprom j) :=
  inferInstanceAs (Decidable (_ = _))

/-- The request reaches over the end of the keymap. -/
def Refused (c : Config L) (offset size : ℕ) : Prop :=
  c.dynamicKeymapEepromSize ≤ offset ∨ c.dynamicKeymapEepromSize < offset + size

/-- A buffer write that keeps to its buffers, for the bytes {lit}`data[0]` to
{lit}`data[size - 1]` and whatever stands around them. -/
structure InBuffers (c : Config L) (vialUnlocked : Bool) (offset size p : ℕ)
    (data eeprom : Memory UInt8) : Prop where
  reads : ∀ data', data'.load p size = data.load p size →
    (dynamicKeymapSetBuffer c vialUnlocked offset size p data' eeprom).2 =
        (dynamicKeymapSetBuffer c vialUnlocked offset size p data eeprom).2 ∧
      (dynamicKeymapSetBuffer c vialUnlocked offset size p data' eeprom).1.load p size =
        (dynamicKeymapSetBuffer c vialUnlocked offset size p data eeprom).1.load p size
  modifies : ∀ data', data'.load p size = data.load p size →
    Memory.Frame p (p + size) data'
      (dynamicKeymapSetBuffer c vialUnlocked offset size p data' eeprom).1
  touches : ∀ x, (dynamicKeymapSetBuffer c vialUnlocked offset size p data eeprom).2 x ≠ eeprom x →
    ∃ i < size, x = c.dynamicKeymapEepromAddr + (offset + i) ∧
      offset + i < c.dynamicKeymapEepromSize
  refused : Refused c offset size →
    dynamicKeymapSetBuffer c vialUnlocked offset size p data eeprom = (data, eeprom)
  stored : ¬Refused c offset size → ∀ i < size,
    ¬(vialUnlocked = false ∧ WouldBoot c offset size p data eeprom (offset + i)) →
      (dynamicKeymapSetBuffer c vialUnlocked offset size p data eeprom).2
        (c.dynamicKeymapEepromAddr + (offset + i)) = data (p + i)
  noBoot : ¬Refused c offset size → ∀ i < size,
    vialUnlocked = false → WouldBoot c offset size p data eeprom (offset + i) →
      keycode ((dynamicKeymapSetBuffer c vialUnlocked offset size p data eeprom).2
          (c.dynamicKeymapEepromAddr + (offset + i) / 2 * 2))
        ((dynamicKeymapSetBuffer c vialUnlocked offset size p data eeprom).2
          (c.dynamicKeymapEepromAddr + ((offset + i) / 2 * 2 + 1))) ≠ qkBoot

/-! ## The check -/

theorem guardWord_eq (p : ℕ) (data : Memory UInt8) (i x : ℕ) :
    guardWord p data i x =
      if (x = p + i ∨ x = p + i + 1) ∧ keycode (data (p + i)) (data (p + i + 1)) = qkBoot then 0xFF
      else data x := by
  unfold guardWord
  by_cases hboot : keycode (data (p + i)) (data (p + i + 1)) = qkBoot
  · rw [if_pos hboot]
    by_cases hx : x = p + i ∨ x = p + i + 1
    · rw [if_pos ⟨hx, hboot⟩]
      rcases hx with rfl | rfl
      · exact Memory.store_head _ _ _ _
      · exact Memory.store_second _ _ _ _ _
    · rw [if_neg fun h => hx h.1]
      rcases Nat.lt_or_ge x (p + i) with hlt | hge
      · exact Memory.store_of_lt hlt
      · exact Memory.store_of_ge (by simp; omega)
  · rw [if_neg hboot, if_neg fun h => hboot h.2]

/-- The loop goes over {lit}`n` keycodes from {lit}`data[o]` on, each of which it sees as
it was. -/
theorem guardWords_eq (p o n : ℕ) (data : Memory UInt8) (x : ℕ) :
    (List.range n).foldl (fun data k => guardWord p data (o + 2 * k)) data x =
      if p + o ≤ x ∧ x < p + o + 2 * n ∧
        keycode (data (p + o + (x - (p + o)) / 2 * 2))
          (data (p + o + (x - (p + o)) / 2 * 2 + 1)) = qkBoot then 0xFF
      else data x := by
  induction n with
  | zero =>
    rw [if_neg (by omega)]
    rfl
  | succ n ih =>
    have hsame := (guardWords_apply p o n data).1
    simp only [List.range_succ, List.foldl_append, List.foldl_cons, List.foldl_nil]
    generalize (List.range n).foldl (fun data k => guardWord p data (o + 2 * k)) data = data' at *
    rw [guardWord_eq, hsame _ (by omega), hsame _ (by omega), ih]
    by_cases hx : x = p + (o + 2 * n) ∨ x = p + (o + 2 * n) + 1
    · have hcell : p + o + (x - (p + o)) / 2 * 2 = p + (o + 2 * n) := by omega
      rw [hcell]
      by_cases hboot : keycode (data (p + (o + 2 * n))) (data (p + (o + 2 * n) + 1)) = qkBoot
      · rw [if_pos ⟨hx, hboot⟩, if_pos ⟨by omega, by omega, hboot⟩]
      · rw [if_neg fun h => hboot h.2, if_neg fun h => hboot h.2.2, if_neg fun h => hboot h.2.2]
    · rw [if_neg fun h => hx h.1]
      refine if_congr ?_ rfl rfl
      constructor
      · rintro ⟨hle, hlt, hboot⟩
        exact ⟨hle, by omega, hboot⟩
      · rintro ⟨hle, hlt, hboot⟩
        exact ⟨hle, by omega, hboot⟩

theorem guardFirst_eq (target offset p : ℕ) (eeprom data : Memory UInt8) (x : ℕ) :
    guardFirst target offset p eeprom data x =
      if x = p ∧ offset % 2 ≠ 0 ∧ keycode (eeprom (target - 1)) (data p) = qkBoot then 0xFF
      else data x := by
  by_cases hx : x = p
  · subst hx
    unfold guardFirst
    by_cases hboot : offset % 2 ≠ 0 ∧ keycode (eeprom (target - 1)) (data x) = qkBoot
    · rw [if_pos hboot, if_pos ⟨rfl, hboot⟩, Memory.store_head]
    · rw [if_neg hboot, if_neg fun h => hboot h.2]
  · rw [guardFirst_of_ne hx, if_neg fun h => hx h.1]

theorem guardLast_eq (target offset size p : ℕ) (eeprom data : Memory UInt8) (x : ℕ) :
    guardLast target offset size p eeprom data x =
      if x = p + size - 1 ∧ (offset + size) % 2 ≠ 0 ∧
        keycode (data (p + size - 1)) (eeprom (target + size)) = qkBoot then 0xFF
      else data x := by
  by_cases hx : x = p + size - 1
  · subst hx
    unfold guardLast
    by_cases hboot : (offset + size) % 2 ≠ 0 ∧
        keycode (data (p + size - 1)) (eeprom (target + size)) = qkBoot
    · rw [if_pos hboot, if_pos ⟨rfl, hboot⟩, Memory.store_head]
    · rw [if_neg hboot, if_neg fun h => hboot h.2]
  · rw [guardLast_of_ne hx, if_neg fun h => hx h.1]

section Check

variable {c : Config L} {offset size p : ℕ} {data eeprom : Memory UInt8}

theorem wouldBe_inside {i : ℕ} (hi : i < size) :
    wouldBe c offset size p data eeprom (offset + i) = data (p + i) := by
  rw [wouldBe, if_pos (by omega), Nat.add_sub_cancel_left]

theorem wouldBe_outside {j : ℕ} (hj : j < offset ∨ offset + size ≤ j) :
    wouldBe c offset size p data eeprom j = eeprom (c.dynamicKeymapEepromAddr + j) := by
  rw [wouldBe, if_neg (by omega)]

/-- A keycode inside the report. -/
theorem wouldBoot_inside {i : ℕ} (heven : (offset + i) % 2 = 0) (hi : i + 1 < size) {j : ℕ}
    (hj : j = offset + i ∨ j = offset + i + 1) :
    WouldBoot c offset size p data eeprom j ↔
      keycode (data (p + i)) (data (p + i + 1)) = qkBoot := by
  have hcell : j / 2 * 2 = offset + i := by omega
  rw [WouldBoot, hcell, wouldBe_inside (by omega), Nat.add_assoc, wouldBe_inside hi, Nat.add_assoc]

/-- The keycode that ends with the first byte of the report. -/
theorem wouldBoot_first (hodd : offset % 2 ≠ 0) (hpos : 0 < size) :
    WouldBoot c offset size p data eeprom offset ↔
      keycode (eeprom (c.dynamicKeymapEepromAddr + offset - 1)) (data p) = qkBoot := by
  have hcell : offset / 2 * 2 = offset - 1 := by omega
  have hnext : offset - 1 + 1 = offset + 0 := by omega
  rw [WouldBoot, hcell, wouldBe_outside (by omega), hnext, wouldBe_inside hpos,
    Nat.add_sub_assoc (by omega), Nat.add_zero]

/-- The keycode that starts with the last byte of the report. -/
theorem wouldBoot_last (hodd : (offset + size) % 2 ≠ 0) (hpos : 0 < size) :
    WouldBoot c offset size p data eeprom (offset + (size - 1)) ↔
      keycode (data (p + size - 1)) (eeprom (c.dynamicKeymapEepromAddr + offset + size)) =
        qkBoot := by
  have hcell : (offset + (size - 1)) / 2 * 2 = offset + (size - 1) := by omega
  have hnext : offset + (size - 1) + 1 = offset + size := by omega
  rw [WouldBoot, hcell, wouldBe_inside (by omega), hnext, wouldBe_outside (by omega),
    Nat.add_sub_assoc (by omega), Nat.add_assoc]

/-- The check turns into 0xFF the bytes that would be part of {lit}`QK_BOOT`. -/
theorem guardBuffer_apply (hsize : size < 65536) (hempty : size = 0 → offset % 2 = 0) (x : ℕ) :
    guardBuffer (c.dynamicKeymapEepromAddr + offset) offset size p eeprom data x =
      if (p ≤ x ∧ x < p + size) ∧ WouldBoot c offset size p data eeprom (offset + (x - p)) then 0xFF
      else data x := by
  set o := if offset % 2 ≠ 0 then 1 else 0 with ho
  set sz := if (offset + size) % 2 ≠ 0 then (size + 65535) % 65536 else size with hsz
  set first := guardFirst (c.dynamicKeymapEepromAddr + offset) offset p eeprom data with hfirst
  set last := guardLast (c.dynamicKeymapEepromAddr + offset) offset size p eeprom first with hlast
  have heq : guardBuffer (c.dynamicKeymapEepromAddr + offset) offset size p eeprom data =
      (List.range ((sz + 1 - o) / 2)).foldl (fun data k => guardWord p data (o + 2 * k)) last := rfl
  have hoval : o = offset % 2 := by
    rw [ho]
    split_ifs <;> omega
  have hszval : sz = size - (offset + size) % 2 := by
    rw [hsz]
    split_ifs <;> omega
  -- between the two halves the check sees the report as it was
  have hmiddle : ∀ y, p + o ≤ y → y < p + sz → last y = data y := by
    intro y hle hlt
    rw [hlast, guardLast_eq, if_neg (by omega), hfirst, guardFirst_eq, if_neg (by omega)]
  rw [heq, guardWords_eq]
  by_cases hx : p + o ≤ x ∧ x < p + o + 2 * ((sz + 1 - o) / 2)
  · -- a keycode inside the report
    have hcell := @wouldBoot_inside L c offset size p data eeprom (o + (x - (p + o)) / 2 * 2)
      (by omega) (by omega) (offset + (x - p)) (by omega)
    rw [← Nat.add_assoc] at hcell
    rw [hmiddle _ (by omega) (by omega), hmiddle _ (by omega) (by omega), hmiddle x (by omega)
      (by omega)]
    refine if_congr ?_ rfl rfl
    rw [hcell]
    constructor
    · rintro ⟨-, -, hboot⟩
      exact ⟨by omega, hboot⟩
    · rintro ⟨-, hboot⟩
      exact ⟨hx.1, hx.2, hboot⟩
  rw [if_neg fun h => hx ⟨h.1, h.2.1⟩, hlast, guardLast_eq, hfirst]
  by_cases hwindow : p ≤ x ∧ x < p + size
  · by_cases hstart : x = p ∧ offset % 2 ≠ 0
    · rcases hstart with ⟨rfl, hodd⟩
      have hboot := @wouldBoot_first L c offset size x data eeprom hodd (by omega)
      rw [if_neg (by omega), guardFirst_eq, Nat.sub_self, Nat.add_zero]
      refine if_congr ?_ rfl rfl
      rw [hboot]
      exact ⟨fun h => ⟨hwindow, h.2.2⟩, fun h => ⟨rfl, hodd, h.2⟩⟩
    · have hend : x = p + size - 1 ∧ (offset + size) % 2 ≠ 0 := by omega
      have hlastOf : x - p = size - 1 := by omega
      have hboot := @wouldBoot_last L c offset size p data eeprom hend.2 (by omega)
      have hskip : ∀ y, y = p + size - 1 →
          guardFirst (c.dynamicKeymapEepromAddr + offset) offset p eeprom data y = data y := by
        intro y hy
        rw [guardFirst_eq, if_neg (by omega)]
      rw [hskip x hend.1, hskip _ rfl, hlastOf]
      refine if_congr ?_ rfl rfl
      rw [hboot]
      exact ⟨fun h => ⟨hwindow, h.2.2⟩, fun h => ⟨hend.1, hend.2, h.2⟩⟩
  · rw [if_neg (by omega), guardFirst_eq, if_neg (by omega), if_neg fun h => hwindow h.1]

end Check

/-! ## The call -/

section Call

variable {c : Config L} {vialUnlocked : Bool} {offset size p : ℕ} {data eeprom : Memory UInt8}

theorem Refused.eq (h : Refused c offset size) :
    dynamicKeymapSetBuffer c vialUnlocked offset size p data eeprom = (data, eeprom) := by
  unfold Refused at h
  exact if_pos (by omega)

/-- The report after the check. -/
def checked (c : Config L) (vialUnlocked : Bool) (offset size p : ℕ) (data eeprom : Memory UInt8) :
    Memory UInt8 :=
  if vialUnlocked then data
  else guardBuffer (c.dynamicKeymapEepromAddr + offset) offset size p eeprom data

theorem setBuffer_of_fits (h : ¬Refused c offset size) :
    dynamicKeymapSetBuffer c vialUnlocked offset size p data eeprom =
      (checked c vialUnlocked offset size p data eeprom,
        eepromSetBuffer c.dynamicKeymapEepromAddr c.dynamicKeymapEepromSize offset size p
          (checked c vialUnlocked offset size p data eeprom) eeprom) := by
  unfold Refused at h
  exact if_neg (by omega)

/-- What an accepted write leaves in the EEPROM. -/
theorem setBuffer_eeprom (h : ¬Refused c offset size) (x : ℕ) :
    (dynamicKeymapSetBuffer c vialUnlocked offset size p data eeprom).2 x =
      if c.dynamicKeymapEepromAddr + offset ≤ x ∧ x < c.dynamicKeymapEepromAddr + offset + size then
        checked c vialUnlocked offset size p data eeprom
          (p + (x - (c.dynamicKeymapEepromAddr + offset)))
      else eeprom x := by
  unfold Refused at h
  rw [setBuffer_of_fits (by unfold Refused; omega)]
  dsimp only
  rw [eepromSetBuffer_apply]
  exact if_congr (by omega) rfl rfl

/-- The report after the check, byte by byte. -/
theorem checked_apply (hsize : size < 65536)
    (hempty : vialUnlocked = false → size = 0 → offset % 2 = 0) (x : ℕ) :
    checked c vialUnlocked offset size p data eeprom x =
      if (p ≤ x ∧ x < p + size) ∧ vialUnlocked = false ∧
        WouldBoot c offset size p data eeprom (offset + (x - p)) then 0xFF
      else data x := by
  unfold checked
  cases vialUnlocked with
  | true => rw [if_pos rfl, if_neg fun h => Bool.noConfusion h.2.1]
  | false =>
    rw [if_neg Bool.false_ne_true, guardBuffer_apply hsize (hempty rfl)]
    exact if_congr ⟨fun h => ⟨h.1, rfl, h.2⟩, fun h => ⟨h.1, h.2.2⟩⟩ rfl rfl

theorem wouldBe_congr {data' : Memory UInt8} (h : data'.load p size = data.load p size) (j : ℕ) :
    wouldBe c offset size p data' eeprom j = wouldBe c offset size p data eeprom j := by
  unfold wouldBe
  split_ifs with hj
  · exact Memory.load_eq_iff.mp h _ (Nat.le_add_right _ _) (by omega)
  · rfl

/-- The check looks at the report only between {lit}`data[0]` and {lit}`data[size - 1]`. -/
theorem checked_congr (hsize : size < 65536)
    (hempty : vialUnlocked = false → size = 0 → offset % 2 = 0) {data' : Memory UInt8}
    (h : data'.load p size = data.load p size) {x : ℕ} (hle : p ≤ x) (hlt : x < p + size) :
    checked c vialUnlocked offset size p data' eeprom x =
      checked c vialUnlocked offset size p data eeprom x := by
  rw [checked_apply hsize hempty, checked_apply hsize hempty, Memory.load_eq_iff.mp h x hle hlt]
  refine if_congr ?_ rfl rfl
  rw [WouldBoot, WouldBoot, wouldBe_congr h, wouldBe_congr h]

/-- The keycodes of the keymap after an accepted write. -/
theorem setBuffer_cell (h : ¬Refused c offset size) (hsize : size < 65536)
    (hempty : vialUnlocked = false → size = 0 → offset % 2 = 0) (j : ℕ) :
    (dynamicKeymapSetBuffer c vialUnlocked offset size p data eeprom).2
        (c.dynamicKeymapEepromAddr + j) =
      if (offset ≤ j ∧ j < offset + size) ∧ vialUnlocked = false ∧
        WouldBoot c offset size p data eeprom j then 0xFF
      else wouldBe c offset size p data eeprom j := by
  rw [setBuffer_eeprom h, wouldBe]
  by_cases hj : offset ≤ j ∧ j < offset + size
  · have hi : c.dynamicKeymapEepromAddr + j - (c.dynamicKeymapEepromAddr + offset) = j - offset := by
      omega
    have hback : offset + (p + (j - offset) - p) = j := by omega
    rw [if_pos (by omega), hi, checked_apply hsize hempty, hback, if_pos hj]
    exact if_congr ⟨fun h => ⟨hj, h.2⟩, fun h => ⟨by omega, h.2⟩⟩ rfl rfl
  · rw [if_neg (by omega), if_neg fun h => hj h.1, if_neg hj]

/-- A buffer that does not get into the wrapped loop stays in its buffers. -/
theorem inBuffers (hsize : size < 65536)
    (hempty : vialUnlocked = false → size = 0 → offset < c.dynamicKeymapEepromSize →
      offset % 2 = 0) : InBuffers c vialUnlocked offset size p data eeprom := by
  by_cases hrefused : Refused c offset size
  · have hsame : ∀ data', dynamicKeymapSetBuffer c vialUnlocked offset size p data' eeprom =
        (data', eeprom) := fun data' => hrefused.eq
    constructor
    · intro data' hdata
      rw [hsame, hsame]
      exact ⟨rfl, hdata⟩
    · intro data' _
      rw [hsame]
      exact Memory.Frame.refl _ _ _
    · intro x hx
      rw [hsame] at hx
      exact absurd rfl hx
    · exact fun _ => hsame data
    · exact fun h => absurd hrefused h
    · exact fun h => absurd hrefused h
  have hfits := hrefused
  unfold Refused at hfits
  have hguard : vialUnlocked = false → size = 0 → offset % 2 = 0 :=
    fun hlocked hzero => hempty hlocked hzero (by omega)
  constructor
  · intro data' hdata
    have hchecked : ∀ x, p ≤ x → x < p + size → checked c vialUnlocked offset size p data' eeprom x =
        checked c vialUnlocked offset size p data eeprom x :=
      fun x hle hlt => checked_congr hsize hguard hdata hle hlt
    constructor
    · funext x
      rw [setBuffer_eeprom hrefused, setBuffer_eeprom hrefused]
      split_ifs with hx
      · exact hchecked _ (Nat.le_add_right _ _) (by omega)
      · rfl
    · rw [setBuffer_of_fits hrefused, setBuffer_of_fits hrefused]
      exact Memory.load_congr hchecked
  · intro data' _ x hx
    rw [setBuffer_of_fits hrefused]
    dsimp only
    rw [checked_apply hsize hguard, if_neg fun h => by omega]
  · intro x hx
    rw [setBuffer_eeprom hrefused] at hx
    have hinside : c.dynamicKeymapEepromAddr + offset ≤ x ∧
        x < c.dynamicKeymapEepromAddr + offset + size := by
      by_contra hout
      rw [if_neg hout] at hx
      exact hx rfl
    exact ⟨x - (c.dynamicKeymapEepromAddr + offset), by omega, by omega, by omega⟩
  · exact fun h => absurd h hrefused
  · intro _ i hi hnot
    rw [setBuffer_cell hrefused hsize hguard, if_neg fun h => hnot h.2, wouldBe_inside hi]
  · intro _ i hi hlocked hboot
    have hcell : ∀ j, j / 2 = (offset + i) / 2 → WouldBoot c offset size p data eeprom j := by
      intro j hj
      unfold WouldBoot at hboot ⊢
      rwa [hj]
    -- one of the two bytes is in the report, and becomes 0xFF
    rw [setBuffer_cell hrefused hsize hguard, setBuffer_cell hrefused hsize hguard]
    by_cases hhigh : offset ≤ (offset + i) / 2 * 2
    · rw [if_pos ⟨by omega, hlocked, hcell _ (by omega)⟩]
      exact keycode_high_ne
    · rw [@if_pos (_ ∧ _ ∧ _) _ ⟨by omega, hlocked, hcell ((offset + i) / 2 * 2 + 1) (by omega)⟩]
      exact keycode_low_ne

/-- With an empty buffer at an odd offset {lit}`chk_sz` wraps around, and the check goes over
the memory behind the report. -/
theorem not_inBuffers_empty (hodd : offset % 2 ≠ 0) (hlt : offset < c.dynamicKeymapEepromSize) :
    ¬InBuffers c false offset 0 p data eeprom := by
  intro h
  set around : Memory UInt8 := fun x => if x = p + 1 then 0x7C else 0 with haround
  have hframe := h.modifies around rfl (p + 1) (Or.inr (Nat.le_succ p))
  have hfits : ¬Refused c offset 0 := by
    unfold Refused
    omega
  rw [setBuffer_of_fits hfits, checked, if_neg Bool.false_ne_true] at hframe
  unfold guardBuffer at hframe
  have hwrap : (offset + 0) % 2 ≠ 0 := hodd
  dsimp only at hframe
  rw [if_pos hodd, if_pos hwrap, guardWords, guardWords_eq] at hframe
  have hlast : ∀ y, p + 1 ≤ y →
      guardLast (c.dynamicKeymapEepromAddr + offset) offset 0 p eeprom
        (guardFirst (c.dynamicKeymapEepromAddr + offset) offset p eeprom around) y = around y := by
    intro y hy
    rw [guardLast_of_ne (by omega), guardFirst_of_ne (by omega)]
  have hcell : p + 1 + (p + 1 - (p + 1)) / 2 * 2 = p + 1 := by omega
  have hone : around (p + 1) = 0x7C := if_pos rfl
  have htwo : around (p + 1 + 1) = 0 := if_neg (by omega)
  rw [hcell, hlast _ (Nat.le_refl _), hlast _ (Nat.le_succ _), hone, htwo,
    if_pos ⟨Nat.le_refl _, by omega, keycode_eq_qkBoot.mpr ⟨rfl, rfl⟩⟩] at hframe
  exact absurd hframe (by decide)

end Call

/-- A buffer write of at most 28 bytes stays in its buffers and stores what it was given if
and only if it is not an empty one at an odd offset of the keymap while the keyboard is
locked. -/
theorem inBuffers_iff (c : Config L) (vialUnlocked : Bool) (offset : ℕ) {size : ℕ}
    (hsize : size ≤ 28) (p : ℕ) (data eeprom : Memory UInt8) :
    InBuffers c vialUnlocked offset size p data eeprom ↔
      ¬(vialUnlocked = false ∧ size = 0 ∧ offset % 2 ≠ 0 ∧
        offset < c.dynamicKeymapEepromSize) := by
  constructor
  · rintro h ⟨rfl, rfl, hodd, hlt⟩
    exact not_inBuffers_empty hodd hlt h
  · intro h
    apply inBuffers (by omega)
    intro hlocked hzero hlt
    by_contra hodd
    exact h ⟨hlocked, hzero, hodd, hlt⟩

/-- The report that writes one byte to the small keyboard. -/
theorem inBuffers_oneByte :
    InBuffers smallKeyboard false 1 1 4
      (buffer smallState (inputOf [0x13, 0, 1, 1, 0x2C]).report) smallState.eeprom := by
  apply (inBuffers_iff smallKeyboard false 1 (by decide) 4 _ _).mpr
  exact fun h => absurd h.2.1 (by decide)

/-- The empty report at offset 1 reaches outside of its buffer. -/
theorem not_inBuffers_emptyReport :
    ¬∀ (vialUnlocked : Bool) (offset size p : ℕ) (data eeprom : Memory UInt8), size ≤ 28 →
      InBuffers smallKeyboard vialUnlocked offset size p data eeprom := by
  intro h
  have hempty := h false 1 0 4 (buffer smallState (inputOf [0x13, 0, 1, 0]).report)
    smallState.eeprom (by decide)
  exact not_inBuffers_empty (by decide) (by decide) hempty

/-- {lit}`raw_hid_receive` forwards the reports of at most 28 bytes. -/
theorem rawHidCommand_setBuffer (c : Config L) (r : Readings) {data : Memory UInt8} (s : State L)
    (hid : data 0 = 0x13) (hsize : (data 3).toNat ≤ 28) :
    rawHidCommand c r data s =
      ((dynamicKeymapSetBuffer c s.vialUnlocked (bufferOffset data) (data 3).toNat 4 data
        s.eeprom).1, { s with eeprom := (dynamicKeymapSetBuffer c s.vialUnlocked
          (bufferOffset data) (data 3).toNat 4 data s.eeprom).2 }) := by
  unfold rawHidCommand
  rw [hid]
  exact if_pos hsize

end Vial
end VialQmk
