import VialQmk.WearLeveling.BackingStore
import Mathlib.Algebra.GroupWithZero.Nat
import Mathlib.Data.List.GetD

/-!
# Wear leveling - sectors of the embedded flash

{lit}`wear_leveling_efl.c`: the driver looks for sectors that hold the backing store, forwards
from a given sector or backwards from the end of the flash, and erases them later.

Main results:

- Definition {lit}`backingStoreInit`: the search; it may halt.
- Definition {lit}`backingStoreErase`: the sectors that are erased.
- Theorem {lit}`sound_iff`: exactly when the search leaves the driver with sectors of the flash
  that hold the backing store.
-/

namespace VialQmk
namespace WearLeveling
namespace Efl

/-! ## The flash -/

/-- {lit}`flash_descriptor_t`: contiguous sectors in ascending order.  Their number has 16 bits,
their offsets have 32. -/
structure Descriptor where
  start : ℕ
  sizes : List ℕ
  sectorsCount_lt : sizes.length < 2 ^ 16
  end_lt : start + sizes.sum < 2 ^ 32

def Descriptor.sectorsCount (d : Descriptor) : ℕ :=
  d.sizes.length

/-- {lit}`flashGetSectorSize` -/
def Descriptor.size (d : Descriptor) (sector : ℕ) : ℕ :=
  d.sizes.getD sector 0

/-- {lit}`flashGetSectorOffset` -/
def Descriptor.offset (d : Descriptor) (sector : ℕ) : ℕ :=
  d.start + (d.sizes.take sector).sum

/-- {lit}`first_sector`, {lit}`sector_count` and {lit}`base_offset` -/
structure Selection where
  firstSector : ℕ
  sectorCount : ℕ
  baseOffset : ℕ
deriving DecidableEq

/-- {lit}`UINT16_MAX` -/
def uint16Max : ℕ := 65535

/-- {lit}`UINT32_MAX` -/
def uint32Max : ℕ := 4294967295

/-! ## The search -/

variable (c : Config) (d : Descriptor) (flashSize : ℕ)

/-- The loop forwards from {lit}`first`, with so many rounds to go. -/
def searchForwards (first : ℕ) : ℕ → ℕ → ℕ → Selection
  | 0, _, _ => ⟨first, uint16Max, uint32Max⟩
  | rounds + 1, i, counter =>
    let counter := (counter + d.size (first + i)) % 2 ^ 32
    if counter ≥ c.backingSize then ⟨first, i + 1, d.offset first⟩
    else searchForwards first rounds (i + 1) counter

/-- The loop backwards; {lit}`first` sectors are still to be seen. -/
def searchBackwards (sel : Selection) : ℕ → ℕ → ℕ → Selection
  | 0, _, _ => sel
  | first + 1, lastSector, counter =>
    let sel := { sel with firstSector := first }
    if d.offset first ≥ flashSize then searchBackwards sel first first counter
    else
      let counter := (counter + d.size first) % 2 ^ 32
      if counter ≥ c.backingSize then ⟨first, lastSector - first, d.offset first⟩
      else searchBackwards sel first lastSector counter

/-- {lit}`backing_store_init`, with {lit}`WEAR_LEVELING_EFL_FIRST_SECTOR` if it is defined.
There is no result where it halts. -/
def backingStoreInit : Option ℕ → Option Selection
  | some first =>
    let sel := searchForwards c d first (d.sectorsCount - first) 0 0
    if sel.sectorCount = uint16Max ∨ sel.baseOffset ≥ flashSize then none else some sel
  | none =>
    some (searchBackwards c d flashSize ⟨uint16Max, uint16Max, uint32Max⟩ d.sectorsCount
      d.sectorsCount 0)

/-- {lit}`flash_error_t` -/
inductive FlashError where
  | noError
  | busyErasing
  | other
deriving DecidableEq

/-- {lit}`backing_store_erase`: the sectors whose erase is started, and whether the answers of
the flash were good. -/
def backingStoreErase (sel : Selection) (startErase waitErase : ℕ → FlashError) :
    List ℕ × Bool :=
  let sectors := (List.range sel.sectorCount).map fun i => (sel.firstSector + i) % 2 ^ 16
  (sectors, sectors.all fun sector =>
    startErase sector ≠ .other && waitErase sector ≠ .other)

/-- An address lies in a sector. -/
def Descriptor.Contains (d : Descriptor) (sector address : ℕ) : Prop :=
  sector < d.sectorsCount ∧ d.offset sector ≤ address ∧ address < d.offset sector + d.size sector

/-- The backing store lies inside the selected sectors and inside the flash, and just sectors
inside the flash are erased. -/
structure Sound (sel : Selection) : Prop where
  region : ∀ address, sel.baseOffset ≤ address → address < sel.baseOffset + c.backingSize →
    address < flashSize ∧ ∃ sector, sel.firstSector ≤ sector ∧
      sector < sel.firstSector + sel.sectorCount ∧ d.Contains sector address
  erased : ∀ startErase waitErase, ∀ sector ∈ (backingStoreErase sel startErase waitErase).1,
    sector < d.sectorsCount ∧ d.offset sector + d.size sector ≤ flashSize

/-- The number of sectors that begin inside the flash, among the first ones. -/
def Descriptor.usable (d : Descriptor) (flashSize : ℕ) : ℕ → ℕ
  | 0 => 0
  | sectors + 1 => if d.offset sectors < flashSize then sectors + 1 else d.usable flashSize sectors

/-- The backing store is reached with so many sectors, and not before. -/
def ReachedWith (first count : ℕ) : Prop :=
  d.offset first + c.backingSize ≤ d.offset (first + count) ∧
    ∀ fewer < count, d.offset (first + fewer) < d.offset first + c.backingSize

/-- The sectors that begin inside the flash hold the backing store, and the last of them ends
inside it.  Where the first sector is given and begins inside the flash, the sectors that hold
the backing store, if there are any, end inside the flash. -/
def Meets : Option ℕ → Prop
  | some first =>
    ∀ count, first + count ≤ d.sectorsCount → ReachedWith c d first count →
      d.offset first < flashSize → count ≠ uint16Max → d.offset (first + count) ≤ flashSize
  | none =>
    d.start + c.backingSize ≤ d.offset (d.usable flashSize d.sectorsCount) ∧
      d.offset (d.usable flashSize d.sectorsCount) ≤ flashSize

/-! ## Offsets -/

variable {c d flashSize}

theorem offset_zero (d : Descriptor) : d.offset 0 = d.start := by
  unfold Descriptor.offset
  rw [List.take_zero, List.sum_nil, Nat.add_zero]

/-- The sectors are contiguous. -/
theorem offset_succ (d : Descriptor) (sector : ℕ) :
    d.offset (sector + 1) = d.offset sector + d.size sector := by
  unfold Descriptor.offset Descriptor.size
  by_cases hlt : sector < d.sizes.length
  · rw [List.take_add_one, List.sum_append, List.getElem?_eq_getElem hlt,
      List.getD_eq_getElem _ _ hlt, Option.toList_some, List.sum_singleton, Nat.add_assoc]
  · have hge : d.sizes.length ≤ sector := Nat.le_of_not_lt hlt
    rw [List.take_of_length_le (Nat.le_succ_of_le hge), List.take_of_length_le hge,
      List.getD_eq_default _ _ hge, Nat.add_zero]

theorem offset_mono (d : Descriptor) {i j : ℕ} (h : i ≤ j) : d.offset i ≤ d.offset j := by
  obtain ⟨k, rfl⟩ := Nat.exists_eq_add_of_le h
  induction k with
  | zero => exact Nat.le_refl _
  | succ k ih =>
    have hbefore := ih (Nat.le_add_right _ _)
    rw [← Nat.add_assoc, offset_succ]
    omega

theorem offset_lt (d : Descriptor) (i : ℕ) : d.offset i < 2 ^ 32 := by
  have hsum : (d.sizes.take i).sum ≤ d.sizes.sum := by
    have hsplit := congrArg List.sum (List.take_append_drop i d.sizes)
    rw [List.sum_append] at hsplit
    omega
  have hend := d.end_lt
  unfold Descriptor.offset
  omega

/-- Between two offsets every address lies in a sector. -/
theorem exists_sector (d : Descriptor) {i j address : ℕ} (hlow : d.offset i ≤ address)
    (hhigh : address < d.offset j) (hj : j ≤ d.sectorsCount) :
    ∃ sector, i ≤ sector ∧ sector < j ∧ d.Contains sector address := by
  induction j with
  | zero =>
    have hmono := offset_mono d (Nat.zero_le i)
    omega
  | succ j ih =>
    by_cases hlast : d.offset j ≤ address
    · have hij : i ≤ j := by
        by_contra hlt
        have hlast' : j + 1 ≤ i := Nat.lt_of_not_le hlt
        have hmono := offset_mono d hlast'
        omega
      rw [offset_succ] at hhigh
      exact ⟨j, hij, Nat.lt_succ_self j, hj, hlast, hhigh⟩
    · obtain ⟨sector, hge, hlt, hmem⟩ := ih (Nat.lt_of_not_le hlast) (Nat.le_of_succ_le hj)
      exact ⟨sector, hge, Nat.lt_succ_of_lt hlt, hmem⟩

theorem backingSize_pos (c : Config) : 0 < c.backingSize := by
  have hpos := c.logicalSize_pos
  have hle := c.logicalSize_le
  omega

/-! ## The search forwards -/

/-- The search finds the first number of sectors that holds the backing store, or goes through
all of them. -/
theorem searchForwards_spec (c : Config) (d : Descriptor) (first rounds i : ℕ)
    (hrounds : first + i + rounds = d.sectorsCount)
    (hbelow : ∀ fewer ≤ i, d.offset (first + fewer) < d.offset first + c.backingSize) :
    (∃ count, first + count ≤ d.sectorsCount ∧ ReachedWith c d first count ∧
      searchForwards c d first rounds i (d.offset (first + i) - d.offset first) =
        ⟨first, count, d.offset first⟩) ∨
    ((∀ count, first + count ≤ d.sectorsCount → ¬ ReachedWith c d first count) ∧
      searchForwards c d first rounds i (d.offset (first + i) - d.offset first) =
        ⟨first, uint16Max, uint32Max⟩) := by
  induction rounds generalizing i with
  | zero =>
    refine .inr ⟨fun count hcount hreached => ?_, rfl⟩
    have hlate := hbelow count (by omega)
    exact absurd hreached.1 (Nat.not_le_of_gt hlate)
  | succ rounds ih =>
    have hmono := offset_mono d (Nat.le_add_right first i)
    have hlt := offset_lt d (first + i + 1)
    have hsucc := offset_succ d (first + i)
    have hcounter : (d.offset (first + i) - d.offset first + d.size (first + i)) % 2 ^ 32 =
        d.offset (first + (i + 1)) - d.offset first := by
      rw [← Nat.add_assoc, hsucc]
      rw [hsucc] at hlt
      rw [Nat.mod_eq_of_lt (by omega)]
      omega
    unfold searchForwards
    dsimp only
    rw [hcounter]
    have hmono' := offset_mono d (Nat.le_add_right first (i + 1))
    by_cases hreached : d.offset (first + (i + 1)) - d.offset first ≥ c.backingSize
    · rw [if_pos hreached]
      exact .inl ⟨i + 1, by omega, ⟨by omega, fun fewer hfewer =>
        hbelow fewer (Nat.le_of_lt_succ hfewer)⟩, rfl⟩
    · rw [if_neg hreached]
      refine ih (i + 1) (by omega) fun fewer hfewer => ?_
      rcases Nat.lt_or_eq_of_le hfewer with hless | rfl
      · exact hbelow fewer (Nat.le_of_lt_succ hless)
      · omega

/-- The search takes the least number of sectors. -/
theorem reachedWith_unique {first count count' : ℕ} (h : ReachedWith c d first count)
    (h' : ReachedWith c d first count') : count = count' := by
  rcases Nat.lt_trichotomy count count' with hlt | heq | hgt
  · exact absurd h.1 (Nat.not_le_of_gt (h'.2 count hlt))
  · exact heq
  · exact absurd h'.1 (Nat.not_le_of_gt (h.2 count' hgt))

/-! ## The search backwards -/

theorem usable_le (d : Descriptor) (flashSize sectors : ℕ) :
    d.usable flashSize sectors ≤ sectors := by
  induction sectors with
  | zero => exact Nat.le_refl _
  | succ sectors ih =>
    unfold Descriptor.usable
    split_ifs
    · exact Nat.le_refl _
    · exact Nat.le_succ_of_le ih

theorem offset_lt_of_usable {sectors sector : ℕ} (h : sector < d.usable flashSize sectors) :
    d.offset sector < flashSize := by
  induction sectors with
  | zero => exact absurd h (Nat.not_lt_zero _)
  | succ sectors ih =>
    unfold Descriptor.usable at h
    split_ifs at h with hinside
    · exact Nat.lt_of_le_of_lt (offset_mono d (Nat.le_of_lt_succ h)) hinside
    · exact ih h

/-- The sectors behind the flash are skipped. -/
theorem searchBackwards_skip (c : Config) (d : Descriptor) (flashSize : ℕ) (sel : Selection)
    (sectors : ℕ) :
    ∃ sel', sel'.sectorCount = sel.sectorCount ∧ sel'.baseOffset = sel.baseOffset ∧
      searchBackwards c d flashSize sel sectors sectors 0 =
        searchBackwards c d flashSize sel' (d.usable flashSize sectors)
          (d.usable flashSize sectors) 0 := by
  induction sectors generalizing sel with
  | zero => exact ⟨sel, rfl, rfl, rfl⟩
  | succ sectors ih =>
    by_cases hinside : d.offset sectors < flashSize
    · have husable : d.usable flashSize (sectors + 1) = sectors + 1 := if_pos hinside
      exact ⟨sel, rfl, rfl, by rw [husable]⟩
    · have husable : d.usable flashSize (sectors + 1) = d.usable flashSize sectors :=
        if_neg hinside
      obtain ⟨sel', hcount, hbase, hskip⟩ := ih { sel with firstSector := sectors }
      refine ⟨sel', hcount, hbase, ?_⟩
      rw [husable, ← hskip, searchBackwards, if_pos (Nat.le_of_not_lt hinside)]

/-- Among the sectors inside the flash the search takes the last ones that hold the backing
store, or goes through all of them. -/
theorem searchBackwards_spec (c : Config) (last : ℕ) {sectors : ℕ} (sel : Selection)
    (hle : sectors ≤ last)
    (hinside : ∀ sector < last, d.offset sector < flashSize)
    (hbelow : d.offset last < d.offset sectors + c.backingSize) :
    (∃ first < last, d.offset first + c.backingSize ≤ d.offset last ∧
      searchBackwards c d flashSize sel sectors last (d.offset last - d.offset sectors) =
        ⟨first, last - first, d.offset first⟩) ∨
    (d.offset last < d.start + c.backingSize ∧
      ∃ first, searchBackwards c d flashSize sel sectors last (d.offset last - d.offset sectors) =
        ⟨first, sel.sectorCount, sel.baseOffset⟩) := by
  induction sectors generalizing sel with
  | zero =>
    rw [offset_zero] at hbelow
    exact .inr ⟨hbelow, sel.firstSector, rfl⟩
  | succ sectors ih =>
    have hlt := offset_lt d last
    have hsucc := offset_succ d sectors
    have hmono := offset_mono d hle
    have hcounter : (d.offset last - d.offset (sectors + 1) + d.size sectors) % 2 ^ 32 =
        d.offset last - d.offset sectors := by
      rw [Nat.mod_eq_of_lt (by omega)]
      omega
    rw [searchBackwards, if_neg (Nat.not_le_of_lt (hinside sectors hle))]
    dsimp only
    rw [hcounter]
    by_cases hreached : d.offset last - d.offset sectors ≥ c.backingSize
    · rw [if_pos hreached]
      exact .inl ⟨sectors, hle, by omega, rfl⟩
    · rw [if_neg hreached]
      exact ih _ (Nat.le_of_succ_le hle) (by omega)

/-! ## The result -/

/-- Sectors that hold the backing store are sound just if the last of them ends inside the
flash. -/
theorem sound_selection_iff (c : Config) (d : Descriptor) (flashSize first count : ℕ)
    (hcount : 0 < count)
    (hle : first + count ≤ d.sectorsCount)
    (hholds : d.offset first + c.backingSize ≤ d.offset (first + count)) :
    Sound c d flashSize ⟨first, count, d.offset first⟩ ↔ d.offset (first + count) ≤ flashSize := by
  have hcount_lt : d.sectorsCount < 2 ^ 16 := d.sectorsCount_lt
  constructor
  · intro h
    have hlast : (first + (count - 1)) % 2 ^ 16 = first + (count - 1) :=
      Nat.mod_eq_of_lt (Nat.lt_of_le_of_lt (by omega) hcount_lt)
    have hmem : first + (count - 1) ∈ (backingStoreErase ⟨first, count, d.offset first⟩
        (fun _ => .noError) fun _ => .noError).1 :=
      List.mem_map.mpr ⟨count - 1, List.mem_range.mpr (Nat.sub_lt hcount Nat.zero_lt_one), hlast⟩
    have hend := (h.erased _ _ _ hmem).2
    rw [← offset_succ] at hend
    have hsucc : first + (count - 1) + 1 = first + count := by omega
    rw [hsucc] at hend
    exact hend
  · intro hinside
    constructor
    · intro address hlow hhigh
      dsimp only at hlow hhigh
      obtain ⟨sector, hge, hlt, hmem⟩ :=
        exists_sector d hlow (Nat.lt_of_lt_of_le hhigh hholds) hle
      exact ⟨by omega, sector, hge, hlt, hmem⟩
    · intro startErase waitErase sector hmem
      obtain ⟨i, hi, rfl⟩ := List.mem_map.mp hmem
      have hi' : i < count := List.mem_range.mp hi
      dsimp only
      rw [Nat.mod_eq_of_lt (by omega), ← offset_succ]
      have hmono : d.offset (first + i + 1) ≤ d.offset (first + count) :=
        offset_mono d (by omega)
      exact ⟨by omega, Nat.le_trans hmono hinside⟩

/-- The values from before the search are not sound. -/
theorem not_sound_initial (first : ℕ) :
    ¬ Sound c d flashSize ⟨first, uint16Max, uint32Max⟩ := by
  intro h
  obtain ⟨-, sector, -, -, hmem⟩ := h.region uint32Max (Nat.le_refl _)
    (Nat.lt_add_of_pos_right (backingSize_pos c))
  have hlt := offset_lt d (sector + 1)
  have hend := hmem.2.2
  rw [← offset_succ] at hend
  unfold uint32Max at hend
  omega

/-- With a given first sector. -/
theorem sound_forwards_iff (first : ℕ) :
    (∀ sel, backingStoreInit c d flashSize (some first) = some sel →
      Sound c d flashSize sel) ↔ Meets c d flashSize (some first) := by
  unfold backingStoreInit Meets
  dsimp only
  rcases Nat.lt_or_ge d.sectorsCount first with hbehind | hfirst
  · have hzero : d.sectorsCount - first = 0 := by omega
    rw [hzero]
    refine ⟨fun _ count hcount => by omega, fun _ sel hsel => ?_⟩
    exact absurd ((if_pos (.inl rfl)).symm.trans hsel).symm (Option.some_ne_none sel)
  · have hbelow : ∀ fewer ≤ 0, d.offset (first + fewer) < d.offset first + c.backingSize := by
      intro fewer hfewer
      rw [Nat.le_zero.mp hfewer]
      exact Nat.lt_add_of_pos_right (backingSize_pos c)
    have hspec := searchForwards_spec c d first (d.sectorsCount - first) 0 (by omega) hbelow
    rw [Nat.add_zero, Nat.sub_self] at hspec
    rcases hspec with ⟨count, hle, hreached, hsearch⟩ | ⟨hnone, hsearch⟩
    · have hpos : 0 < count := by
        rcases Nat.eq_zero_or_pos count with rfl | hpos
        · have hholds := hreached.1
          have hB := backingSize_pos c
          rw [Nat.add_zero] at hholds
          omega
        · exact hpos
      rw [hsearch]
      constructor
      · intro h count' hle' hreached' hinside hcount
        obtain rfl := reachedWith_unique hreached hreached'
        have hkept : ¬ (count = uint16Max ∨ d.offset first ≥ flashSize) := by
          rintro (heq | hge)
          · exact hcount heq
          · omega
        exact (sound_selection_iff c d flashSize _ _ hpos hle hreached.1).mp (h _ (if_neg hkept))
      · intro h sel hsel
        split_ifs at hsel with hhalt
        obtain rfl := Option.some.inj hsel
        rw [not_or, Nat.not_le] at hhalt
        exact (sound_selection_iff c d flashSize _ _ hpos hle hreached.1).mpr
          (h count hle hreached hhalt.2 hhalt.1)
    · rw [hsearch]
      refine ⟨fun _ count hle hreached => absurd hreached (hnone count hle), fun _ sel hsel => ?_⟩
      exact absurd ((if_pos (.inl rfl)).symm.trans hsel).symm (Option.some_ne_none sel)

/-- Without a given first sector. -/
theorem sound_backwards_iff :
    (∀ sel, backingStoreInit c d flashSize none = some sel → Sound c d flashSize sel) ↔
      Meets c d flashSize none := by
  unfold backingStoreInit Meets
  dsimp only
  obtain ⟨sel', hcount', hbase', hskip⟩ := searchBackwards_skip c d flashSize
    ⟨uint16Max, uint16Max, uint32Max⟩ d.sectorsCount
  have hle := usable_le d flashSize d.sectorsCount
  have hinside : ∀ sector < d.usable flashSize d.sectorsCount, d.offset sector < flashSize :=
    fun sector hsector => offset_lt_of_usable hsector
  rw [hskip]
  generalize d.usable flashSize d.sectorsCount = usable at hle hinside ⊢
  have hspec := searchBackwards_spec c usable sel' (Nat.le_refl usable) hinside
    (Nat.lt_add_of_pos_right (backingSize_pos c))
  rw [Nat.sub_self] at hspec
  simp only [Option.some_inj, forall_eq']
  rcases hspec with ⟨first, hfirst, hholds, hsearch⟩ | ⟨hshort, first, hsearch⟩
  · have hsum : first + (usable - first) = usable := by omega
    have hsound := sound_selection_iff c d flashSize first (usable - first) (by omega)
      (hsum.symm ▸ hle) (hsum.symm ▸ hholds)
    have hstart := offset_mono d (Nat.zero_le first)
    rw [offset_zero] at hstart
    rw [hsearch, hsound, hsum]
    exact ⟨fun hend => ⟨by omega, hend⟩, fun h => h.2⟩
  · rw [hsearch, hcount', hbase']
    exact ⟨fun h => absurd h (not_sound_initial first), fun h => by omega⟩

/-- For every flash and every size: unless the search halts, the backing store lies inside the
selected sectors and the flash, and just sectors of the flash are erased, exactly if the
condition holds. -/
theorem sound_iff (c : Config) (d : Descriptor) (flashSize : ℕ) (firstSector : Option ℕ) :
    (∀ sel, backingStoreInit c d flashSize firstSector = some sel →
      Sound c d flashSize sel) ↔ Meets c d flashSize firstSector := by
  cases firstSector with
  | none => exact sound_backwards_iff
  | some first => exact sound_forwards_iff first

/-- A backing store of 8 KiB in a flash with sectors of 2 KiB: two sectors do not hold it, and
the driver goes on with 65535 of them; behind the third of four sectors it leaves the flash. -/
theorem not_sound :
    let c : Config :=
      ⟨2, 8192, 4096, .inl rfl, by decide, by decide, by decide, by decide, by decide⟩
    let small : Descriptor := ⟨0, [2048, 2048], by decide, by decide⟩
    let large : Descriptor := ⟨0, List.replicate 8 2048, by decide, by decide⟩
    (¬ ∀ sel, backingStoreInit c small 4096 none = some sel → Sound c small 4096 sel) ∧
      ¬ ∀ sel, backingStoreInit c large 8192 (some 3) = some sel → Sound c large 8192 sel := by
  intro c small large
  refine ⟨fun h => ?_, fun h => ?_⟩
  · have hsel := h ⟨0, 65535, 4294967295⟩ (by decide +kernel)
    exact not_sound_initial 0 hsel
  · have hsel := h ⟨3, 4, 6144⟩ (by decide +kernel)
    have hend := (hsel.erased (fun _ => .noError) (fun _ => .noError) 6 (by decide +kernel)).2
    exact absurd hend (by decide +kernel)

end Efl
end WearLeveling
end VialQmk
