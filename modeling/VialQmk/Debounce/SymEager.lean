import VialQmk.Debounce.SymDeferPk

/-!
# Debounce - eager

A difference between the raw and the cooked matrix is copied at once, and then the key (with
{lit}`sym_eager_pk`) or the row (with {lit}`sym_eager_pr`) is locked for {lit}`DEBOUNCE` ms.
The two files are the same but for the places they have counters for.

Main results:

- Definition {lit}`SymEager.debounce`: the algorithm, for places of any kind.
- Theorem {lit}`symEager_run`: a place follows the raw matrix unless it has changed less than
  {lit}`DEBOUNCE` ms ago, its changes are that far apart, and a call returns whether the cooked
  matrix has changed.
-/

namespace VialQmk
namespace Debounce

variable {w rows cols : ℕ}

namespace SymEager

/-! ## The algorithm -/

/-- The variables of the files, and the cooked matrix by places. -/
structure Vars (w : ℕ) (ι β : Type) where
  debounceCounters : ι → UInt8
  lastTime : BitVec w
  countersNeedUpdate : Bool
  matrixNeedUpdate : Bool
  cookedChanged : Bool
  cooked : ι → β

/-- What the two files do not share: the places of their loops, what is at a place of a
matrix, and what is written there when it differs from the raw value. -/
structure Places (rows cols : ℕ) (ι β : Type) where
  places : List ι
  see : KeyMatrix rows cols → ι → β
  write : β → β → β
  nodup : places.Nodup
  mem_places : ∀ i, i ∈ places
  write_eq : ∀ x y, x ≠ y → write x y = y
  see_ext : ∀ m m', (∀ i, see m i = see m' i) → m = m'

variable {ι β : Type} [DecidableEq ι] (c : Config) (pl : Places rows cols ι β)

/-- One round of {lit}`update_debounce_counters` -/
def updateCounter (elapsed : UInt8) (s : Vars w ι β) (i : ι) : Vars w ι β :=
  let counter := s.debounceCounters i
  if counter ≠ 0 then
    if counter ≤ elapsed then
      { s with
        debounceCounters := Function.update s.debounceCounters i 0
        matrixNeedUpdate := true }
    else
      { s with
        debounceCounters := Function.update s.debounceCounters i (counter - elapsed)
        countersNeedUpdate := true }
  else s

/-- {lit}`update_debounce_counters` -/
def updateDebounceCounters (elapsed : UInt8) (s : Vars w ι β) : Vars w ι β :=
  pl.places.foldl (updateCounter elapsed)
    { s with countersNeedUpdate := false, matrixNeedUpdate := false }

/-- The first half of {lit}`debounce` -/
def passTime (now : BitVec w) (s : Vars w ι β) : Vars w ι β :=
  if s.countersNeedUpdate = true then
    let elapsed := elapsedTime now s.lastTime
    let s := { s with lastTime := now }
    if 0 < elapsed then updateDebounceCounters pl elapsed s else s
  else s

variable [DecidableEq β]

/-- One round of {lit}`transfer_matrix_values` -/
def transferValue (raw : ι → β) (s : Vars w ι β) (i : ι) : Vars w ι β :=
  if raw i ≠ s.cooked i then
    if s.debounceCounters i = 0 then
      { s with
        debounceCounters := Function.update s.debounceCounters i c.debounce
        countersNeedUpdate := true
        cooked := Function.update s.cooked i (pl.write (s.cooked i) (raw i))
        cookedChanged := true }
    else s
  else s

/-- {lit}`transfer_matrix_values` -/
def transferMatrixValues (raw : ι → β) (s : Vars w ι β) : Vars w ι β :=
  pl.places.foldl (transferValue c pl raw) { s with matrixNeedUpdate := false }

/-- {lit}`debounce` -/
def debounce (raw : KeyMatrix rows cols) (changed : Bool) (now : BitVec w) (s : Vars w ι β) :
    Vars w ι β × Bool :=
  let updatedLast := s.countersNeedUpdate
  let s := passTime pl now { s with cookedChanged := false }
  let s :=
    if changed = true ∨ s.matrixNeedUpdate = true then
      transferMatrixValues c pl (pl.see raw)
        (if updatedLast = true then s else { s with lastTime := now })
    else s
  (s, s.cookedChanged)

/-- {lit}`debounce_init` -/
def init : Vars w ι β :=
  ⟨fun _ => 0, 0, false, false, false, pl.see allOff⟩

end SymEager

/-- The keys, with {lit}`existing_row ^= col_mask`. -/
def SymEagerPk.places (rows cols : ℕ) : SymEager.Places rows cols (Fin rows × Fin cols) Bool where
  places := keys rows cols
  see m key := m key.1 key.2
  write cooked _ := !cooked
  nodup := nodup_keys
  mem_places key := mem_keys key.1 key.2
  write_eq := by decide
  see_ext _ _ h := funext fun row => funext fun col => h (row, col)

/-- {lit}`debounce` in {lit}`sym_eager_pk.c` -/
def SymEagerPk.debounce (c : Config) :
    KeyMatrix rows cols → Bool → BitVec w → SymEager.Vars w (Fin rows × Fin cols) Bool →
      SymEager.Vars w (Fin rows × Fin cols) Bool × Bool :=
  SymEager.debounce c (SymEagerPk.places rows cols)

/-- The rows, with {lit}`cooked[row] = raw_row`. -/
def SymEagerPr.places (rows cols : ℕ) : SymEager.Places rows cols (Fin rows) (MatrixRow cols) where
  places := List.finRange rows
  see m row := m row
  write _ rawRow := rawRow
  nodup := List.nodup_finRange rows
  mem_places := List.mem_finRange
  write_eq _ _ _ := rfl
  see_ext _ _ h := funext h

/-- {lit}`debounce` in {lit}`sym_eager_pr.c` -/
def SymEagerPr.debounce (c : Config) :
    KeyMatrix rows cols → Bool → BitVec w → SymEager.Vars w (Fin rows) (MatrixRow cols) →
      SymEager.Vars w (Fin rows) (MatrixRow cols) × Bool :=
  SymEager.debounce c (SymEagerPr.places rows cols)

namespace SymEager

variable {ι β : Type} [DecidableEq ι] {c : Config} {pl : Places rows cols ι β}
  {s : Vars w ι β} {elapsed : UInt8} {now : BitVec w}

/-! ## The loops -/

/-- What belongs to a place: its counter, and its value in the cooked matrix. -/
def Vars.place (i : ι) (s : Vars w ι β) : UInt8 × β :=
  (s.debounceCounters i, s.cooked i)

/-- A place after {lit}`update_debounce_counters` -/
def updated (elapsed : UInt8) (x : UInt8 × β) : UInt8 × β :=
  if x.1 ≤ elapsed then (0, x.2) else (x.1 - elapsed, x.2)

theorem place_updateCounter_of_ne (s : Vars w ι β) (i j : ι) (hne : j ≠ i) :
    (updateCounter elapsed s j).place i = s.place i := by
  unfold updateCounter Vars.place
  dsimp only
  split_ifs
  · simp only [Function.update_of_ne hne.symm]
  · simp only [Function.update_of_ne hne.symm]
  · rfl

theorem place_updateCounter (s : Vars w ι β) (i : ι) :
    (updateCounter elapsed s i).place i = updated elapsed (s.place i) := by
  unfold updateCounter Vars.place updated
  dsimp only
  split_ifs with hrun hle hle
  · simp
  · simp
  · rw [not_not.mp hrun]
  · rw [not_not.mp hrun] at hle
    exact absurd (UInt8.zero_le) hle

theorem updateDebounceCounters_place (s : Vars w ι β) (i : ι) :
    (updateDebounceCounters pl elapsed s).place i = updated elapsed (s.place i) :=
  Sweep.get_foldl (f := fun _ => updated elapsed) place_updateCounter place_updateCounter_of_ne
    pl.nodup (pl.mem_places i) _

/-- A counter that still runs. -/
theorem lt_of_updateDebounceCounters {s : Vars w ι β} {i : ι}
    (hne : (updateDebounceCounters pl elapsed s).debounceCounters i ≠ 0) :
    elapsed < s.debounceCounters i := by
  have hplace : (updateDebounceCounters pl elapsed s).debounceCounters i =
      (updated elapsed (s.place i)).1 :=
    congrArg Prod.fst (updateDebounceCounters_place s i)
  rw [hplace, updated] at hne
  split_ifs at hne with hle
  · exact absurd rfl hne
  · exact UInt8.not_le.mp hle

theorem updateDebounceCounters_countersNeedUpdate (s : Vars w ι β) :
    (updateDebounceCounters pl elapsed s).countersNeedUpdate = true ↔
      ∃ i, elapsed < s.debounceCounters i := by
  have hflag : ∀ (s : Vars w ι β) i, (updateCounter elapsed s i).countersNeedUpdate = true ↔
      s.countersNeedUpdate = true ∨ elapsed < (s.place i).1 := by
    intro s i
    unfold updateCounter Vars.place
    dsimp only
    split_ifs with hrun hle
    · simp [UInt8.not_lt.mpr hle]
    · simp [UInt8.not_le.mp hle]
    · simp [not_not.mp hrun]
  refine (Sweep.flag_foldl (fun s => s.countersNeedUpdate = true) (fun _ x => elapsed < x.1)
    place_updateCounter_of_ne hflag pl.nodup _).trans ?_
  simp [pl.mem_places, Vars.place]

theorem updateDebounceCounters_matrixNeedUpdate (s : Vars w ι β) :
    (updateDebounceCounters pl elapsed s).matrixNeedUpdate = true ↔
      ∃ i, s.debounceCounters i ≠ 0 ∧ s.debounceCounters i ≤ elapsed := by
  have hflag : ∀ (s : Vars w ι β) i, (updateCounter elapsed s i).matrixNeedUpdate = true ↔
      s.matrixNeedUpdate = true ∨ ((s.place i).1 ≠ 0 ∧ (s.place i).1 ≤ elapsed) := by
    intro s i
    unfold updateCounter Vars.place
    dsimp only
    split_ifs with hrun hle
    · simp [hrun, hle]
    · simp [hle]
    · simp [not_not.mp hrun]
  refine (Sweep.flag_foldl (fun s => s.matrixNeedUpdate = true)
    (fun _ x => x.1 ≠ 0 ∧ x.1 ≤ elapsed) place_updateCounter_of_ne hflag pl.nodup _).trans ?_
  simp [pl.mem_places, Vars.place]

theorem updateDebounceCounters_lastTime (s : Vars w ι β) :
    (updateDebounceCounters pl elapsed s).lastTime = s.lastTime := by
  refine Sweep.keep_foldl Vars.lastTime ?_ _ _
  intro s i
  unfold updateCounter
  dsimp only
  split_ifs <;> rfl

theorem updateDebounceCounters_cookedChanged (s : Vars w ι β) :
    (updateDebounceCounters pl elapsed s).cookedChanged = s.cookedChanged := by
  refine Sweep.keep_foldl Vars.cookedChanged ?_ _ _
  intro s i
  unfold updateCounter
  dsimp only
  split_ifs <;> rfl

/-! ### Time -/

theorem updated_zero (x : UInt8 × β) : updated 0 x = x := by
  unfold updated
  split_ifs with hle
  · rw [← UInt8.le_zero_iff.mp hle]
  · rw [UInt8.sub_zero]

/-- The counters after time has passed. -/
theorem passTime_place (hneed : ∀ i, s.debounceCounters i ≠ 0 → s.countersNeedUpdate = true)
    (i : ι) : (passTime pl now s).place i = updated (elapsedTime now s.lastTime) (s.place i) := by
  unfold passTime
  by_cases hflag : s.countersNeedUpdate = true
  · rw [if_pos hflag]
    dsimp only
    split_ifs with hpos
    · exact updateDebounceCounters_place _ i
    · have hzero : elapsedTime now s.lastTime = 0 := UInt8.le_zero_iff.mp (UInt8.not_lt.mp hpos)
      rw [hzero, updated_zero]
      rfl
  · have hzero : s.debounceCounters i = 0 := by
      by_contra hne
      exact hflag (hneed i hne)
    rw [if_neg hflag, updated, if_pos]
    · rw [Vars.place, hzero]
    · rw [Vars.place, hzero]
      exact UInt8.zero_le

/-- A flag is up for the counters that go on. -/
theorem passTime_needUpdate (hneed : ∀ i, s.debounceCounters i ≠ 0 → s.countersNeedUpdate = true)
    (i : ι) (hne : (passTime pl now s).debounceCounters i ≠ 0) :
    (passTime pl now s).countersNeedUpdate = true := by
  by_cases hflag : s.countersNeedUpdate = true
  · simp only [passTime, if_pos hflag] at hne ⊢
    split_ifs at hne ⊢
    · rw [updateDebounceCounters_countersNeedUpdate]
      exact ⟨i, lt_of_updateDebounceCounters hne⟩
    · exact hflag
  · rw [passTime, if_neg hflag] at hne
    exact absurd (hneed i hne) hflag

/-- A flag is up when a counter has come to its end. -/
theorem passTime_matrixNeedUpdate
    (hneed : ∀ i, s.debounceCounters i ≠ 0 → s.countersNeedUpdate = true)
    (hflag : (passTime pl now s).matrixNeedUpdate = false) (i : ι)
    (hne : s.debounceCounters i ≠ 0) : (passTime pl now s).debounceCounters i ≠ 0 := by
  have hup : s.countersNeedUpdate = true := hneed i hne
  simp only [passTime, if_pos hup] at hflag ⊢
  split_ifs at hflag ⊢
  · intro hzero
    have hplace : (updateDebounceCounters pl (elapsedTime now s.lastTime)
        { s with lastTime := now }).debounceCounters i =
        (updated (elapsedTime now s.lastTime) (s.place i)).1 :=
      congrArg Prod.fst (updateDebounceCounters_place _ i)
    rw [hplace, updated] at hzero
    split_ifs at hzero with hle
    · rw [Bool.eq_false_iff, Ne, updateDebounceCounters_matrixNeedUpdate] at hflag
      exact hflag ⟨i, hne, hle⟩
    · rw [UInt8.not_le, UInt8.lt_iff_toNat_lt] at hle
      have hsub : (s.debounceCounters i - elapsedTime now s.lastTime).toNat =
          (s.debounceCounters i).toNat - (elapsedTime now s.lastTime).toNat :=
        UInt8.toNat_sub_of_le _ _ (UInt8.le_iff_toNat_le.mpr (Nat.le_of_lt hle))
      have hleft := congrArg UInt8.toNat hzero
      rw [Vars.place, hsub, UInt8.toNat_zero] at hleft
      dsimp only [Vars.place] at hle
      omega
  · exact hne

theorem passTime_lastTime (hflag : s.countersNeedUpdate = true) :
    (passTime pl now s).lastTime = now := by
  rw [passTime, if_pos hflag]
  dsimp only
  split_ifs
  · exact updateDebounceCounters_lastTime _
  · rfl

theorem passTime_cookedChanged : (passTime pl now s).cookedChanged = s.cookedChanged := by
  unfold passTime
  dsimp only
  split_ifs
  · exact updateDebounceCounters_cookedChanged _
  · rfl
  · rfl

/-! ### Transfer -/

variable [DecidableEq β] {raw : ι → β}

/-- A place after {lit}`transfer_matrix_values` -/
def transferred (c : Config) (raw : β) (x : UInt8 × β) : UInt8 × β :=
  if raw ≠ x.2 ∧ x.1 = 0 then (c.debounce, raw) else x

theorem place_transferValue_of_ne (s : Vars w ι β) (i j : ι) (hne : j ≠ i) :
    (transferValue c pl raw s j).place i = s.place i := by
  unfold transferValue Vars.place
  split_ifs
  · simp only [Function.update_of_ne hne.symm]
  · rfl
  · rfl

theorem place_transferValue (s : Vars w ι β) (i : ι) :
    (transferValue c pl raw s i).place i = transferred c (raw i) (s.place i) := by
  unfold transferValue Vars.place transferred
  dsimp only
  split_ifs with hdiff hzero hboth hboth hboth
  · simp [pl.write_eq _ _ hdiff.symm]
  · exact absurd ⟨hdiff, hzero⟩ hboth
  · exact absurd hboth.2 hzero
  · rfl
  · exact absurd hboth.1 hdiff
  · rfl

theorem transferMatrixValues_place (s : Vars w ι β) (i : ι) :
    (transferMatrixValues c pl raw s).place i = transferred c (raw i) (s.place i) :=
  Sweep.get_foldl (f := fun i => transferred c (raw i)) place_transferValue
    place_transferValue_of_ne pl.nodup (pl.mem_places i) _

theorem transferMatrixValues_countersNeedUpdate (s : Vars w ι β) :
    (transferMatrixValues c pl raw s).countersNeedUpdate = true ↔ s.countersNeedUpdate = true ∨
      ∃ i, raw i ≠ s.cooked i ∧ s.debounceCounters i = 0 := by
  have hflag : ∀ (s : Vars w ι β) i, (transferValue c pl raw s i).countersNeedUpdate = true ↔
      s.countersNeedUpdate = true ∨ (raw i ≠ (s.place i).2 ∧ (s.place i).1 = 0) := by
    intro s i
    unfold transferValue Vars.place
    dsimp only
    split_ifs with hdiff hzero
    · simp [hdiff, hzero]
    · simp [hzero]
    · simp [not_not.mp hdiff]
  refine (Sweep.flag_foldl (fun s => s.countersNeedUpdate = true)
    (fun i x => raw i ≠ x.2 ∧ x.1 = 0) place_transferValue_of_ne hflag pl.nodup _).trans ?_
  simp [pl.mem_places, Vars.place]

theorem transferMatrixValues_cookedChanged (s : Vars w ι β) :
    (transferMatrixValues c pl raw s).cookedChanged = true ↔ s.cookedChanged = true ∨
      ∃ i, raw i ≠ s.cooked i ∧ s.debounceCounters i = 0 := by
  have hflag : ∀ (s : Vars w ι β) i, (transferValue c pl raw s i).cookedChanged = true ↔
      s.cookedChanged = true ∨ (raw i ≠ (s.place i).2 ∧ (s.place i).1 = 0) := by
    intro s i
    unfold transferValue Vars.place
    dsimp only
    split_ifs with hdiff hzero
    · simp [hdiff, hzero]
    · simp [hzero]
    · simp [not_not.mp hdiff]
  refine (Sweep.flag_foldl (fun s => s.cookedChanged = true)
    (fun i x => raw i ≠ x.2 ∧ x.1 = 0) place_transferValue_of_ne hflag pl.nodup _).trans ?_
  simp [pl.mem_places, Vars.place]

theorem transferMatrixValues_lastTime (s : Vars w ι β) :
    (transferMatrixValues c pl raw s).lastTime = s.lastTime := by
  refine Sweep.keep_foldl Vars.lastTime ?_ _ _
  intro s i
  unfold transferValue
  split_ifs <;> rfl

/-! ## The call -/

/-- A place after the call.  When nothing is transferred there is nothing to transfer. -/
theorem debounce_place {raw : KeyMatrix rows cols} {changed : Bool}
    (hneed : ∀ i, s.debounceCounters i ≠ 0 → s.countersNeedUpdate = true)
    (hidle : changed = false → ∀ i, s.debounceCounters i = 0 → s.cooked i = pl.see raw i) (i : ι) :
    (debounce c pl raw changed now s).1.place i =
      transferred c (pl.see raw i) (updated (elapsedTime now s.lastTime) (s.place i)) := by
  have hpass : (passTime pl now { s with cookedChanged := false }).place i =
      updated (elapsedTime now s.lastTime) (s.place i) :=
    @passTime_place w rows cols ι β _ pl { s with cookedChanged := false } now hneed i
  unfold debounce
  dsimp only
  by_cases htransfer : changed = true ∨
      (passTime pl now { s with cookedChanged := false }).matrixNeedUpdate = true
  · rw [if_pos htransfer, transferMatrixValues_place]
    split_ifs
    · rw [hpass]
    · exact congrArg (transferred c (pl.see raw i)) hpass
  · rw [if_neg htransfer, hpass, transferred, if_neg]
    rintro ⟨hdiff, hzero⟩
    rw [not_or, Bool.not_eq_true, Bool.not_eq_true] at htransfer
    by_cases hcounter : s.debounceCounters i = 0
    · have hsame := hidle htransfer.1 i hcounter
      apply hdiff
      rw [updated]
      split_ifs
      · exact hsame.symm
      · exact hsame.symm
    · have hruns := @passTime_matrixNeedUpdate w rows cols ι β _ pl
        { s with cookedChanged := false } now hneed htransfer.2 i hcounter
      exact hruns ((congrArg Prod.fst hpass).trans hzero)

theorem debounce_needUpdate {raw : KeyMatrix rows cols} {changed : Bool}
    (hneed : ∀ i, s.debounceCounters i ≠ 0 → s.countersNeedUpdate = true) (i : ι)
    (hne : (debounce c pl raw changed now s).1.debounceCounters i ≠ 0) :
    (debounce c pl raw changed now s).1.countersNeedUpdate = true := by
  have hpass := @passTime_needUpdate w rows cols ι β _ pl { s with cookedChanged := false } now
    hneed i
  have htransfer : ∀ t : Vars w ι β, (t.debounceCounters i ≠ 0 → t.countersNeedUpdate = true) →
      (transferMatrixValues c pl (pl.see raw) t).debounceCounters i ≠ 0 →
        (transferMatrixValues c pl (pl.see raw) t).countersNeedUpdate = true := by
    intro t ht hne
    have hplace : (transferMatrixValues c pl (pl.see raw) t).debounceCounters i =
        (transferred c (pl.see raw i) (t.place i)).1 :=
      congrArg Prod.fst (transferMatrixValues_place t i)
    rw [hplace, transferred] at hne
    rw [transferMatrixValues_countersNeedUpdate]
    split_ifs at hne with hstart
    · exact Or.inr ⟨i, hstart⟩
    · exact Or.inl (ht hne)
  unfold debounce at hne ⊢
  dsimp only at hne ⊢
  split_ifs at hne ⊢
  · exact htransfer _ hpass hne
  · exact htransfer _ hpass hne
  · exact hpass hne

theorem debounce_lastTime {raw : KeyMatrix rows cols} {changed : Bool}
    (hflag : (debounce c pl raw changed now s).1.countersNeedUpdate = true) :
    (debounce c pl raw changed now s).1.lastTime = now := by
  unfold debounce at hflag ⊢
  dsimp only at hflag ⊢
  split_ifs at hflag ⊢ with hcall hneed
  · rw [transferMatrixValues_lastTime]
    exact passTime_lastTime hneed
  · rw [transferMatrixValues_lastTime]
  · by_cases hneed : s.countersNeedUpdate = true
    · exact passTime_lastTime hneed
    · rw [passTime, if_neg hneed] at hflag
      exact absurd hflag hneed

/-- The call returns whether the cooked matrix has changed. -/
theorem debounce_changed {raw : KeyMatrix rows cols} {changed : Bool} :
    (debounce c pl raw changed now s).2 = true ↔
      (debounce c pl raw changed now s).1.cooked ≠ s.cooked := by
  have hcooked : (passTime pl now { s with cookedChanged := false }).cooked = s.cooked := by
    unfold passTime
    dsimp only
    split_ifs
    · refine Sweep.keep_foldl Vars.cooked ?_ _ _
      intro s i
      unfold updateCounter
      dsimp only
      split_ifs <;> rfl
    · rfl
    · rfl
  have hcall : ∀ t : Vars w ι β, t.cookedChanged = false → t.cooked = s.cooked →
      ((transferMatrixValues c pl (pl.see raw) t).cookedChanged = true ↔
        (transferMatrixValues c pl (pl.see raw) t).cooked ≠ s.cooked) := by
    intro t hclear ht
    rw [transferMatrixValues_cookedChanged, hclear]
    have hplace : ∀ i, (transferMatrixValues c pl (pl.see raw) t).cooked i =
        (transferred c (pl.see raw i) (t.debounceCounters i, t.cooked i)).2 :=
      fun i => congrArg Prod.snd (transferMatrixValues_place t i)
    constructor
    · rintro (hset | ⟨i, hdiff⟩) heq
      · exact absurd hset Bool.false_ne_true
      · have hsame := congrFun heq i
        rw [hplace, transferred, if_pos hdiff, ← ht] at hsame
        exact hdiff.1 hsame
    · intro hne
      right
      by_contra hnone
      rw [not_exists] at hnone
      apply hne
      funext i
      rw [hplace, transferred, if_neg (hnone i), ← ht]
  unfold debounce
  dsimp only
  split_ifs
  · exact hcall _ passTime_cookedChanged hcooked
  · exact hcall _ passTime_cookedChanged hcooked
  · rw [passTime_cookedChanged, hcooked]
    simp

/-! ## One place -/

/-- What is known about a place: the counter says how much is left of {lit}`DEBOUNCE` since
the last change. -/
structure PlaceInv (c : Config) (time : BitVec w) (on : β) (x : UInt8 × β)
    (times : List (BitVec w)) : Prop where
  idle : x.1 = 0 → x.2 = on
  left : ∀ t ∈ times, t.toNat + c.debounce.toNat ≤ time.toNat + x.1.toNat
  running : x.1 ≠ 0 → ∃ t ∈ times, t.toNat + c.debounce.toNat = time.toNat + x.1.toNat
  apart : times.Pairwise fun t t' => t.toNat + c.debounce.toNat ≤ t'.toNat

omit [DecidableEq β] in
/-- Every change was long enough ago if and only if the counter has come to its end. -/
theorem PlaceInv.over_iff {time : BitVec w} {on : β} {x : UInt8 × β} {times : List (BitVec w)}
    (h : PlaceInv c time on x times) (hle : time ≤ now)
    (helapsed : x.1 ≠ 0 → elapsed = elapsedTime now time) :
    (∀ t ∈ times, t.toNat + c.debounce.toNat ≤ now.toNat) ↔ x.1 ≤ elapsed := by
  have hnow : time.toNat ≤ now.toNat := BitVec.le_def.mp hle
  have hcounter : x.1.toNat ≤ 255 := Nat.le_of_lt_succ x.1.toNat_lt
  by_cases hzero : x.1 = 0
  · rw [hzero]
    refine iff_of_true (fun t ht => ?_) UInt8.zero_le
    have hleft := h.left t ht
    rw [hzero, UInt8.toNat_zero] at hleft
    omega
  · have hpassed := elapsedTime_toNat hle
    rw [← helapsed hzero] at hpassed
    rw [UInt8.le_iff_toNat_le]
    constructor
    · intro hover
      rcases h.running hzero with ⟨t, ht, hsum⟩
      have hlong := hover t ht
      omega
    · intro hexpired t ht
      have hleft := h.left t ht
      omega

/-- The times of the changes, with that of a call. -/
theorem PlaceInv.next {time : BitVec w} {on : β} {x : UInt8 × β} {times : List (BitVec w)}
    (h : PlaceInv c time on x times) (on' : β) (hle : time ≤ now)
    (helapsed : x.1 ≠ 0 → elapsed = elapsedTime now time) :
    PlaceInv c now on' (transferred c on' (updated elapsed x))
        (times ++ if (transferred c on' (updated elapsed x)).2 ≠ x.2 then [now] else []) ∧
      ((∀ t ∈ times, t.toNat + c.debounce.toNat ≤ now.toNat) →
        (transferred c on' (updated elapsed x)).2 = on') := by
  have hnow : time.toNat ≤ now.toNat := BitVec.le_def.mp hle
  have hover := h.over_iff hle helapsed
  by_cases hexpired : x.1 ≤ elapsed
  · -- the place is not locked, and follows the raw matrix
    have hlong := hover.mpr hexpired
    rw [updated, if_pos hexpired]
    by_cases hdiff : on' = x.2
    · have hsame : transferred c on' (0, x.2) = (0, x.2) :=
        if_neg fun hstart => hstart.1 hdiff
      rw [hsame, if_neg (not_not.mpr rfl), List.append_nil]
      exact ⟨⟨fun _ => hdiff.symm, hlong, fun hne => absurd rfl hne, h.apart⟩,
        fun _ => hdiff.symm⟩
    · have hcopied : transferred c on' (0, x.2) = (c.debounce, on') := if_pos ⟨hdiff, rfl⟩
      rw [hcopied, if_pos hdiff]
      refine ⟨⟨fun hz => absurd hz c.debounce_ne_zero, fun t ht => ?_,
        fun _ => ⟨now, by simp, rfl⟩, ?_⟩, fun _ => rfl⟩
      · rcases List.mem_append.mp ht with hold | hnew
        · exact Nat.le_add_right_of_le (hlong t hold)
        · rw [List.mem_singleton.mp hnew]
      · rw [List.pairwise_append]
        refine ⟨h.apart, List.pairwise_singleton _ _, fun t ht t' ht' => ?_⟩
        rw [List.mem_singleton.mp ht']
        exact hlong t ht
  · -- the place is locked, and stays as it is
    have hzero : x.1 ≠ 0 := by
      intro hz
      rw [hz] at hexpired
      exact hexpired UInt8.zero_le
    have hpassed := elapsedTime_toNat hle
    rw [← helapsed hzero] at hpassed
    have hcounter : x.1.toNat ≤ 255 := Nat.le_of_lt_succ x.1.toNat_lt
    have hlt : elapsed.toNat < x.1.toNat := UInt8.lt_iff_toNat_lt.mp (UInt8.not_le.mp hexpired)
    have hleft : (x.1 - elapsed).toNat = x.1.toNat - elapsed.toNat :=
      UInt8.toNat_sub_of_le _ _ (UInt8.le_iff_toNat_le.mpr (Nat.le_of_lt hlt))
    have hne : x.1 - elapsed ≠ 0 := by
      intro hz
      have hz' := congrArg UInt8.toNat hz
      rw [hleft, UInt8.toNat_zero] at hz'
      omega
    have hlocked : transferred c on' (updated elapsed x) = (x.1 - elapsed, x.2) := by
      rw [updated, if_neg hexpired]
      exact if_neg fun hstart => hne hstart.2
    rw [hlocked, if_neg (not_not.mpr rfl), List.append_nil]
    refine ⟨⟨fun hz => absurd hz hne, fun t ht => ?_, fun _ => ?_, h.apart⟩, fun hlong => ?_⟩
    · have hbound := h.left t ht
      dsimp only
      rw [hleft]
      omega
    · rcases h.running hzero with ⟨t, ht, hsum⟩
      refine ⟨t, ht, ?_⟩
      dsimp only
      rw [hleft]
      omega
    · exact absurd (hover.mp hlong) hexpired

/-! ## Runs -/

/-- What an eager algorithm promises about a place: it is as in the raw matrix when its
changes before the call were long enough ago, and its changes with the call are as far
apart. -/
structure Follows (d : ℕ) (now : BitVec w) (times times' : List (BitVec w)) (raw cooked : β) :
    Prop where
  copied : (∀ t ∈ times, t.toNat + d ≤ now.toNat) → cooked = raw
  apart : times'.Pairwise fun t t' => t.toNat + d ≤ t'.toNat

/-- What is known about all places. -/
structure Inv (c : Config) (pl : Places rows cols ι β) (b : Board w rows cols (Vars w ι β))
    (times : ι → List (BitVec w)) : Prop where
  places : ∀ i, PlaceInv c b.time (pl.see b.rawMatrix i) (b.vars.place i) (times i)
  needUpdate : ∀ i, b.vars.debounceCounters i ≠ 0 → b.vars.countersNeedUpdate = true
  lastTime : b.vars.countersNeedUpdate = true → b.vars.lastTime = b.time

omit [DecidableEq ι] [DecidableEq β] in
theorem inv_init : Inv c pl (matrixInit (init pl : Vars w ι β)) fun _ => [] := by
  constructor
  · intro i
    exact ⟨fun _ => rfl, by simp, fun hne => absurd rfl hne, List.Pairwise.nil⟩
  · exact fun _ hne => absurd rfl hne
  · exact fun hflag => absurd hflag Bool.false_ne_true

theorem Inv.step {b : Board w rows cols (Vars w ι β)} {times : ι → List (BitVec w)}
    (h : Inv c pl b times) (scan : Scan w rows cols) (hle : b.time ≤ scan.time) :
    Inv c pl (matrixScan (debounce c pl) b scan) (fun i => times i ++
        if (matrixScan (debounce c pl) b scan).vars.cooked i ≠ b.vars.cooked i then [scan.time]
        else []) ∧
      ∀ i, (∀ t ∈ times i, t.toNat + c.debounce.toNat ≤ scan.time.toNat) →
        (matrixScan (debounce c pl) b scan).vars.cooked i = pl.see scan.raw i := by
  have hidle : decide (scan.raw ≠ b.rawMatrix) = false →
      ∀ i, b.vars.debounceCounters i = 0 → b.vars.cooked i = pl.see scan.raw i := by
    intro hcall i hzero
    rw [decide_eq_false_iff_not, not_not] at hcall
    rw [hcall]
    exact (h.places i).idle hzero
  have hplace : ∀ i, (matrixScan (debounce c pl) b scan).vars.place i =
      transferred c (pl.see scan.raw i)
        (updated (elapsedTime scan.time b.vars.lastTime) (b.vars.place i)) :=
    debounce_place h.needUpdate hidle
  have hcooked : ∀ i, (matrixScan (debounce c pl) b scan).vars.cooked i =
      (transferred c (pl.see scan.raw i)
        (updated (elapsedTime scan.time b.vars.lastTime) (b.vars.place i))).2 :=
    fun i => congrArg Prod.snd (hplace i)
  have hnext := fun i => (h.places i).next (pl.see scan.raw i) hle
    fun hne => congrArg (elapsedTime scan.time) (h.lastTime (h.needUpdate i hne))
  constructor
  · constructor
    · intro i
      rw [hplace, hcooked]
      exact (hnext i).1
    · exact debounce_needUpdate h.needUpdate
    · exact debounce_lastTime
  · intro i hlong
    rw [hcooked]
    exact (hnext i).2 hlong

/-- The invariant at the end of a run, with the times of the changes. -/
theorem run_inv (c : Config) (pl : Places rows cols ι β) {scans : List (Scan w rows cols)}
    (horder : InOrder scans) :
    Inv c pl (StateMachine.run (matrixScan (debounce c pl)) (matrixInit (init pl)) scans)
      fun i => changeTimes (debounce c pl) (fun s => s.cooked i) (matrixInit (init pl)) scans := by
  induction scans using List.reverseRecOn with
  | nil => exact inv_init
  | append_singleton scans scan ih =>
    simp only [changeTimes_append]
    rw [StateMachine.run_append]
    exact ((ih horder.of_append).step scan (run_time_le horder)).1

/-- Each place of the cooked matrix follows the raw one. -/
theorem run_follows (c : Config) (pl : Places rows cols ι β) {scans : List (Scan w rows cols)}
    {scan : Scan w rows cols} (horder : InOrder (scans ++ [scan])) (i : ι) :
    Follows c.debounce.toNat scan.time
      (changeTimes (debounce c pl) (fun s => s.cooked i) (matrixInit (init pl)) scans)
      (changeTimes (debounce c pl) (fun s => s.cooked i) (matrixInit (init pl)) (scans ++ [scan]))
      (pl.see scan.raw i)
      ((matrixScan (debounce c pl)
        (StateMachine.run (matrixScan (debounce c pl)) (matrixInit (init pl)) scans)
        scan).vars.cooked i) :=
  ⟨((run_inv c pl horder.of_append).step scan (run_time_le horder)).2 i,
    ((run_inv c pl horder).places i).apart⟩

end SymEager

/-! ## The two algorithms -/

/-- In every run with timestamps in order, each key or each row of the cooked matrix follows
the raw one, and a call returns whether the cooked matrix has changed. -/
theorem symEager_run (c : Config) (scans : List (Scan w rows cols)) (scan : Scan w rows cols)
    (horder : InOrder (scans ++ [scan])) :
    (let start := matrixInit (SymEager.init (SymEagerPk.places rows cols))
      let b := StateMachine.run (matrixScan (SymEagerPk.debounce c)) start scans
      let b' := matrixScan (SymEagerPk.debounce c) b scan
      (∀ row col,
        let times := changeTimes (SymEagerPk.debounce c) (fun s => s.cooked (row, col)) start
        SymEager.Follows c.debounce.toNat scan.time (times scans) (times (scans ++ [scan]))
          (scan.raw row col) (b'.vars.cooked (row, col))) ∧
        (b'.changed = true ↔ b'.vars.cooked ≠ b.vars.cooked)) ∧
    (let start := matrixInit (SymEager.init (SymEagerPr.places rows cols))
      let b := StateMachine.run (matrixScan (SymEagerPr.debounce c)) start scans
      let b' := matrixScan (SymEagerPr.debounce c) b scan
      (∀ row,
        let times := changeTimes (SymEagerPr.debounce c) (fun s => s.cooked row) start
        SymEager.Follows c.debounce.toNat scan.time (times scans) (times (scans ++ [scan]))
          (scan.raw row) (b'.vars.cooked row)) ∧
        (b'.changed = true ↔ b'.vars.cooked ≠ b.vars.cooked)) := by
  refine ⟨⟨fun row col => ?_, ?_⟩, ⟨fun row => ?_, ?_⟩⟩
  · exact SymEager.run_follows c (SymEagerPk.places rows cols) horder (row, col)
  · exact SymEager.debounce_changed
  · exact SymEager.run_follows c (SymEagerPr.places rows cols) horder row
  · exact SymEager.debounce_changed

/-- A key that is pressed at 1 ms and released at 3 ms follows at 1 and 6 ms. -/
theorem symEager_run_tap :
    let c : Config := ⟨5, by decide⟩
    let scan (time : BitVec 16) (on : Bool) : Scan 16 1 1 := ⟨time, fun _ _ => on⟩
    let start := matrixInit (SymEager.init (SymEagerPk.places 1 1))
    let b := StateMachine.run (matrixScan (SymEagerPk.debounce c)) start [scan 1 true, scan 3 false]
    let b' := matrixScan (SymEagerPk.debounce c) b (scan 6 false)
    let times := changeTimes (SymEagerPk.debounce c) (fun s => s.cooked (0, 0)) start
    InOrder [scan 1 true, scan 3 false, scan 6 false] ∧ b.vars.cooked (0, 0) = true ∧
      times [scan 1 true, scan 3 false, scan 6 false] = [1, 6] ∧
      SymEager.Follows 5 (scan 6 false).time (times [scan 1 true, scan 3 false])
        (times ([scan 1 true, scan 3 false] ++ [scan 6 false])) false
        (b'.vars.cooked (0, 0)) := by
  intro c scan start b b' times
  have horder : InOrder ([scan 1 true, scan 3 false] ++ [scan 6 false]) := by decide
  exact ⟨horder, by decide +kernel, by decide +kernel,
    (symEager_run c [scan 1 true, scan 3 false] (scan 6 false) horder).1.1 0 0⟩

end Debounce
end VialQmk
