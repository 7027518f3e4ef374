import VialQmk.Debounce.Scan

/-!
# Debounce - eager down, deferred up

With {lit}`asym_eager_defer_pk` a key goes down at once, and is locked for {lit}`DEBOUNCE` ms
then.  It goes up when it has been seen up for as long.  One counter serves both, with a
bit that tells which of them it counts.

Main results:

- Definition {lit}`AsymEagerDeferPk.debounce`: the algorithm.
- Theorem {lit}`asymEagerDefer_run`: a key that is seen down is down in the cooked matrix, goes
  up there only when it has been held up, and does so when this goes on; and a call returns
  whether the cooked matrix has changed.
-/

namespace VialQmk
namespace Debounce

variable {w rows cols : ℕ}

/-! ## The rule -/

section Rule

variable {scans : List (Scan w rows cols)} {scan : Scan w rows cols}

/-- The latest scans have all seen a value, for some time until one of them, and for as long
from this one on. -/
def HeldTwice {β : Type} (p : KeyMatrix rows cols → β) (v : β) (d : ℕ) (now : BitVec w)
    (scans : List (Scan w rows cols)) : Prop :=
  ∃ before first between second later,
    scans = before ++ first :: between ++ second :: later ∧
    (∀ scan ∈ first :: between ++ second :: later, p scan.raw = v) ∧
    first.time.toNat + d ≤ second.time.toNat ∧ second.time.toNat + d ≤ now.toNat

/-- What the algorithm makes of a key: down at once, up when it has been held up. -/
structure DownUp (p : KeyMatrix rows cols → Bool) (d : ℕ) (scans : List (Scan w rows cols))
    (scan : Scan w rows cols) (cooked cooked' : KeyMatrix rows cols) : Prop where
  down : p scan.raw = true → p cooked' = true
  up : p cooked = true → p cooked' = false → Held p false d scan.time (scans ++ [scan])
  settled : HeldTwice p false d scan.time (scans ++ [scan]) → p cooked' = false

end Rule

/-! ## The algorithm -/

namespace AsymEagerDeferPk

/-- {lit}`DEBOUNCE`, from 1 to 127 -/
structure Config where
  debounce : BitVec 7
  debounce_ne_zero : debounce ≠ 0

/-- {lit}`debounce_counter_t` -/
structure Counter where
  pressed : Bool
  time : BitVec 7

/-- The variables of the file, and the cooked matrix. -/
structure Vars (w rows cols : ℕ) where
  debounceCounters : Fin rows → Fin cols → Counter
  lastTime : BitVec w
  countersNeedUpdate : Bool
  matrixNeedUpdate : Bool
  cookedChanged : Bool
  cooked : KeyMatrix rows cols

variable (c : Config)

/-- One round of {lit}`update_debounce_counters_and_transfer_if_expired` -/
def updateKey (raw : KeyMatrix rows cols) (elapsed : UInt8) (s : Vars w rows cols)
    (key : Fin rows × Fin cols) : Vars w rows cols :=
  let row := key.1
  let col := key.2
  let counter := s.debounceCounters row col
  if counter.time ≠ 0 then
    if counter.time.toNat ≤ elapsed.toNat then
      let s := { s with
        debounceCounters := setKey s.debounceCounters row col { counter with time := 0 } }
      if counter.pressed = true then { s with matrixNeedUpdate := true }
      else
        let cookedNext := setKey s.cooked row col (raw row col)
        { s with
          cookedChanged := s.cookedChanged || decide (s.cooked row ≠ cookedNext row)
          cooked := cookedNext }
    else
      { s with
        debounceCounters := setKey s.debounceCounters row col
          { counter with time := counter.time - BitVec.ofNat 7 elapsed.toNat }
        countersNeedUpdate := true }
  else s

/-- {lit}`update_debounce_counters_and_transfer_if_expired` -/
def updateDebounceCounters (raw : KeyMatrix rows cols) (elapsed : UInt8) (s : Vars w rows cols) :
    Vars w rows cols :=
  (keys rows cols).foldl (updateKey raw elapsed)
    { s with countersNeedUpdate := false, matrixNeedUpdate := false }

/-- One round of {lit}`transfer_matrix_values` -/
def transferKey (raw : KeyMatrix rows cols) (s : Vars w rows cols) (key : Fin rows × Fin cols) :
    Vars w rows cols :=
  let row := key.1
  let col := key.2
  let counter := s.debounceCounters row col
  if raw row col ≠ s.cooked row col then
    if counter.time = 0 then
      let s := { s with
        debounceCounters := setKey s.debounceCounters row col ⟨raw row col, c.debounce⟩
        countersNeedUpdate := true }
      if raw row col = true then
        { s with
          cooked := setKey s.cooked row col (!s.cooked row col)
          cookedChanged := true }
      else s
    else s
  else if counter.time ≠ 0 then
    if counter.pressed = false then
      { s with debounceCounters := setKey s.debounceCounters row col { counter with time := 0 } }
    else s
  else s

/-- {lit}`transfer_matrix_values` -/
def transferMatrixValues (raw : KeyMatrix rows cols) (s : Vars w rows cols) : Vars w rows cols :=
  (keys rows cols).foldl (transferKey c raw) { s with matrixNeedUpdate := false }

/-- The first half of {lit}`debounce` -/
def passTime (raw : KeyMatrix rows cols) (now : BitVec w) (s : Vars w rows cols) :
    Vars w rows cols :=
  if s.countersNeedUpdate = true then
    let elapsed := elapsedTime now s.lastTime
    let s := { s with lastTime := now }
    if 0 < elapsed then updateDebounceCounters raw elapsed s else s
  else s

/-- {lit}`debounce` -/
def debounce (raw : KeyMatrix rows cols) (changed : Bool) (now : BitVec w) (s : Vars w rows cols) :
    Vars w rows cols × Bool :=
  let updatedLast := s.countersNeedUpdate
  let s := passTime raw now { s with cookedChanged := false }
  let s :=
    if changed = true ∨ s.matrixNeedUpdate = true then
      transferMatrixValues c raw (if updatedLast = true then s else { s with lastTime := now })
    else s
  (s, s.cookedChanged)

/-- {lit}`debounce_init`, which leaves the other bit of a counter as {lit}`malloc` returns it. -/
def init (pressed : Fin rows → Fin cols → Bool) : Vars w rows cols :=
  ⟨fun row col => ⟨pressed row col, 0⟩, 0, false, false, false, allOff⟩

variable {c} {s : Vars w rows cols} {raw : KeyMatrix rows cols} {elapsed : UInt8} {now : BitVec w}

/-! ### The loops -/

/-- What belongs to a key: its counter, and its bit in the cooked matrix. -/
def Vars.key (key : Fin rows × Fin cols) (s : Vars w rows cols) : Counter × Bool :=
  (s.debounceCounters key.1 key.2, s.cooked key.1 key.2)

/-- A key after {lit}`update_debounce_counters_and_transfer_if_expired` -/
def updated (on : Bool) (elapsed : UInt8) (x : Counter × Bool) : Counter × Bool :=
  if x.1.time ≠ 0 then
    if x.1.time.toNat ≤ elapsed.toNat then
      ({ x.1 with time := 0 }, if x.1.pressed = true then x.2 else on)
    else ({ x.1 with time := x.1.time - BitVec.ofNat 7 elapsed.toNat }, x.2)
  else x

/-- A key after {lit}`transfer_matrix_values` -/
def transferred (c : Config) (on : Bool) (x : Counter × Bool) : Counter × Bool :=
  if on ≠ x.2 then
    if x.1.time = 0 then (⟨on, c.debounce⟩, if on = true then !x.2 else x.2) else x
  else if x.1.time ≠ 0 then
    if x.1.pressed = false then ({ x.1 with time := 0 }, x.2) else x
  else x

theorem key_updateKey_of_ne (s : Vars w rows cols) (i j : Fin rows × Fin cols) (hne : j ≠ i) :
    (updateKey raw elapsed s j).key i = s.key i := by
  unfold updateKey Vars.key
  dsimp only
  split_ifs
  · simp only [setKey_of_ne _ _ hne]
  · simp only [setKey_of_ne _ _ hne]
  · simp only [setKey_of_ne _ _ hne]
  · rfl

theorem key_updateKey (s : Vars w rows cols) (i : Fin rows × Fin cols) :
    (updateKey raw elapsed s i).key i = updated (raw i.1 i.2) elapsed (s.key i) := by
  unfold updateKey Vars.key updated
  dsimp only
  split_ifs <;> simp

theorem key_transferKey_of_ne (s : Vars w rows cols) (i j : Fin rows × Fin cols) (hne : j ≠ i) :
    (transferKey c raw s j).key i = s.key i := by
  unfold transferKey Vars.key
  dsimp only
  split_ifs
  · simp only [setKey_of_ne _ _ hne]
  · simp only [setKey_of_ne _ _ hne]
  · rfl
  · simp only [setKey_of_ne _ _ hne]
  · rfl
  · rfl

theorem key_transferKey (s : Vars w rows cols) (i : Fin rows × Fin cols) :
    (transferKey c raw s i).key i = transferred c (raw i.1 i.2) (s.key i) := by
  unfold transferKey Vars.key transferred
  dsimp only
  split_ifs <;> simp

theorem updateDebounceCounters_key (s : Vars w rows cols) (i : Fin rows × Fin cols) :
    (updateDebounceCounters raw elapsed s).key i = updated (raw i.1 i.2) elapsed (s.key i) := by
  apply Sweep.get_foldl (f := fun i => updated (raw i.1 i.2) elapsed) key_updateKey
    key_updateKey_of_ne nodup_keys
  exact mem_keys i.1 i.2

theorem transferMatrixValues_key (s : Vars w rows cols) (i : Fin rows × Fin cols) :
    (transferMatrixValues c raw s).key i = transferred c (raw i.1 i.2) (s.key i) := by
  apply Sweep.get_foldl (f := fun i => transferred c (raw i.1 i.2)) key_transferKey
    key_transferKey_of_ne nodup_keys
  exact mem_keys i.1 i.2

/-- A flag is up for the counters that go on. -/
theorem updateDebounceCounters_countersNeedUpdate (s : Vars w rows cols) :
    (updateDebounceCounters raw elapsed s).countersNeedUpdate = true ↔
      ∃ i, elapsed.toNat < (s.key i).1.time.toNat := by
  have hflag : ∀ (s : Vars w rows cols) i, (updateKey raw elapsed s i).countersNeedUpdate = true ↔
      s.countersNeedUpdate = true ∨ elapsed.toNat < (s.key i).1.time.toNat := by
    intro s i
    unfold updateKey Vars.key
    dsimp only
    split_ifs with hrun hle hpressed
    · simp [Nat.not_lt.mpr hle]
    · simp [Nat.not_lt.mpr hle]
    · simp [Nat.lt_of_not_le hle]
    · simp [not_not.mp hrun]
  refine (Sweep.flag_foldl (fun s => s.countersNeedUpdate = true)
    (fun _ x => elapsed.toNat < x.1.time.toNat) key_updateKey_of_ne hflag nodup_keys _).trans ?_
  simp [mem_keys, Vars.key]

/-- A flag is up when a lock has come to its end. -/
theorem updateDebounceCounters_matrixNeedUpdate (s : Vars w rows cols) :
    (updateDebounceCounters raw elapsed s).matrixNeedUpdate = true ↔
      ∃ i, (s.key i).1.time ≠ 0 ∧ (s.key i).1.time.toNat ≤ elapsed.toNat ∧
        (s.key i).1.pressed = true := by
  have hflag : ∀ (s : Vars w rows cols) i, (updateKey raw elapsed s i).matrixNeedUpdate = true ↔
      s.matrixNeedUpdate = true ∨ ((s.key i).1.time ≠ 0 ∧
        (s.key i).1.time.toNat ≤ elapsed.toNat ∧ (s.key i).1.pressed = true) := by
    intro s i
    unfold updateKey Vars.key
    dsimp only
    split_ifs with hrun hle hpressed
    · exact iff_of_true rfl (Or.inr ⟨hrun, hle, hpressed⟩)
    · simp [hpressed]
    · simp [hle]
    · simp [not_not.mp hrun]
  refine (Sweep.flag_foldl (fun s => s.matrixNeedUpdate = true)
    (fun _ x => x.1.time ≠ 0 ∧ x.1.time.toNat ≤ elapsed.toNat ∧ x.1.pressed = true)
    key_updateKey_of_ne hflag nodup_keys _).trans ?_
  simp [mem_keys, Vars.key]

theorem updateDebounceCounters_cookedChanged (s : Vars w rows cols) :
    (updateDebounceCounters raw elapsed s).cookedChanged = true ↔ s.cookedChanged = true ∨
      ∃ i, (updated (raw i.1 i.2) elapsed (s.key i)).2 ≠ (s.key i).2 := by
  have hflag : ∀ (s : Vars w rows cols) i, (updateKey raw elapsed s i).cookedChanged = true ↔
      s.cookedChanged = true ∨ (updated (raw i.1 i.2) elapsed (s.key i)).2 ≠ (s.key i).2 := by
    intro s i
    unfold updateKey Vars.key updated
    dsimp only
    split_ifs with hrun hle hpressed
    · simp
    · rw [Bool.or_eq_true, decide_eq_true_eq, setKey_row_ne_iff, ne_comm]
    · simp
    · simp
  refine (Sweep.flag_foldl (fun s => s.cookedChanged = true)
    (fun i x => (updated (raw i.1 i.2) elapsed x).2 ≠ x.2) key_updateKey_of_ne hflag
    nodup_keys _).trans ?_
  simp [mem_keys, Vars.key]

theorem updateDebounceCounters_lastTime (s : Vars w rows cols) :
    (updateDebounceCounters raw elapsed s).lastTime = s.lastTime := by
  refine Sweep.keep_foldl Vars.lastTime ?_ _ _
  intro s i
  unfold updateKey
  dsimp only
  split_ifs <;> rfl

theorem transferMatrixValues_countersNeedUpdate (s : Vars w rows cols) :
    (transferMatrixValues c raw s).countersNeedUpdate = true ↔ s.countersNeedUpdate = true ∨
      ∃ i : Fin rows × Fin cols, raw i.1 i.2 ≠ (s.key i).2 ∧ (s.key i).1.time = 0 := by
  have hflag : ∀ (s : Vars w rows cols) i, (transferKey c raw s i).countersNeedUpdate = true ↔
      s.countersNeedUpdate = true ∨ (raw i.1 i.2 ≠ (s.key i).2 ∧ (s.key i).1.time = 0) := by
    intro s i
    unfold transferKey Vars.key
    dsimp only
    split_ifs with hdelta hzero hdown hrun hpressed
    · simp [hdelta, hzero]
    · simp [hdelta, hzero]
    · exact (or_iff_left fun hstart => hzero hstart.2).symm
    · simp [not_not.mp hdelta]
    · simp [not_not.mp hdelta]
    · simp [not_not.mp hdelta]
  refine (Sweep.flag_foldl (fun s => s.countersNeedUpdate = true)
    (fun i x => raw i.1 i.2 ≠ x.2 ∧ x.1.time = 0) key_transferKey_of_ne hflag nodup_keys _).trans ?_
  simp [mem_keys, Vars.key]

theorem transferMatrixValues_cookedChanged (s : Vars w rows cols) :
    (transferMatrixValues c raw s).cookedChanged = true ↔ s.cookedChanged = true ∨
      ∃ i, (transferred c (raw i.1 i.2) (s.key i)).2 ≠ (s.key i).2 := by
  have hflag : ∀ (s : Vars w rows cols) i, (transferKey c raw s i).cookedChanged = true ↔
      s.cookedChanged = true ∨ (transferred c (raw i.1 i.2) (s.key i)).2 ≠ (s.key i).2 := by
    intro s i
    unfold transferKey Vars.key transferred
    dsimp only
    split_ifs <;> simp
  refine (Sweep.flag_foldl (fun s => s.cookedChanged = true)
    (fun i x => (transferred c (raw i.1 i.2) x).2 ≠ x.2) key_transferKey_of_ne hflag
    nodup_keys _).trans ?_
  simp [mem_keys, Vars.key]

theorem transferMatrixValues_lastTime (s : Vars w rows cols) :
    (transferMatrixValues c raw s).lastTime = s.lastTime := by
  refine Sweep.keep_foldl Vars.lastTime ?_ _ _
  intro s i
  unfold transferKey
  dsimp only
  split_ifs <;> rfl

/-! ### Time -/

theorem updated_of_zero {on : Bool} {x : Counter × Bool} (hx : x.1.time = 0) :
    updated on elapsed x = x :=
  if_neg (not_not.mpr hx)

theorem updated_zero (on : Bool) (x : Counter × Bool) : updated on 0 x = x := by
  by_cases hrun : x.1.time = 0
  · exact updated_of_zero hrun
  · have hpos : ¬ x.1.time.toNat ≤ (0 : UInt8).toNat := by
      intro hle
      apply hrun
      rw [← BitVec.toNat_inj]
      exact Nat.le_zero.mp hle
    rw [updated, if_pos hrun, if_neg hpos]
    simp

/-- A counter that still runs. -/
theorem lt_of_updated {on : Bool} {x : Counter × Bool}
    (hne : (updated on elapsed x).1.time ≠ 0) : elapsed.toNat < x.1.time.toNat := by
  unfold updated at hne
  split_ifs at hne with hrun hle hpressed
  · exact absurd rfl hne
  · exact absurd rfl hne
  · exact Nat.lt_of_not_le hle
  · exact absurd hne hrun

/-- The keys after time has passed. -/
theorem passTime_key (hneed : ∀ i, (s.key i).1.time ≠ 0 → s.countersNeedUpdate = true)
    (i : Fin rows × Fin cols) :
    (passTime raw now s).key i = updated (raw i.1 i.2) (elapsedTime now s.lastTime) (s.key i) := by
  unfold passTime
  by_cases hflag : s.countersNeedUpdate = true
  · rw [if_pos hflag]
    dsimp only
    split_ifs with hpos
    · exact updateDebounceCounters_key _ i
    · have hzero : elapsedTime now s.lastTime = 0 := UInt8.le_zero_iff.mp (UInt8.not_lt.mp hpos)
      rw [hzero, updated_zero]
      rfl
  · rw [if_neg hflag, updated_of_zero]
    by_contra hne
    exact hflag (hneed i hne)

theorem passTime_needUpdate (hneed : ∀ i, (s.key i).1.time ≠ 0 → s.countersNeedUpdate = true)
    (i : Fin rows × Fin cols) (hne : ((passTime raw now s).key i).1.time ≠ 0) :
    (passTime raw now s).countersNeedUpdate = true := by
  by_cases hflag : s.countersNeedUpdate = true
  · rw [passTime_key hneed] at hne
    simp only [passTime, if_pos hflag]
    split_ifs
    · rw [updateDebounceCounters_countersNeedUpdate]
      exact ⟨i, lt_of_updated hne⟩
    · exact hflag
  · rw [passTime, if_neg hflag] at hne
    exact absurd (hneed i hne) hflag

/-- A lock that ends raises a flag. -/
theorem passTime_matrixNeedUpdate {i : Fin rows × Fin cols}
    (hneed : (s.key i).1.time ≠ 0 → s.countersNeedUpdate = true)
    (hrun : (s.key i).1.time ≠ 0) (hpressed : (s.key i).1.pressed = true)
    (hle : (s.key i).1.time.toNat ≤ (elapsedTime now s.lastTime).toNat) :
    (passTime raw now s).matrixNeedUpdate = true := by
  have hpos : 0 < elapsedTime now s.lastTime := by
    rw [UInt8.lt_iff_toNat_lt, UInt8.toNat_zero]
    have htime : (s.key i).1.time.toNat ≠ 0 := by
      intro hzero
      apply hrun
      rw [← BitVec.toNat_inj]
      exact hzero
    omega
  simp only [passTime, if_pos (hneed hrun), if_pos hpos]
  rw [updateDebounceCounters_matrixNeedUpdate]
  exact ⟨i, hrun, hle, hpressed⟩

theorem passTime_lastTime (hflag : s.countersNeedUpdate = true) :
    (passTime raw now s).lastTime = now := by
  rw [passTime, if_pos hflag]
  dsimp only
  split_ifs
  · exact updateDebounceCounters_lastTime _
  · rfl

/-- A bit that changes on the way is that of the raw matrix. -/
theorem updated_bit (on : Bool) (x : Counter × Bool) :
    (updated on elapsed x).2 = x.2 ∨ (updated on elapsed x).2 = on := by
  unfold updated
  split_ifs with hrun hle hpressed
  · exact Or.inl rfl
  · exact Or.inr rfl
  · exact Or.inl rfl
  · exact Or.inl rfl

theorem passTime_bit (s : Vars w rows cols) (i : Fin rows × Fin cols) :
    ((passTime raw now s).key i).2 = (s.key i).2 ∨
      ((passTime raw now s).key i).2 = raw i.1 i.2 := by
  unfold passTime
  dsimp only
  split_ifs
  · rw [updateDebounceCounters_key]
    exact updated_bit _ _
  · exact Or.inl rfl
  · exact Or.inl rfl

theorem passTime_cookedChanged (hclear : s.cookedChanged = false) :
    (passTime raw now s).cookedChanged = true ↔
      ∃ i, ((passTime raw now s).key i).2 ≠ (s.key i).2 := by
  by_cases hflag : s.countersNeedUpdate = true
  · simp only [passTime, if_pos hflag]
    split_ifs
    · rw [updateDebounceCounters_cookedChanged]
      simp only [updateDebounceCounters_key]
      simp [hclear, Vars.key]
    · simp [hclear, Vars.key]
  · rw [passTime, if_neg hflag]
    simp [hclear]

/-! ### The call -/

theorem toNat_sub_of_lt {t : BitVec 7} (hlt : elapsed.toNat < t.toNat) :
    (t - BitVec.ofNat 7 elapsed.toNat).toNat = t.toNat - elapsed.toNat := by
  have hsmall : (BitVec.ofNat 7 elapsed.toNat).toNat = elapsed.toNat :=
    Nat.mod_eq_of_lt (by omega)
  have hle : BitVec.ofNat 7 elapsed.toNat ≤ t := by
    rw [BitVec.le_def, hsmall]
    exact Nat.le_of_lt hlt
  rw [BitVec.toNat_sub_of_le hle, hsmall]

theorem sub_ne_zero_of_lt {t : BitVec 7} (hlt : elapsed.toNat < t.toNat) :
    t - BitVec.ofNat 7 elapsed.toNat ≠ 0 := by
  rw [Ne, ← BitVec.toNat_inj, toNat_sub_of_lt hlt]
  exact Nat.sub_ne_zero_of_lt hlt

/-- A counter that runs goes on, but for one that counts for a key that is down again. -/
theorem transferred_of_running {on : Bool} {x : Counter × Bool} (hrun : x.1.time ≠ 0)
    (hgoes : x.1.pressed = true ∨ on ≠ x.2) : transferred c on x = x := by
  unfold transferred
  split_ifs with hdelta hpressed
  · rfl
  · rcases hgoes with hdown | hne
    · exact absurd (hdown.symm.trans hpressed) Bool.true_eq_false_eq_False
    · exact absurd hne hdelta
  · rfl

/-- A key after the call.  When nothing is transferred there is nothing to transfer. -/
theorem debounce_key {changed : Bool}
    (hneed : ∀ i, (s.key i).1.time ≠ 0 → s.countersNeedUpdate = true)
    (hsame : changed = false → ∀ i : Fin rows × Fin cols,
      ((s.key i).1.time = 0 → (s.key i).2 = raw i.1 i.2) ∧
        ((s.key i).1.time ≠ 0 → (s.key i).1.pressed = false → (s.key i).2 ≠ raw i.1 i.2))
    (i : Fin rows × Fin cols) :
    (debounce c raw changed now s).1.key i = transferred c (raw i.1 i.2)
      (updated (raw i.1 i.2) (elapsedTime now s.lastTime) (s.key i)) := by
  have hpass : (passTime raw now { s with cookedChanged := false }).key i =
      updated (raw i.1 i.2) (elapsedTime now s.lastTime) (s.key i) :=
    @passTime_key w rows cols { s with cookedChanged := false } raw now hneed i
  unfold debounce
  dsimp only
  by_cases hcall : changed = true ∨
      (passTime raw now { s with cookedChanged := false }).matrixNeedUpdate = true
  · rw [if_pos hcall, transferMatrixValues_key]
    split_ifs
    · rw [hpass]
    · exact congrArg (transferred c (raw i.1 i.2)) hpass
  · rw [if_neg hcall, hpass]
    rw [not_or, Bool.not_eq_true] at hcall
    have hbit := hsame hcall.1 i
    by_cases hrun : (s.key i).1.time = 0
    · rw [updated_of_zero hrun, transferred, if_neg (not_not.mpr (hbit.1 hrun).symm),
        if_neg (not_not.mpr hrun)]
    · by_cases hle : (s.key i).1.time.toNat ≤ (elapsedTime now s.lastTime).toNat
      · have hup : (s.key i).1.pressed ≠ true := by
          intro hpressed
          apply hcall.2
          exact @passTime_matrixNeedUpdate w rows cols { s with cookedChanged := false } raw now i
            (hneed i) hrun hpressed hle
        rw [updated, if_pos hrun, if_pos hle, if_neg hup]
        simp [transferred]
      · rw [updated, if_pos hrun, if_neg hle]
        refine (transferred_of_running (sub_ne_zero_of_lt (Nat.lt_of_not_le hle)) ?_).symm
        by_cases hpressed : (s.key i).1.pressed = true
        · exact Or.inl hpressed
        · exact Or.inr (hbit.2 hrun ((Bool.not_eq_true _).mp hpressed)).symm

theorem debounce_needUpdate {changed : Bool}
    (hneed : ∀ i, (s.key i).1.time ≠ 0 → s.countersNeedUpdate = true) (i : Fin rows × Fin cols)
    (hne : ((debounce c raw changed now s).1.key i).1.time ≠ 0) :
    (debounce c raw changed now s).1.countersNeedUpdate = true := by
  have hpass := @passTime_needUpdate w rows cols { s with cookedChanged := false } raw now hneed i
  have htransfer : ∀ t : Vars w rows cols,
      ((t.key i).1.time ≠ 0 → t.countersNeedUpdate = true) →
        ((transferMatrixValues c raw t).key i).1.time ≠ 0 →
          (transferMatrixValues c raw t).countersNeedUpdate = true := by
    intro t ht hne
    rw [transferMatrixValues_countersNeedUpdate]
    rw [transferMatrixValues_key, transferred] at hne
    split_ifs at hne with hdelta hzero hdown hrun hpressed
    · exact Or.inr ⟨i, hdelta, hzero⟩
    · exact Or.inr ⟨i, hdelta, hzero⟩
    · exact Or.inl (ht hne)
    · exact absurd rfl hne
    · exact Or.inl (ht hne)
    · exact Or.inl (ht hne)
  unfold debounce at hne ⊢
  dsimp only at hne ⊢
  split_ifs at hne ⊢
  · exact htransfer _ hpass hne
  · exact htransfer _ hpass hne
  · exact hpass hne

theorem debounce_lastTime {changed : Bool}
    (hflag : (debounce c raw changed now s).1.countersNeedUpdate = true) :
    (debounce c raw changed now s).1.lastTime = now := by
  unfold debounce at hflag ⊢
  dsimp only at hflag ⊢
  split_ifs at hflag ⊢ with hcall hneed
  · rw [transferMatrixValues_lastTime]
    exact passTime_lastTime hneed
  · rw [transferMatrixValues_lastTime]
  · by_cases hneed : s.countersNeedUpdate = true
    · exact passTime_lastTime hneed
    · rw [passTime, if_neg hneed] at hflag
      exact absurd hflag hneed

/-- A bit that is as in the raw matrix is not transferred. -/
theorem transferred_bit {on : Bool} {x : Counter × Bool} (hsame : x.2 = on) :
    (transferred c on x).2 = x.2 := by
  unfold transferred
  rw [if_neg (not_not.mpr hsame.symm)]
  split_ifs <;> rfl

/-- The call returns whether the cooked matrix has changed. -/
theorem debounce_changed {changed : Bool} :
    (debounce c raw changed now s).2 = true ↔
      (debounce c raw changed now s).1.cooked ≠ s.cooked := by
  have hcooked : ∀ t : Vars w rows cols, t.cooked ≠ s.cooked ↔ ∃ i, (t.key i).2 ≠ (s.key i).2 := by
    intro t
    rw [Function.ne_iff]
    simp only [Function.ne_iff, Vars.key, Prod.exists]
  have hpass := @passTime_cookedChanged w rows cols { s with cookedChanged := false } raw now rfl
  have hbit := @passTime_bit w rows cols raw now { s with cookedChanged := false }
  have htransfer : ∀ t : Vars w rows cols,
      (t.cookedChanged = true ↔ ∃ i, (t.key i).2 ≠ (s.key i).2) →
        (∀ i, (t.key i).2 = (s.key i).2 ∨ (t.key i).2 = raw i.1 i.2) →
          ((transferMatrixValues c raw t).cookedChanged = true ↔
            ∃ i, ((transferMatrixValues c raw t).key i).2 ≠ (s.key i).2) := by
    intro t ht hbits
    rw [transferMatrixValues_cookedChanged, ht, ← exists_or]
    apply exists_congr
    intro i
    rw [transferMatrixValues_key]
    rcases hbits i with hkept | hcopied
    · rw [hkept]
      simp
    · rw [transferred_bit hcopied]
      simp
  unfold debounce
  dsimp only
  rw [hcooked]
  split_ifs
  · exact htransfer _ hpass hbit
  · exact htransfer _ hpass hbit
  · exact hpass

/-! ### One key -/

/-- A counter that runs was started some time ago: for a key that went down, or for one that
has been up from some time before on. -/
structure Counts (c : Config) (time : BitVec w) (on : Bool) (counter : Counter)
    (st : Steady w Bool) (start : BitVec w) : Prop where
  le : start ≤ time
  left : counter.time.toNat + (time.toNat - start.toNat) = c.debounce.toNat
  pressed : counter.pressed = true → on = false → ∀ t ∈ st.since, start ≤ t
  released : counter.pressed = false → on = false ∧ ∀ t ∈ st.since, t ≤ start

/-- What is known about a key: it is as in the raw matrix when its counter does not run, and
down when it does. -/
structure KeyInv (c : Config) (time : BitVec w) (on : Bool) (x : Counter × Bool)
    (st : Steady w Bool) : Prop where
  value : st.value = on
  idle : x.1.time = 0 → x.2 = on
  seen : x.2 = true → ∃ t, st.since = some t
  running : x.1.time ≠ 0 → x.2 = true ∧ ∃ start, Counts c time on x.1 st start

/-- What a call makes of a key. -/
structure CallRule (c : Config) (now : BitVec w) (on : Bool) (st : Steady w Bool)
    (bit bit' : Bool) : Prop where
  down : on = true → bit' = true
  up : bit = true → bit' = false →
    on = false ∧ ∃ t ∈ st.since, t.toNat + c.debounce.toNat ≤ now.toNat

section Key

variable {time : BitVec w} {on on' : Bool} {x : Counter × Bool} {st : Steady w Bool}

theorem KeyInv.seen_next (h : KeyInv c time on x st) (hdown : on' = true ∨ x.2 = true) :
    ∃ t, (st.next now on').since = some t := by
  rcases st.next_cases now on' with ⟨hsame, hsince⟩ | ⟨-, hsince⟩
  · rw [hsince]
    apply h.seen
    rcases hdown with hon | hbit
    · by_cases hrun : x.1.time = 0
      · rw [h.idle hrun, ← h.value, ← hsame, hon]
      · exact (h.running hrun).1
    · exact hbit
  · exact ⟨now, hsince⟩

theorem since_next_le (hle : time ≤ now) (hsince : ∀ t ∈ st.since, t ≤ time) :
    ∀ t ∈ (st.next now on').since, t ≤ now := by
  intro t ht
  rcases st.next_cases now on' with ⟨-, hnext⟩ | ⟨-, hnext⟩
  · rw [hnext] at ht
    exact BitVec.le_trans (hsince t ht) hle
  · rw [hnext, Option.mem_some] at ht
    rw [ht]
    exact BitVec.le_refl t

/-- The key is as in the raw matrix, and its counter does not run. -/
theorem KeyInv.rest (h : KeyInv c time on x st) (pressed : Bool) :
    KeyInv c now on' (⟨pressed, 0⟩, on') (st.next now on') := by
  constructor
  · exact st.next_value now on'
  · exact fun _ => rfl
  · exact fun hdown => h.seen_next (Or.inl hdown)
  · exact fun hrun => absurd rfl hrun

/-- The key is down, and its counter starts. -/
theorem KeyInv.start (h : KeyInv c time on x st) (hle : time ≤ now)
    (hsince : ∀ t ∈ st.since, t ≤ time) (hdown : on' = true ∨ x.2 = true) :
    KeyInv c now on' (⟨on', c.debounce⟩, true) (st.next now on') := by
  constructor
  · exact st.next_value now on'
  · exact fun hzero => absurd hzero c.debounce_ne_zero
  · exact fun _ => h.seen_next hdown
  · refine fun _ => ⟨rfl, now, BitVec.le_refl now, ?_, ?_, ?_⟩
    · rw [Nat.sub_self, Nat.add_zero]
    · intro hpressed hup
      exact absurd (hpressed.symm.trans hup) Bool.true_eq_false_eq_False
    · exact fun hup => ⟨hup, since_next_le hle hsince⟩

/-- The counter goes on. -/
theorem KeyInv.go (h : KeyInv c time on x st) (hle : time ≤ now)
    (hpassed : elapsed.toNat = min (now.toNat - time.toNat) 255)
    (hlt : elapsed.toNat < x.1.time.toNat) (hrun : x.1.time ≠ 0)
    (hgoes : x.1.pressed = true ∨ on' = false) :
    KeyInv c now on' (⟨x.1.pressed, x.1.time - BitVec.ofNat 7 elapsed.toNat⟩, true)
      (st.next now on') := by
  rcases h.running hrun with ⟨hbit, start, hstart⟩
  have htime : time.toNat ≤ now.toNat := BitVec.le_def.mp hle
  have hstartle : start.toNat ≤ time.toNat := BitVec.le_def.mp hstart.le
  constructor
  · exact st.next_value now on'
  · exact fun hzero => absurd hzero (sub_ne_zero_of_lt hlt)
  · exact fun _ => h.seen_next (Or.inr hbit)
  · refine fun _ => ⟨rfl, start, BitVec.le_trans hstart.le hle, ?_, ?_, ?_⟩
    · have hleft := hstart.left
      rw [toNat_sub_of_lt hlt]
      omega
    · intro hpressed hup t ht
      rcases st.next_cases now on' with ⟨hsame, hnext⟩ | ⟨-, hnext⟩
      · rw [hnext] at ht
        exact hstart.pressed hpressed (h.value.symm.trans (hsame.symm.trans hup)) t ht
      · rw [hnext, Option.mem_some] at ht
        rw [← ht]
        exact BitVec.le_trans hstart.le hle
    · intro hreleased
      have hup : on' = false := by
        rcases hgoes with hpressed | hup
        · exact absurd (hpressed.symm.trans hreleased) Bool.true_eq_false_eq_False
        · exact hup
      refine ⟨hup, fun t ht => ?_⟩
      have hsame : on' = st.value := by
        rw [hup, h.value, (hstart.released hreleased).1]
      rw [Steady.next, if_pos hsame] at ht
      exact (hstart.released hreleased).2 t ht

/-- What a call makes of a key whose counter does not run. -/
theorem KeyInv.next_idle {pressed bit : Bool} (h : KeyInv c time on (⟨pressed, 0⟩, bit) st)
    (hle : time ≤ now) (hsince : ∀ t ∈ st.since, t ≤ time) :
    KeyInv c now on' (transferred c on' (⟨pressed, 0⟩, bit)) (st.next now on') ∧
      CallRule c now on' (st.next now on') bit (transferred c on' (⟨pressed, 0⟩, bit)).2 := by
  by_cases hbit : on' = bit
  · subst hbit
    have hsame : transferred c on' (⟨pressed, 0⟩, on') = (⟨pressed, 0⟩, on') := by
      simp [transferred]
    rw [hsame]
    exact ⟨h.rest pressed, id, fun hdown hup => absurd (hdown.symm.trans hup) nofun⟩
  · have hstart : transferred c on' (⟨pressed, 0⟩, bit) = (⟨on', c.debounce⟩, true) := by
      cases on' <;> cases bit <;> simp_all [transferred]
    have hdown : on' = true ∨ bit = true := by
      cases on' <;> cases bit <;> simp_all
    rw [hstart]
    exact ⟨h.start hle hsince hdown, fun _ => rfl, fun _ hup => absurd hup nofun⟩

/-- What a call makes of a key whose lock is over. -/
theorem KeyInv.next_unlocked {counter : Counter} (h : KeyInv c time on (counter, true) st)
    (hle : time ≤ now) (hsince : ∀ t ∈ st.since, t ≤ time) :
    KeyInv c now on' (transferred c on' (⟨true, 0⟩, true)) (st.next now on') ∧
      CallRule c now on' (st.next now on') true (transferred c on' (⟨true, 0⟩, true)).2 := by
  cases on' with
  | true =>
    have hsame : transferred c true (⟨true, 0⟩, true) = (⟨true, 0⟩, true) := by
      simp [transferred]
    rw [hsame]
    exact ⟨h.rest true, fun _ => rfl, fun _ hup => absurd hup nofun⟩
  | false =>
    have hagain : transferred c false (⟨true, 0⟩, true) = (⟨false, c.debounce⟩, true) := by
      simp [transferred]
    rw [hagain]
    exact ⟨h.start hle hsince (Or.inr rfl), fun _ => rfl, fun _ hup => absurd hup nofun⟩

/-- What a call makes of a key that has been up for {lit}`DEBOUNCE` ms. -/
theorem KeyInv.next_up {left : BitVec 7} (h : KeyInv c time on (⟨false, left⟩, true) st)
    (hle : time ≤ now) (hrun : left ≠ 0)
    (hpassed : elapsed.toNat = min (now.toNat - time.toNat) 255)
    (hexpired : left.toNat ≤ elapsed.toNat) :
    KeyInv c now on' (transferred c on' (⟨false, 0⟩, on')) (st.next now on') ∧
      CallRule c now on' (st.next now on') true (transferred c on' (⟨false, 0⟩, on')).2 := by
  have hsame : transferred c on' (⟨false, 0⟩, on') = (⟨false, 0⟩, on') := by
    simp [transferred]
  rw [hsame]
  refine ⟨h.rest false, id, fun _ hup => ⟨hup, ?_⟩⟩
  rcases (h.running hrun).2 with ⟨start, hstart⟩
  rcases hstart.released rfl with ⟨hon, hbefore⟩
  rcases h.seen rfl with ⟨t, ht⟩
  have hvalue : on' = st.value := hup.trans (hon.symm.trans h.value.symm)
  refine ⟨t, ?_, ?_⟩
  · rw [Steady.next, if_pos hvalue]
    exact ht
  · have htle : t.toNat ≤ start.toNat := BitVec.le_def.mp (hbefore t ht)
    have hsum := hstart.left
    have htime : time.toNat ≤ now.toNat := BitVec.le_def.mp hle
    have hstartle : start.toNat ≤ time.toNat := BitVec.le_def.mp hstart.le
    dsimp only at hsum
    omega

/-- What a call makes of a key whose counter has not come to its end. -/
theorem KeyInv.next_running {pressed : Bool} {left : BitVec 7}
    (h : KeyInv c time on (⟨pressed, left⟩, true) st) (hle : time ≤ now) (hrun : left ≠ 0)
    (hpassed : elapsed.toNat = min (now.toNat - time.toNat) 255)
    (hlt : elapsed.toNat < left.toNat) :
    let x : Counter × Bool := (⟨pressed, left - BitVec.ofNat 7 elapsed.toNat⟩, true)
    KeyInv c now on' (transferred c on' x) (st.next now on') ∧
      CallRule c now on' (st.next now on') true (transferred c on' x).2 := by
  intro x
  by_cases hgoes : pressed = true ∨ on' = false
  · have hsame : transferred c on' x = x := by
      apply transferred_of_running (sub_ne_zero_of_lt hlt)
      rcases hgoes with hpressed | hup
      · exact Or.inl hpressed
      · exact Or.inr (hup ▸ Bool.false_ne_true)
    rw [hsame]
    exact ⟨h.go hle hpassed hlt hrun hgoes, fun _ => rfl, fun _ hup => absurd hup nofun⟩
  · -- the key is down again
    rw [not_or, Bool.not_eq_true, Bool.not_eq_false] at hgoes
    have hstop : transferred c on' x = (⟨false, 0⟩, on') := by
      rw [transferred, hgoes.2, if_neg (not_not.mpr rfl), if_pos (sub_ne_zero_of_lt hlt),
        if_pos hgoes.1, ← hgoes.1]
    rw [hstop]
    exact ⟨h.rest false, id, fun _ hup => absurd (hgoes.2.symm.trans hup) nofun⟩

theorem KeyInv.next (h : KeyInv c time on x st) (on' : Bool) (hle : time ≤ now)
    (hsince : ∀ t ∈ st.since, t ≤ time)
    (helapsed : x.1.time ≠ 0 → elapsed = elapsedTime now time) :
    KeyInv c now on' (transferred c on' (updated on' elapsed x)) (st.next now on') ∧
      CallRule c now on' (st.next now on') x.2
        (transferred c on' (updated on' elapsed x)).2 := by
  rcases x with ⟨⟨pressed, left⟩, bit⟩
  by_cases hrun : left = 0
  · subst hrun
    rw [updated_of_zero rfl]
    exact h.next_idle hle hsince
  · have hbit : bit = true := (h.running hrun).1
    subst hbit
    have hpassed := elapsedTime_toNat hle
    rw [← helapsed hrun] at hpassed
    by_cases hexpired : left.toNat ≤ elapsed.toNat
    · cases pressed with
      | true =>
        have hupdated : updated on' elapsed (⟨true, left⟩, true) = (⟨true, 0⟩, true) := by
          rw [updated, if_pos hrun, if_pos hexpired, if_pos rfl]
        rw [hupdated]
        exact h.next_unlocked hle hsince
      | false =>
        have hupdated : updated on' elapsed (⟨false, left⟩, true) = (⟨false, 0⟩, on') := by
          rw [updated, if_pos hrun, if_pos hexpired, if_neg Bool.false_ne_true]
        rw [hupdated]
        exact h.next_up hle hrun hpassed hexpired
    · have hupdated : updated on' elapsed (⟨pressed, left⟩, true) =
          (⟨pressed, left - BitVec.ofNat 7 elapsed.toNat⟩, true) := by
        rw [updated, if_pos hrun, if_neg hexpired]
      rw [hupdated]
      exact h.next_running hle hrun hpassed (Nat.lt_of_not_le hexpired)

/-- A key that has been up for long is up, or will be in time. -/
def Due (c : Config) (second now : BitVec w) (x : Counter × Bool) : Prop :=
  x.2 = true →
    x.1.pressed = false ∧ x.1.time.toNat + now.toNat ≤ c.debounce.toNat + second.toNat

/-- The lock of a key that went down is over. -/
theorem KeyInv.due (h : KeyInv c time false x st)
    (hheld : ∀ t ∈ st.since, t.toNat + c.debounce.toNat ≤ time.toNat) : Due c time time x := by
  intro hbit
  have hrun : x.1.time ≠ 0 := by
    intro hzero
    exact absurd (hbit.symm.trans (h.idle hzero)) Bool.true_eq_false_eq_False
  have hpos := BitVec.toNat_pos_of_ne_zero hrun
  rcases (h.running hrun).2 with ⟨start, hstart⟩
  have hle : start.toNat ≤ time.toNat := BitVec.le_def.mp hstart.le
  have hleft := hstart.left
  constructor
  · by_contra hpressed
    rw [Bool.not_eq_false] at hpressed
    rcases h.seen hbit with ⟨t, ht⟩
    have hstartle : start.toNat ≤ t.toNat := BitVec.le_def.mp (hstart.pressed hpressed rfl t ht)
    have hlong := hheld t ht
    omega
  · omega

theorem Due.next {second : BitVec w} (hdue : Due c second time x) (h : KeyInv c time false x st)
    (hle : time ≤ now) (helapsed : x.1.time ≠ 0 → elapsed = elapsedTime now time) :
    Due c second now (transferred c false (updated false elapsed x)) := by
  intro hbit'
  by_cases hrun : x.1.time = 0
  · rw [updated_of_zero hrun, transferred_bit (h.idle hrun), h.idle hrun] at hbit'
    exact absurd hbit' Bool.false_ne_true
  · have hbit := (h.running hrun).1
    rcases hdue hbit with ⟨hreleased, hsoon⟩
    have hpassed := elapsedTime_toNat hle
    rw [← helapsed hrun] at hpassed
    have htime : time.toNat ≤ now.toNat := BitVec.le_def.mp hle
    by_cases hexpired : x.1.time.toNat ≤ elapsed.toNat
    · have hupdated : (updated false elapsed x).2 = false := by
        rw [updated, if_pos hrun, if_pos hexpired]
        exact if_neg (hreleased ▸ Bool.false_ne_true)
      rw [transferred_bit hupdated, hupdated] at hbit'
      exact absurd hbit' Bool.false_ne_true
    · have hlt : elapsed.toNat < x.1.time.toNat := Nat.lt_of_not_le hexpired
      have hupdated : updated false elapsed x =
          (⟨x.1.pressed, x.1.time - BitVec.ofNat 7 elapsed.toNat⟩, x.2) := by
        rw [updated, if_pos hrun, if_neg hexpired]
      rw [hupdated, transferred_of_running (sub_ne_zero_of_lt hlt) (Or.inr (by simp [hbit]))]
      refine ⟨hreleased, ?_⟩
      rw [toNat_sub_of_lt hlt]
      omega

/-- The time of the key has come. -/
theorem Due.bit_eq_false {second : BitVec w} (hdue : Due c second now x)
    (h : KeyInv c now false x st) (hlong : second.toNat + c.debounce.toNat ≤ now.toNat) :
    x.2 = false := by
  by_contra hbit
  rw [Bool.not_eq_false] at hbit
  have hrun : x.1.time ≠ 0 := by
    intro hzero
    exact absurd (hbit.symm.trans (h.idle hzero)) Bool.true_eq_false_eq_False
  have hpos := BitVec.toNat_pos_of_ne_zero hrun
  have hsoon := (hdue hbit).2
  omega

end Key

/-! ### Runs -/

/-- What is known about all keys. -/
structure Inv (c : Config) (b : Board w rows cols (Vars w rows cols))
    (st : Fin rows × Fin cols → Steady w Bool) : Prop where
  keys : ∀ i, KeyInv c b.time (b.rawMatrix i.1 i.2) (b.vars.key i) (st i)
  needUpdate : ∀ i, (b.vars.key i).1.time ≠ 0 → b.vars.countersNeedUpdate = true
  lastTime : b.vars.countersNeedUpdate = true → b.vars.lastTime = b.time

theorem inv_init (pressed : Fin rows → Fin cols → Bool) :
    Inv c (matrixInit (init pressed : Vars w rows cols)) fun _ => ⟨false, none⟩ := by
  constructor
  · exact fun _ => ⟨rfl, fun _ => rfl, fun hdown => absurd hdown Bool.false_ne_true,
      fun hrun => absurd rfl hrun⟩
  · exact fun _ hrun => absurd rfl hrun
  · exact fun hflag => absurd hflag Bool.false_ne_true

section Step

variable {b : Board w rows cols (Vars w rows cols)} {st : Fin rows × Fin cols → Steady w Bool}

theorem Inv.key_eq (h : Inv c b st) (scan : Scan w rows cols) (i : Fin rows × Fin cols) :
    (matrixScan (debounce c) b scan).vars.key i = transferred c (scan.raw i.1 i.2)
      (updated (scan.raw i.1 i.2) (elapsedTime scan.time b.vars.lastTime) (b.vars.key i)) := by
  apply debounce_key h.needUpdate
  intro hcall i
  rw [decide_eq_false_iff_not, not_not] at hcall
  rw [hcall]
  refine ⟨(h.keys i).idle, fun hrun hreleased => ?_⟩
  rcases (h.keys i).running hrun with ⟨hbit, start, hstart⟩
  rw [hbit, (hstart.released hreleased).1]
  exact Bool.true_eq_false_eq_False

theorem Inv.elapsed_eq (h : Inv c b st) (now : BitVec w) {i : Fin rows × Fin cols}
    (hrun : (b.vars.key i).1.time ≠ 0) :
    elapsedTime now b.vars.lastTime = elapsedTime now b.time :=
  congrArg (elapsedTime now) (h.lastTime (h.needUpdate i hrun))

theorem Inv.step (h : Inv c b st) (scan : Scan w rows cols) (hle : b.time ≤ scan.time)
    (hsince : ∀ i, ∀ t ∈ (st i).since, t ≤ b.time) :
    Inv c (matrixScan (debounce c) b scan)
        (fun i => (st i).next scan.time (scan.raw i.1 i.2)) ∧
      ∀ i, CallRule c scan.time (scan.raw i.1 i.2) ((st i).next scan.time (scan.raw i.1 i.2))
        (b.vars.key i).2 ((matrixScan (debounce c) b scan).vars.key i).2 := by
  have hnext := fun i => (h.keys i).next (scan.raw i.1 i.2) hle (hsince i)
    (h.elapsed_eq scan.time)
  constructor
  · constructor
    · intro i
      rw [h.key_eq scan i]
      exact (hnext i).1
    · exact debounce_needUpdate h.needUpdate
    · exact debounce_lastTime
  · intro i
    rw [h.key_eq scan i]
    exact (hnext i).2

end Step

section Run

variable (c) (pressed : Fin rows → Fin cols → Bool) {scans : List (Scan w rows cols)}
  {scan : Scan w rows cols}

theorem run_inv (horder : InOrder scans) :
    Inv c (StateMachine.run (matrixScan (debounce c)) (matrixInit (init pressed)) scans)
      fun i => steady (fun m => m i.1 i.2) scans :=
  run_steady (fun i m => m i.1 i.2) (Inv c) (inv_init pressed)
    (fun _ _ scan h hle hsince => (h.step scan hle hsince).1) horder

/-- A key that has been up for long enough at some scan, and since then. -/
theorem run_due {p : List (Scan w rows cols)} {second : Scan w rows cols}
    {i : Fin rows × Fin cols} (hup : second.raw i.1 i.2 = false)
    (hheld : ∀ t ∈ (steady (fun m => m i.1 i.2) (p ++ [second])).since,
      t.toNat + c.debounce.toNat ≤ second.time.toNat)
    (later : List (Scan w rows cols)) (hlater : ∀ scan ∈ later, scan.raw i.1 i.2 = false)
    (horder : InOrder (p ++ [second] ++ later)) :
    let b := StateMachine.run (matrixScan (debounce c)) (matrixInit (init pressed))
      (p ++ [second] ++ later)
    b.rawMatrix i.1 i.2 = false ∧ Due c second.time b.time (b.vars.key i) := by
  induction later using List.reverseRecOn with
  | nil =>
    rw [List.append_nil] at horder ⊢
    have hkey := (run_inv c pressed horder).keys i
    simp only [StateMachine.run_append] at hkey ⊢
    refine ⟨hup, KeyInv.due ?_ hheld⟩
    rw [← hup]
    exact hkey
  | append_singleton later scan ih =>
    rw [← List.append_assoc] at horder ⊢
    rcases ih (fun scan' hmem => hlater scan' (List.mem_append_left _ hmem))
      horder.of_append with ⟨hraw, hdue⟩
    have hinv := run_inv c pressed horder.of_append
    have hkey := hinv.keys i
    have hscan : scan.raw i.1 i.2 = false := hlater scan (by simp)
    rw [hraw] at hkey
    rw [StateMachine.run_append _ (p ++ [second] ++ later)]
    refine ⟨hscan, ?_⟩
    have hnext := hdue.next hkey (run_time_le horder) (hinv.elapsed_eq scan.time)
    rw [← hscan, ← hinv.key_eq scan i] at hnext
    exact hnext

/-- Each key goes down at once, and up when it has been held up. -/
theorem run_downUp (horder : InOrder (scans ++ [scan])) (i : Fin rows × Fin cols) :
    let b := StateMachine.run (matrixScan (debounce c)) (matrixInit (init pressed)) scans
    DownUp (fun m => m i.1 i.2) c.debounce.toNat scans scan b.vars.cooked
      (matrixScan (debounce c) b scan).vars.cooked := by
  intro b
  have hold := horder.of_append
  have hrule := ((run_inv c pressed hold).step scan (run_time_le horder)
    fun i t ht => since_le_run_time hold ht).2 i
  constructor
  · exact hrule.down
  · intro hdown hup
    rcases hrule.up hdown hup with ⟨hraw, t, ht, hlong⟩
    have hvalue : (steady (fun m : KeyMatrix rows cols => m i.1 i.2) (scans ++ [scan])).value =
        false := by
      rw [steady_append, Steady.next_value, hraw]
    rw [← steady_append] at ht
    have hheld := (held_iff horder ht).mpr hlong
    rwa [hvalue] at hheld
  · rintro ⟨before, first, between, second, later, hscans, hup, hfirst, hsecond⟩
    have hlist : scans ++ [scan] = before ++ first :: between ++ [second] ++ later := by
      rw [hscans]
      simp
    have hsteady : ∀ t ∈ (steady (fun m : KeyMatrix rows cols => m i.1 i.2)
        (before ++ first :: between ++ [second])).since,
          t.toNat + c.debounce.toNat ≤ second.time.toNat := by
      intro t ht
      have hsplit : before ++ first :: between ++ [second] =
          before ++ first :: (between ++ [second]) := by simp
      have hpart : InOrder (before ++ first :: between ++ [second]) := by
        rw [hlist, InOrder, List.map_append, List.pairwise_append] at horder
        exact horder.1
      rw [hsplit] at ht hpart
      have hle : t.toNat ≤ first.time.toNat := BitVec.le_def.mp (since_le_of_held hpart
        (fun scan hmem => hup scan (by simp at hmem ⊢; tauto)) ht)
      omega
    have hdue := run_due c pressed (hup second (by simp)) hsteady later
      (fun scan hmem => hup scan (by simp [hmem])) (hlist ▸ horder)
    have hkey := (run_inv c pressed horder).keys i
    rw [← hlist] at hdue
    rw [hdue.1, StateMachine.run_append] at hkey
    rw [StateMachine.run_append] at hdue
    exact hdue.2.bit_eq_false hkey hsecond

end Run

end AsymEagerDeferPk

/-- In every run with timestamps in order a key that is seen down is down in the cooked matrix,
a key goes up there only when it has been held up for {lit}`DEBOUNCE` ms, and is up there when
it has been held up for that long twice; and a call returns whether the cooked matrix has
changed. -/
theorem asymEagerDefer_run (c : AsymEagerDeferPk.Config) (pressed : Fin rows → Fin cols → Bool)
    (scans : List (Scan w rows cols)) (scan : Scan w rows cols)
    (horder : InOrder (scans ++ [scan])) :
    let b := StateMachine.run (matrixScan (AsymEagerDeferPk.debounce c))
      (matrixInit (AsymEagerDeferPk.init pressed)) scans
    let b' := matrixScan (AsymEagerDeferPk.debounce c) b scan
    (∀ row col, DownUp (fun m => m row col) c.debounce.toNat scans scan b.vars.cooked
      b'.vars.cooked) ∧ (b'.changed = true ↔ b'.vars.cooked ≠ b.vars.cooked) :=
  ⟨fun row col => AsymEagerDeferPk.run_downUp c pressed horder (row, col),
    AsymEagerDeferPk.debounce_changed⟩

/-- A key that is pressed at 1 ms and released at 3 ms, in the lock, goes up at 12 ms: the
release is counted from 7 ms on. -/
theorem asymEagerDefer_run_tap :
    let c : AsymEagerDeferPk.Config := ⟨5, by decide⟩
    let scan (time : BitVec 16) (on : Bool) : Scan 16 1 1 := ⟨time, fun _ _ => on⟩
    let scans := [scan 1 true, scan 3 false, scan 7 false]
    let b := StateMachine.run (matrixScan (AsymEagerDeferPk.debounce c))
      (matrixInit (AsymEagerDeferPk.init fun _ _ => true)) scans
    let b' := matrixScan (AsymEagerDeferPk.debounce c) b (scan 12 false)
    InOrder (scans ++ [scan 12 false]) ∧ b.vars.cooked 0 0 = true ∧ b'.vars.cooked 0 0 = false ∧
      DownUp (fun m => m 0 0) 5 scans (scan 12 false) b.vars.cooked b'.vars.cooked := by
  intro c scan scans b b'
  have horder : InOrder (scans ++ [scan 12 false]) := by decide
  exact ⟨horder, by decide +kernel, by decide +kernel,
    (asymEagerDefer_run c (fun _ _ => true) scans (scan 12 false) horder).1 0 0⟩

end Debounce
end VialQmk
