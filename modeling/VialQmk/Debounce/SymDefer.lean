import VialQmk.Debounce.SymDeferPk

/-!
# Debounce - deferred

{lit}`sym_defer_pr` counts down for each row since its last change, and {lit}`sym_defer_g`
looks at the time of the last change of the whole matrix.

Main results:

- Theorem {lit}`symDefer_run`: with the three deferred algorithms each key, each row and the
  whole of the cooked matrix defer, and a call returns whether the cooked matrix has changed.
-/

namespace VialQmk
namespace Debounce

variable {w rows cols : ℕ}

/-! ## {lit}`sym_defer_pr.c` -/

namespace SymDeferPr

/-- The variables of the file, the cooked matrix, and {lit}`cooked_changed` of the call. -/
structure Vars (w rows cols : ℕ) where
  lastTime : BitVec w
  countdowns : Fin rows → UInt8
  lastRaw : KeyMatrix rows cols
  cookedChanged : Bool
  cooked : KeyMatrix rows cols

variable (c : Config)

/-- One round of the loop in {lit}`debounce` -/
def debounceRow (raw : KeyMatrix rows cols) (elapsed : UInt8) (s : Vars w rows cols)
    (row : Fin rows) : Vars w rows cols :=
  let rawRow := raw row
  let countdown := s.countdowns row
  if rawRow ≠ s.lastRaw row then
    { s with
      countdowns := Function.update s.countdowns row c.debounce
      lastRaw := Function.update s.lastRaw row rawRow }
  else if elapsed < countdown then
    { s with countdowns := Function.update s.countdowns row (countdown - elapsed) }
  else if countdown ≠ 0 then
    { s with
      cookedChanged := s.cookedChanged || decide (s.cooked row ≠ rawRow)
      cooked := Function.update s.cooked row rawRow
      countdowns := Function.update s.countdowns row 0 }
  else s

/-- {lit}`debounce` -/
def debounce (raw : KeyMatrix rows cols) (_changed : Bool) (now : BitVec w)
    (s : Vars w rows cols) : Vars w rows cols × Bool :=
  let elapsed := elapsedTime now s.lastTime
  let s := (List.finRange rows).foldl (debounceRow c raw elapsed)
    { s with lastTime := now, cookedChanged := false }
  (s, s.cookedChanged)

/-- {lit}`debounce_init` at some time -/
def init (now : BitVec w) : Vars w rows cols :=
  ⟨now, fun _ => 0, allOff, false, allOff⟩

variable {c} {s : Vars w rows cols} {raw : KeyMatrix rows cols} {elapsed : UInt8}

/-! ### The loop -/

/-- What belongs to a row: its countdown, the row of the latest scan, and the cooked one. -/
def Vars.row (row : Fin rows) (s : Vars w rows cols) : UInt8 × MatrixRow cols × MatrixRow cols :=
  (s.countdowns row, s.lastRaw row, s.cooked row)

/-- A row after a call of {lit}`debounce` -/
def afterCall (c : Config) (rawRow : MatrixRow cols) (elapsed : UInt8)
    (x : UInt8 × MatrixRow cols × MatrixRow cols) : UInt8 × MatrixRow cols × MatrixRow cols :=
  if rawRow ≠ x.2.1 then (c.debounce, rawRow, x.2.2)
  else if elapsed < x.1 then (x.1 - elapsed, x.2)
  else if x.1 ≠ 0 then (0, x.2.1, rawRow)
  else x

theorem row_debounceRow_of_ne (s : Vars w rows cols) (i j : Fin rows) (hne : j ≠ i) :
    (debounceRow c raw elapsed s j).row i = s.row i := by
  unfold debounceRow Vars.row
  dsimp only
  split_ifs
  · simp only [Function.update_of_ne hne.symm]
  · simp only [Function.update_of_ne hne.symm]
  · simp only [Function.update_of_ne hne.symm]
  · rfl

theorem row_debounceRow (s : Vars w rows cols) (i : Fin rows) :
    (debounceRow c raw elapsed s i).row i = afterCall c (raw i) elapsed (s.row i) := by
  unfold debounceRow Vars.row afterCall
  dsimp only
  split_ifs <;> simp

section Calls

variable {now : BitVec w}

theorem debounce_row (changed : Bool) (i : Fin rows) :
    (debounce c raw changed now s).1.row i =
      afterCall c (raw i) (elapsedTime now s.lastTime) (s.row i) :=
  Sweep.get_foldl (f := fun i => afterCall c (raw i) (elapsedTime now s.lastTime))
    row_debounceRow row_debounceRow_of_ne (List.nodup_finRange rows) (List.mem_finRange i) _

theorem debounce_lastTime (changed : Bool) :
    (debounce c raw changed now s).1.lastTime = now := by
  refine Sweep.keep_foldl Vars.lastTime ?_ _ _
  intro s i
  unfold debounceRow
  dsimp only
  split_ifs <;> rfl

/-- The call returns whether a row of the cooked matrix has changed. -/
theorem debounce_changed (changed : Bool) :
    (debounce c raw changed now s).2 = true ↔
      (debounce c raw changed now s).1.cooked ≠ s.cooked := by
  have hflag : ∀ (elapsed : UInt8) (s : Vars w rows cols) i,
      (debounceRow c raw elapsed s i).cookedChanged = true ↔ s.cookedChanged = true ∨
        (afterCall c (raw i) elapsed (s.row i)).2.2 ≠ (s.row i).2.2 := by
    intro elapsed s i
    unfold debounceRow Vars.row afterCall
    dsimp only
    split_ifs
    · simp
    · simp
    · rw [Bool.or_eq_true, decide_eq_true_eq, ne_comm]
    · simp
  have hrows : (debounce c raw changed now s).2 = true ↔
      ∃ i, ((debounce c raw changed now s).1.row i).2.2 ≠ (s.row i).2.2 := by
    simp only [debounce_row]
    refine (Sweep.flag_foldl (fun s => s.cookedChanged = true)
      (fun i x => (afterCall c (raw i) (elapsedTime now s.lastTime) x).2.2 ≠ x.2.2)
      row_debounceRow_of_ne (hflag _) (List.nodup_finRange rows) _).trans ?_
    simp [Vars.row]
  rw [hrows]
  constructor
  · rintro ⟨i, hi⟩ heq
    exact hi (congrFun heq i)
  · intro hne
    by_contra hall
    rw [not_exists] at hall
    exact hne (funext fun i => not_not.mp (hall i))

end Calls

/-! ### One row -/

/-- What is known about a row: the countdown runs since the row has changed, and says how much
is left of {lit}`DEBOUNCE`. -/
structure RowInv (c : Config) (time : BitVec w) (rawRow : MatrixRow cols)
    (x : UInt8 × MatrixRow cols × MatrixRow cols) (st : Steady w (MatrixRow cols)) : Prop where
  value : st.value = rawRow
  lastRaw : x.2.1 = rawRow
  idle : x.1 = 0 → x.2.2 = rawRow
  running : x.1 ≠ 0 →
    ∃ t ∈ st.since, x.1.toNat + (time.toNat - t.toNat) = c.debounce.toNat

theorem RowInv.next {now time : BitVec w} {rawRow rawRow' : MatrixRow cols}
    {x : UInt8 × MatrixRow cols × MatrixRow cols} {st : Steady w (MatrixRow cols)}
    (h : RowInv c time rawRow x st) (hle : time ≤ now) (hsince : ∀ t ∈ st.since, t ≤ time)
    (helapsed : x.1 ≠ 0 → elapsed = elapsedTime now time) :
    RowInv c now rawRow' (afterCall c rawRow' elapsed x) (st.next now rawRow') ∧
      DeferRule c.debounce.toNat now (st.next now rawRow') x.2.2
        (afterCall c rawRow' elapsed x).2.2 := by
  rcases x with ⟨countdown, lastRaw, cooked⟩
  have hlast : lastRaw = rawRow := h.lastRaw
  subst hlast
  by_cases hrow : rawRow' = lastRaw
  · -- the row is the same
    subst hrow
    have hst : st.next now rawRow' = st := by
      rw [Steady.next, if_pos h.value.symm]
    rw [hst]
    by_cases hzero : countdown = 0
    · subst hzero
      have hcooked : cooked = rawRow' := h.idle rfl
      have hsame : afterCall c rawRow' elapsed (0, rawRow', cooked) = (0, rawRow', cooked) := by
        simp [afterCall]
      rw [hsame]
      refine ⟨⟨h.value, rfl, fun _ => hcooked, fun hne => absurd rfl hne⟩, ?_⟩
      exact ⟨fun hne => absurd rfl hne, fun _ _ _ => hcooked.trans h.value.symm,
        fun _ => hcooked.trans h.value.symm⟩
    · rcases h.running hzero with ⟨t, ht, hsum⟩
      have htle : t.toNat ≤ time.toNat := BitVec.le_def.mp (hsince t ht)
      have hnow : time.toNat ≤ now.toNat := BitVec.le_def.mp hle
      have hpassed := elapsedTime_toNat hle
      rw [← helapsed hzero] at hpassed
      have hcountdown : countdown.toNat ≤ 255 := Nat.le_of_lt_succ countdown.toNat_lt
      dsimp only at hsum
      by_cases hrun : elapsed < countdown
      · -- the countdown goes on
        have hgoes : afterCall c rawRow' elapsed (countdown, rawRow', cooked) =
            (countdown - elapsed, rawRow', cooked) := by
          rw [afterCall, if_neg (not_not.mpr rfl), if_pos hrun]
        have hleft : (countdown - elapsed).toNat = countdown.toNat - elapsed.toNat :=
          UInt8.toNat_sub_of_le _ _ (UInt8.le_of_lt hrun)
        rw [UInt8.lt_iff_toNat_lt] at hrun
        rw [hgoes]
        constructor
        · refine ⟨h.value, rfl, fun hz => ?_, fun _ => ⟨t, ht, ?_⟩⟩
          · have hleft_zero := congrArg UInt8.toNat hz
            rw [hleft, UInt8.toNat_zero] at hleft_zero
            omega
          · dsimp only
            rw [hleft]
            omega
        · refine ⟨fun hne => absurd rfl hne, fun t' ht' hlong => ?_, fun hnone => ?_⟩
          · rw [Option.mem_def] at ht ht'
            rw [ht, Option.some.injEq] at ht'
            subst ht'
            omega
          · exact absurd (ht.symm.trans hnone) (Option.some_ne_none _)
      · -- the time is over, and the row is copied
        have hcopied : afterCall c rawRow' elapsed (countdown, rawRow', cooked) =
            (0, rawRow', rawRow') := by
          rw [afterCall, if_neg (not_not.mpr rfl), if_neg hrun, if_pos hzero]
        rw [UInt8.not_lt, UInt8.le_iff_toNat_le] at hrun
        rw [hcopied]
        refine ⟨⟨h.value, rfl, fun _ => rfl, fun hne => absurd rfl hne⟩, ?_⟩
        refine ⟨fun _ => ⟨h.value.symm, t, ht, ?_⟩, fun _ _ _ => h.value.symm,
          fun _ => h.value.symm⟩
        omega
  · -- the row has changed
    have hstart : afterCall c rawRow' elapsed (countdown, lastRaw, cooked) =
        (c.debounce, rawRow', cooked) := if_pos hrow
    have hsince' : (st.next now rawRow').since = some now := by
      rw [Steady.next, if_neg (h.value.symm ▸ hrow)]
    rw [hstart]
    constructor
    · refine ⟨st.next_value now rawRow', rfl, fun hz => absurd hz c.debounce_ne_zero, ?_⟩
      exact fun _ => ⟨now, hsince', by rw [Nat.sub_self, Nat.add_zero]⟩
    · refine ⟨fun hne => absurd rfl hne, fun t ht hlong => ?_, fun hnone => ?_⟩
      · rw [hsince', Option.mem_some] at ht
        subst ht
        have hpos := SymDeferPk.toNat_ne_zero c.debounce_ne_zero
        omega
      · exact absurd (hsince'.symm.trans hnone) (Option.some_ne_none _)

/-! ### Runs -/

/-- What is known about all rows. -/
structure Inv (c : Config) (b : Board w rows cols (Vars w rows cols))
    (st : Fin rows → Steady w (MatrixRow cols)) : Prop where
  rows : ∀ i, RowInv c b.time (b.rawMatrix i) (b.vars.row i) (st i)
  lastTime : ∀ i, (b.vars.row i).1 ≠ 0 → b.vars.lastTime = b.time

theorem Inv.step {b : Board w rows cols (Vars w rows cols)}
    {st : Fin rows → Steady w (MatrixRow cols)} (h : Inv c b st) (scan : Scan w rows cols)
    (hle : b.time ≤ scan.time) (hsince : ∀ i, ∀ t ∈ (st i).since, t ≤ b.time) :
    Inv c (matrixScan (debounce c) b scan) (fun i => (st i).next scan.time (scan.raw i)) ∧
      ∀ i, DeferRule c.debounce.toNat scan.time ((st i).next scan.time (scan.raw i))
        (b.vars.cooked i) ((matrixScan (debounce c) b scan).vars.cooked i) := by
  have hrow : ∀ i, RowInv c scan.time (scan.raw i) ((matrixScan (debounce c) b scan).vars.row i)
        ((st i).next scan.time (scan.raw i)) ∧
      DeferRule c.debounce.toNat scan.time ((st i).next scan.time (scan.raw i))
        (b.vars.row i).2.2 ((matrixScan (debounce c) b scan).vars.row i).2.2 := by
    intro i
    rw [matrixScan]
    dsimp only
    rw [debounce_row]
    apply (h.rows i).next hle (hsince i)
    intro hne
    rw [h.lastTime i hne]
  exact ⟨⟨fun i => (hrow i).1, fun _ _ => debounce_lastTime false⟩, fun i => (hrow i).2⟩

theorem inv_init (now : BitVec w) :
    Inv c (matrixInit (init now : Vars w rows cols)) fun _ => ⟨fun _ => false, none⟩ :=
  ⟨fun _ => ⟨rfl, rfl, fun _ => rfl, fun hne => absurd rfl hne⟩, fun _ hne => absurd rfl hne⟩

/-- Each row of the cooked matrix defers. -/
theorem run_defers (c : Config) (start : BitVec w) {scans : List (Scan w rows cols)}
    {scan : Scan w rows cols} (horder : InOrder (scans ++ [scan])) (i : Fin rows) :
    let b := StateMachine.run (matrixScan (debounce c)) (matrixInit (init start)) scans
    Defers (fun m => m i) c.debounce.toNat scans scan b.vars.cooked
      (matrixScan (debounce c) b scan).vars.cooked := by
  intro b
  have hold := horder.of_append
  have hinv : Inv c b fun i => steady (fun m => m i) scans :=
    run_steady _ (Inv c) (inv_init start)
      (fun b st scan h hle hsince => (h.step scan hle hsince).1) hold
  apply DeferRule.defers horder
  exact (hinv.step scan (run_time_le horder) fun i t ht => since_le_run_time hold ht).2 i

end SymDeferPr

/-! ## {lit}`sym_defer_g.c` -/

namespace SymDeferG

/-- The variables of the file, and the cooked matrix. -/
structure Vars (w rows cols : ℕ) where
  debouncing : Bool
  debouncingTime : BitVec w
  cooked : KeyMatrix rows cols

variable (c : Config)

/-- {lit}`debounce` -/
def debounce (raw : KeyMatrix rows cols) (changed : Bool) (now : BitVec w)
    (s : Vars w rows cols) : Vars w rows cols × Bool :=
  if changed = true then ({ s with debouncing := true, debouncingTime := now }, false)
  else if s.debouncing = true ∧ c.debounce.toNat ≤ (now - s.debouncingTime).toNat then
    if s.cooked ≠ raw then ({ s with debouncing := false, cooked := raw }, true)
    else ({ s with debouncing := false }, false)
  else (s, false)

/-- After the start. -/
def init : Vars w rows cols :=
  ⟨false, 0, allOff⟩

/-- The matrix is copied some time after its last change. -/
structure Inv (b : Board w rows cols (Vars w rows cols))
    (st : Unit → Steady w (KeyMatrix rows cols)) : Prop where
  value : (st ()).value = b.rawMatrix
  idle : b.vars.debouncing = false → b.vars.cooked = b.rawMatrix
  running : b.vars.debouncing = true → (st ()).since = some b.vars.debouncingTime

variable {c} {s : Vars w rows cols} {raw : KeyMatrix rows cols} {now : BitVec w}

/-- The call returns whether the cooked matrix has changed. -/
theorem debounce_changed (changed : Bool) :
    (debounce c raw changed now s).2 = true ↔
      (debounce c raw changed now s).1.cooked ≠ s.cooked := by
  unfold debounce
  split_ifs with hcall hexpired hdiff
  · simp
  · simpa using Ne.symm hdiff
  · simp
  · simp

theorem Inv.step {b : Board w rows cols (Vars w rows cols)}
    {st : Unit → Steady w (KeyMatrix rows cols)} (h : Inv b st) (scan : Scan w rows cols)
    (hle : b.time ≤ scan.time) (hsince : ∀ i, ∀ t ∈ (st i).since, t ≤ b.time) :
    Inv (matrixScan (debounce c) b scan) (fun i => (st i).next scan.time scan.raw) ∧
      DeferRule c.debounce.toNat scan.time ((st ()).next scan.time scan.raw) b.vars.cooked
        (matrixScan (debounce c) b scan).vars.cooked := by
  by_cases hraw : scan.raw = b.rawMatrix
  · -- nothing has changed
    have hst : (st ()).next scan.time scan.raw = st () := by
      rw [Steady.next, if_pos (hraw.trans h.value.symm)]
    have hcall : ¬ decide (scan.raw ≠ b.rawMatrix) = true := by simp [hraw]
    simp only [matrixScan, debounce, if_neg hcall, hst]
    by_cases hexpired : b.vars.debouncing = true ∧
        c.debounce.toNat ≤ (scan.time - b.vars.debouncingTime).toNat
    · have ht := h.running hexpired.1
      have hsub : (scan.time - b.vars.debouncingTime).toNat =
          scan.time.toNat - b.vars.debouncingTime.toNat :=
        BitVec.toNat_sub_of_le (BitVec.le_trans (hsince () _ ht) hle)
      have hpos := SymDeferPk.toNat_ne_zero c.debounce_ne_zero
      have hlong : b.vars.debouncingTime.toNat + c.debounce.toNat ≤ scan.time.toNat := by
        have hle' := hexpired.2
        rw [hsub] at hle'
        omega
      rw [if_pos hexpired]
      split_ifs with hdiff
      · refine ⟨⟨hraw ▸ h.value, fun _ => rfl, fun hrun => absurd hrun Bool.false_ne_true⟩, ?_⟩
        exact ⟨fun _ => ⟨hraw.trans h.value.symm, _, ht, hlong⟩,
          fun _ _ _ => hraw.trans h.value.symm, fun _ => hraw.trans h.value.symm⟩
      · rw [not_not] at hdiff
        refine ⟨⟨hraw ▸ h.value, fun _ => hdiff, fun hrun => absurd hrun Bool.false_ne_true⟩, ?_⟩
        exact ⟨fun hne => absurd rfl hne, fun _ _ _ => (hdiff.trans hraw).trans h.value.symm,
          fun _ => (hdiff.trans hraw).trans h.value.symm⟩
    · rw [if_neg hexpired]
      refine ⟨⟨hraw ▸ h.value, fun hidle => hraw ▸ h.idle hidle, h.running⟩, ?_⟩
      refine ⟨fun hne => absurd rfl hne, fun t ht hlong => ?_, fun hnone => ?_⟩
      · cases hrun : b.vars.debouncing with
        | false => exact (h.idle hrun).trans h.value.symm
        | true =>
          rw [Option.mem_def, h.running hrun, Option.some.injEq] at ht
          have hsub : (scan.time - b.vars.debouncingTime).toNat =
              scan.time.toNat - b.vars.debouncingTime.toNat :=
            BitVec.toNat_sub_of_le (BitVec.le_trans (hsince () _ (h.running hrun)) hle)
          subst ht
          exact absurd ⟨hrun, by omega⟩ hexpired
      · cases hrun : b.vars.debouncing with
        | false => exact (h.idle hrun).trans h.value.symm
        | true => exact absurd ((h.running hrun).symm.trans hnone) (Option.some_ne_none _)
  · -- the raw matrix has changed
    have hst : (st ()).next scan.time scan.raw = ⟨scan.raw, some scan.time⟩ := by
      rw [Steady.next, if_neg (h.value.symm ▸ hraw)]
    have hcall : decide (scan.raw ≠ b.rawMatrix) = true := by simp [hraw]
    simp only [matrixScan, debounce, if_pos hcall, hst]
    refine ⟨⟨rfl, fun hidle => absurd hidle.symm Bool.false_ne_true, fun _ => rfl⟩, ?_⟩
    refine ⟨fun hne => absurd rfl hne, fun t ht hlong => ?_,
      fun hnone => absurd hnone (Option.some_ne_none _)⟩
    rw [Option.mem_some] at ht
    subst ht
    have hpos := SymDeferPk.toNat_ne_zero c.debounce_ne_zero
    omega

/-- The cooked matrix defers. -/
theorem run_defers (c : Config) {scans : List (Scan w rows cols)} {scan : Scan w rows cols}
    (horder : InOrder (scans ++ [scan])) :
    let b := StateMachine.run (matrixScan (debounce c)) (matrixInit init) scans
    Defers id c.debounce.toNat scans scan b.vars.cooked
      (matrixScan (debounce c) b scan).vars.cooked := by
  intro b
  have hold := horder.of_append
  have hinv : Inv b fun _ => steady id scans :=
    run_steady (fun _ => id) Inv ⟨rfl, fun _ => rfl, nofun⟩
      (fun b st scan h hle hsince => (h.step scan hle hsince).1) hold
  apply DeferRule.defers horder
  exact (hinv.step scan (run_time_le horder) fun i t ht => since_le_run_time hold ht).2

end SymDeferG

/-! ## The three algorithms -/

/-- In every run with timestamps in order, each key, each row or the whole of the cooked matrix
defers, and a call returns whether the cooked matrix has changed. -/
theorem symDefer_run (c : Config) (start : BitVec w) (scans : List (Scan w rows cols))
    (scan : Scan w rows cols) (horder : InOrder (scans ++ [scan])) :
    (let b := StateMachine.run (matrixScan (SymDeferPk.debounce c))
        (matrixInit SymDeferPk.init) scans
      let b' := matrixScan (SymDeferPk.debounce c) b scan
      (∀ row col, Defers (fun m => m row col) c.debounce.toNat scans scan b.vars.cooked
        b'.vars.cooked) ∧ (b'.changed = true ↔ b'.vars.cooked ≠ b.vars.cooked)) ∧
    (let b := StateMachine.run (matrixScan (SymDeferPr.debounce c))
        (matrixInit (SymDeferPr.init start)) scans
      let b' := matrixScan (SymDeferPr.debounce c) b scan
      (∀ row, Defers (fun m => m row) c.debounce.toNat scans scan b.vars.cooked
        b'.vars.cooked) ∧ (b'.changed = true ↔ b'.vars.cooked ≠ b.vars.cooked)) ∧
    (let b := StateMachine.run (matrixScan (SymDeferG.debounce c))
        (matrixInit SymDeferG.init) scans
      let b' := matrixScan (SymDeferG.debounce c) b scan
      Defers id c.debounce.toNat scans scan b.vars.cooked b'.vars.cooked ∧
        (b'.changed = true ↔ b'.vars.cooked ≠ b.vars.cooked)) := by
  refine ⟨⟨fun row col => ?_, ?_⟩, ⟨fun row => ?_, ?_⟩, ?_, ?_⟩
  · exact SymDeferPk.run_defers c horder (row, col)
  · exact SymDeferPk.debounce_changed _
  · exact SymDeferPr.run_defers c start horder row
  · exact SymDeferPr.debounce_changed false
  · exact SymDeferG.run_defers c horder
  · exact SymDeferG.debounce_changed _

/-- A key that is seen at 0, 3 and 6 ms reaches the cooked matrix at 6 ms. -/
theorem symDefer_run_press :
    let c : Config := ⟨5, by decide⟩
    let scan (time : BitVec 16) : Scan 16 1 1 := ⟨time, fun _ _ => true⟩
    let b := StateMachine.run (matrixScan (SymDeferPk.debounce c)) (matrixInit SymDeferPk.init)
      [scan 0, scan 3]
    let b' := matrixScan (SymDeferPk.debounce c) b (scan 6)
    InOrder [scan 0, scan 3, scan 6] ∧ b.vars.cooked 0 0 = false ∧ b'.vars.cooked 0 0 = true ∧
      Defers (fun m => m 0 0) 5 [scan 0, scan 3] (scan 6) b.vars.cooked b'.vars.cooked := by
  intro c scan b b'
  have horder : InOrder ([scan 0, scan 3] ++ [scan 6]) := by decide
  exact ⟨horder, by decide +kernel, by decide +kernel,
    (symDefer_run c 0 [scan 0, scan 3] (scan 6) horder).1.1 0 0⟩

end Debounce
end VialQmk
