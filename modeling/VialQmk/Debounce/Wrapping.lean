import Mathlib.Data.List.Chain
import VialQmk.Debounce.AsymEagerDefer
import VialQmk.Debounce.SymDefer
import VialQmk.Debounce.SymEager

/-!
# Debounce - a timer that wraps

The timer starts again from 0 when its bits are used up, and the algorithms subtract its
values.  A run is compared with the same run on a timer that is wide enough for all its times:
if the scans follow each other closely, the two agree in everything but the times that are kept.

Main results:

- Definition {lit}`Frequent`: the timer does not come round between two scans.
- Theorem {lit}`run_wrap`: if the calls agree on the two timers, the runs do.
- Theorems {lit}`symDefer_wrap`, {lit}`symEager_wrap` and {lit}`asymEagerDefer_wrap`: the
  algorithms keep their rules, in terms of the times on the wide timer.
-/

namespace VialQmk
namespace Debounce

variable {v w rows cols : ℕ}

/-! ## Two timers -/

/-- The same scan with a timer of {lit}`w` bits. -/
def Scan.wrap (w : ℕ) (scan : Scan v rows cols) : Scan w rows cols :=
  ⟨scan.time.setWidth w, scan.raw⟩

/-- The same board, with the times among the variables. -/
def Board.wrap {σ τ : Type} (w : ℕ) (vars : σ → τ) (b : Board v rows cols σ) :
    Board w rows cols τ :=
  ⟨vars b.vars, b.rawMatrix, b.time.setWidth w, b.changed⟩

/-- The board after some scans with a timer of {lit}`w` bits. -/
def wrapRun {τ : Type} (w : ℕ) (debounce : KeyMatrix rows cols → Bool → BitVec w → τ → τ × Bool)
    (vars : τ) (scans : List (Scan v rows cols)) : Board w rows cols τ :=
  StateMachine.run (matrixScan debounce) (matrixInit vars) (scans.map (Scan.wrap w))

/-- The timer has not come round from one time to another, and has 255 ms left, as much as
{lit}`DEBOUNCE` may be. -/
structure Near (w : ℕ) (last now : BitVec v) : Prop where
  le : last ≤ now
  short : now.toNat + 255 ≤ last.toNat + 2 ^ w

/-- Each scan is near the one before. -/
def Frequent (w : ℕ) (scans : List (Scan v rows cols)) : Prop :=
  scans.IsChain fun last scan => Near w last.time scan.time

theorem toNat_sub_setWidth {last now : BitVec v} (hle : last ≤ now)
    (hlt : now.toNat < last.toNat + 2 ^ w) :
    (now.setWidth w - last.setWidth w).toNat = (now - last).toNat := by
  obtain ⟨d, hd⟩ := Nat.exists_eq_add_of_le hle
  rw [BitVec.toNat_sub_of_le hle, ← BitVec.ofNat_toNat, ← BitVec.ofNat_toNat, hd,
    BitVec.ofNat_add, BitVec.add_comm, BitVec.add_sub_cancel, BitVec.toNat_ofNat,
    Nat.add_sub_cancel_left]
  exact Nat.mod_eq_of_lt (by omega)

/-- The branches agree, so the choice does. -/
theorem ite_wrap {σ τ : Type} {p : Prop} [Decidable p] (vars : σ → τ) {yes no : σ} {yes' no' : τ}
    (hyes : p → yes' = vars yes) (hno : ¬p → no' = vars no) :
    (if p then yes' else no') = vars (if p then yes else no) := by
  rw [apply_ite vars]
  exact ite_congr rfl hyes hno

theorem Near.elapsedTime_eq {last now : BitVec v} (h : Near w last now) :
    elapsedTime (now.setWidth w) (last.setWidth w) = elapsedTime now last := by
  have hshort := h.short
  rw [elapsedTime, elapsedTime, toNat_sub_setWidth h.le (by omega)]

theorem Frequent.inOrder {scans : List (Scan v rows cols)} (h : Frequent w scans) :
    InOrder scans := by
  have hle : scans.IsChain fun last scan => last.time ≤ scan.time :=
    h.imp fun _ _ hnear => hnear.le
  rw [InOrder, List.pairwise_map]
  have : IsTrans (Scan v rows cols) fun a b => a.time ≤ b.time :=
    ⟨fun _ _ _ hab hbc => BitVec.le_trans hab hbc⟩
  exact List.isChain_iff_pairwise.mp hle

theorem Frequent.of_append {scans : List (Scan v rows cols)} {scan : Scan v rows cols}
    (h : Frequent w (scans ++ [scan])) : Frequent w scans :=
  List.IsChain.left_of_append h

/-- A scan is near the latest one of the run. -/
theorem Frequent.near {σ : Type} {debounce : KeyMatrix rows cols → Bool → BitVec v → σ → σ × Bool}
    {start : σ} {scans : List (Scan v rows cols)} {scan : Scan v rows cols}
    (h : Frequent w (scans ++ [scan])) (hne : scans ≠ []) :
    Near w (StateMachine.run (matrixScan debounce) (matrixInit start) scans).time scan.time := by
  cases scans using List.reverseRecOn with
  | nil => exact absurd rfl hne
  | append_singleton scans last =>
    rw [StateMachine.run_append]
    rw [Frequent, List.append_assoc] at h
    exact (List.isChain_cons_cons.mp (List.IsChain.right_of_append h)).1

section Run

variable {σ τ : Type} {debounce : KeyMatrix rows cols → Bool → BitVec v → σ → σ × Bool}
  {debounce' : KeyMatrix rows cols → Bool → BitVec w → τ → τ × Bool} {vars : σ → τ}

theorem matrixScan_wrap (b : Board v rows cols σ) (scan : Scan v rows cols)
    (hcall : ∀ changed, debounce' scan.raw changed (scan.time.setWidth w) (vars b.vars) =
      Prod.map vars id (debounce scan.raw changed scan.time b.vars)) :
    matrixScan debounce' (b.wrap w vars) (scan.wrap w) =
      (matrixScan debounce b scan).wrap w vars := by
  unfold matrixScan Board.wrap Scan.wrap
  dsimp only
  rw [hcall]
  rfl

/-- Where each call makes of the variables what it makes of them on the wide timer, the runs
agree. -/
theorem run_wrap {start : σ} {scans : List (Scan v rows cols)} (h : Frequent w scans)
    (hcall : ∀ scans (scan : Scan v rows cols), Frequent w (scans ++ [scan]) → ∀ changed,
      let b := StateMachine.run (matrixScan debounce) (matrixInit start) scans
      debounce' scan.raw changed (scan.time.setWidth w) (vars b.vars) =
        Prod.map vars id (debounce scan.raw changed scan.time b.vars)) :
    wrapRun w debounce' (vars start) scans =
      (StateMachine.run (matrixScan debounce) (matrixInit start) scans).wrap w vars := by
  induction scans using List.reverseRecOn with
  | nil => simp [wrapRun, Board.wrap, matrixInit]
  | append_singleton scans scan ih =>
    rw [wrapRun] at ih ⊢
    rw [List.map_append, StateMachine.run_append, StateMachine.run_append, ih h.of_append]
    exact matrixScan_wrap _ scan (hcall scans scan h)

end Run

/-! ## The deferred algorithms -/

namespace SymDeferPk

/-- The same variables with a timer of {lit}`w` bits. -/
def Vars.wrap (w : ℕ) (s : Vars v rows cols) : Vars w rows cols :=
  { s with lastTime := s.lastTime.setWidth w }

variable {c : Config} {raw : KeyMatrix rows cols} {s : Vars v rows cols} {now : BitVec v}

theorem updateDebounceCounters_wrap (elapsed : UInt8) (s : Vars v rows cols) :
    updateDebounceCounters raw elapsed (s.wrap w) =
      (updateDebounceCounters raw elapsed s).wrap w := by
  change List.foldl _ (Vars.wrap w { s with countersNeedUpdate := false }) _ = _
  refine List.foldl_hom (Vars.wrap w) fun s key => ?_
  unfold updateKey Vars.wrap
  dsimp only
  split_ifs <;> rfl

theorem startDebounceCounters_wrap (s : Vars v rows cols) :
    startDebounceCounters c raw (s.wrap w) = (startDebounceCounters c raw s).wrap w := by
  refine List.foldl_hom (Vars.wrap w) fun s key => ?_
  unfold startKey Vars.wrap
  dsimp only
  split_ifs <;> rfl

theorem passTime_wrap (hnear : s.countersNeedUpdate = true → Near w s.lastTime now) :
    passTime raw (now.setWidth w) (s.wrap w) = (passTime raw now s).wrap w := by
  unfold passTime
  refine ite_wrap _ (fun hneed => ?_) fun _ => rfl
  dsimp only
  rw [show elapsedTime (now.setWidth w) (s.wrap w).lastTime = elapsedTime now s.lastTime from
    (hnear hneed).elapsedTime_eq]
  exact ite_wrap _ (fun _ => updateDebounceCounters_wrap _ { s with lastTime := now })
    fun _ => rfl

theorem debounce_wrap (changed : Bool)
    (hnear : s.countersNeedUpdate = true → Near w s.lastTime now) :
    debounce c raw changed (now.setWidth w) (s.wrap w) =
      Prod.map (Vars.wrap w) id (debounce c raw changed now s) := by
  have hpass : passTime raw (now.setWidth w) { s.wrap w with cookedChanged := false } =
      (passTime raw now { s with cookedChanged := false }).wrap w :=
    passTime_wrap (s := { s with cookedChanged := false }) hnear
  unfold debounce
  dsimp only
  rw [hpass]
  cases changed with
  | false => rfl
  | true =>
    by_cases hneed : s.countersNeedUpdate = true
    · rw [if_pos rfl, if_pos rfl, if_pos (show (s.wrap w).countersNeedUpdate = true from hneed),
        if_pos hneed, startDebounceCounters_wrap]
      rfl
    · rw [if_pos rfl, if_pos rfl, if_neg (show ¬ (s.wrap w).countersNeedUpdate = true from hneed),
        if_neg hneed]
      have hstart : startDebounceCounters c raw (Vars.wrap w
          { passTime raw now { s with cookedChanged := false } with lastTime := now }) = _ :=
        startDebounceCounters_wrap _
      exact congrArg (fun s => (s, s.cookedChanged)) hstart

theorem init_wrap : (init : Vars v rows cols).wrap w = init := by
  simp [init, Vars.wrap]

/-- {lit}`sym_defer_pk` on the two timers. -/
theorem run_wrap (c : Config) {scans : List (Scan v rows cols)} (h : Frequent w scans) :
    wrapRun w (debounce c) init scans =
      (StateMachine.run (matrixScan (debounce c)) (matrixInit init) scans).wrap w
        (Vars.wrap w) := by
  rw [← init_wrap (v := v)]
  refine Debounce.run_wrap h fun scans scan h changed => debounce_wrap changed fun hneed => ?_
  have hinv : Inv c (StateMachine.run (matrixScan (debounce c)) (matrixInit init) scans)
      fun i => steady (fun m => m i.1 i.2) scans :=
    run_steady _ (Inv c) inv_init (fun b st scan h hle hsince => (h.step scan hle hsince).1)
      h.of_append.inOrder
  rw [hinv.lastTime hneed]
  exact h.near (by rintro rfl; cases hneed)

end SymDeferPk

namespace SymDeferPr

/-- The same variables with a timer of {lit}`w` bits. -/
def Vars.wrap (w : ℕ) (s : Vars v rows cols) : Vars w rows cols :=
  { s with lastTime := s.lastTime.setWidth w }

variable {c : Config} {raw : KeyMatrix rows cols} {s : Vars v rows cols} {now : BitVec v}

theorem Vars.eq_of_rows {s t : Vars w rows cols} (hrow : ∀ i, s.row i = t.row i)
    (htime : s.lastTime = t.lastTime) (hflag : s.cookedChanged = t.cookedChanged) : s = t := by
  have hcountdowns : s.countdowns = t.countdowns := funext fun i => congrArg Prod.fst (hrow i)
  have hraw : s.lastRaw = t.lastRaw := funext fun i => congrArg (fun x => x.2.1) (hrow i)
  have hcooked : s.cooked = t.cooked := funext fun i => congrArg (fun x => x.2.2) (hrow i)
  cases s
  cases t
  congr

/-- The time that has passed matters to the rows whose countdown runs. -/
theorem debounce_wrap (changed : Bool)
    (hnear : ∀ i, s.countdowns i ≠ 0 → Near w s.lastTime now) :
    debounce c raw changed (now.setWidth w) (s.wrap w) =
      Prod.map (Vars.wrap w) id (debounce c raw changed now s) := by
  have hrow : ∀ i, (debounce c raw changed (now.setWidth w) (s.wrap w)).1.row i =
      (debounce c raw changed now s).1.row i := by
    intro i
    rw [debounce_row, debounce_row]
    by_cases hrun : s.countdowns i = 0
    · simp [afterCall, Vars.row, Vars.wrap, hrun]
    · rw [show elapsedTime (now.setWidth w) (s.wrap w).lastTime = elapsedTime now s.lastTime from
        (hnear i hrun).elapsedTime_eq]
      rfl
  have hflag : (debounce c raw changed (now.setWidth w) (s.wrap w)).2 =
      (debounce c raw changed now s).2 := by
    have hcooked : (debounce c raw changed (now.setWidth w) (s.wrap w)).1.cooked =
        (debounce c raw changed now s).1.cooked :=
      funext fun i => congrArg (fun x => x.2.2) (hrow i)
    rw [Bool.eq_iff_iff, debounce_changed, debounce_changed, hcooked]
    rfl
  have htime : (debounce c raw changed (now.setWidth w) (s.wrap w)).1.lastTime =
      ((debounce c raw changed now s).1.wrap w).lastTime := by
    rw [debounce_lastTime, Vars.wrap, debounce_lastTime]
  exact Prod.ext (Vars.eq_of_rows hrow htime hflag) hflag

theorem init_wrap (start : BitVec v) :
    (init start : Vars v rows cols).wrap w = init (start.setWidth w) :=
  rfl

/-- {lit}`sym_defer_pr` on the two timers. -/
theorem run_wrap (c : Config) (start : BitVec v) {scans : List (Scan v rows cols)}
    (h : Frequent w scans) :
    wrapRun w (debounce c) (init (start.setWidth w)) scans =
      (StateMachine.run (matrixScan (debounce c)) (matrixInit (init start)) scans).wrap w
        (Vars.wrap w) := by
  rw [← init_wrap]
  refine Debounce.run_wrap h fun scans scan h changed => debounce_wrap changed fun i hrun => ?_
  have hinv : Inv c (StateMachine.run (matrixScan (debounce c)) (matrixInit (init start)) scans)
      fun i => steady (fun m => m i) scans :=
    run_steady _ (Inv c) (inv_init start) (fun b st scan h hle hsince => (h.step scan hle hsince).1)
      h.of_append.inOrder
  rw [hinv.lastTime i hrun]
  exact h.near (by rintro rfl; exact hrun rfl)

end SymDeferPr

namespace SymDeferG

/-- The same variables with a timer of {lit}`w` bits. -/
def Vars.wrap (w : ℕ) (s : Vars v rows cols) : Vars w rows cols :=
  { s with debouncingTime := s.debouncingTime.setWidth w }

variable {c : Config} {raw : KeyMatrix rows cols} {s : Vars v rows cols} {now : BitVec v}

theorem debounce_wrap (changed : Bool)
    (hsame : changed = false → s.debouncing = true →
      (now.setWidth w - s.debouncingTime.setWidth w).toNat = (now - s.debouncingTime).toNat) :
    debounce c raw changed (now.setWidth w) (s.wrap w) =
      Prod.map (Vars.wrap w) id (debounce c raw changed now s) := by
  cases changed with
  | true => rfl
  | false =>
    unfold debounce Vars.wrap
    dsimp only
    by_cases hrun : s.debouncing = true
    · rw [hsame rfl hrun]
      split_ifs <;> rfl
    · rw [if_neg Bool.false_ne_true, if_neg Bool.false_ne_true, if_neg fun hand => hrun hand.1,
        if_neg fun hand => hrun hand.1]
      rfl

theorem init_wrap : (init : Vars v rows cols).wrap w = init := by
  simp [init, Vars.wrap]

/-- While the algorithm waits, the last change is less than {lit}`DEBOUNCE` ms before the latest
scan. -/
theorem run_debouncing {scans : List (Scan v rows cols)} (horder : InOrder scans)
    (hrun : (StateMachine.run (matrixScan (debounce c)) (matrixInit init)
      scans).vars.debouncing = true) :
    let b := StateMachine.run (matrixScan (debounce c)) (matrixInit init) scans
    b.vars.debouncingTime ≤ b.time ∧
      b.time.toNat < b.vars.debouncingTime.toNat + c.debounce.toNat := by
  have hpos : 0 < c.debounce.toNat :=
    Nat.pos_of_ne_zero fun hzero => c.debounce_ne_zero (UInt8.toNat_inj.mp hzero)
  induction scans using List.reverseRecOn with
  | nil => cases hrun
  | append_singleton scans scan ih =>
    have hle : (StateMachine.run (matrixScan (debounce c)) (matrixInit init) scans).time ≤
        scan.time := run_time_le horder
    have hold := ih horder.of_append
    rw [StateMachine.run_append] at hrun ⊢
    generalize StateMachine.run (matrixScan (debounce c)) (matrixInit init) scans = b at *
    simp only [StateMachine.run, matrixScan, debounce] at hrun ⊢
    split_ifs at hrun ⊢ with hchanged hexpired hdiff
    · exact ⟨BitVec.le_refl _, Nat.lt_add_of_pos_right hpos⟩
    · have hbefore := BitVec.le_trans (hold hrun).1 hle
      have hshort : ¬ c.debounce.toNat ≤ scan.time.toNat - b.vars.debouncingTime.toNat := by
        rw [← BitVec.toNat_sub_of_le hbefore]
        exact fun hlong => hexpired ⟨hrun, hlong⟩
      refine ⟨hbefore, ?_⟩
      dsimp only
      omega

/-- {lit}`sym_defer_g` on the two timers. -/
theorem run_wrap (c : Config) {scans : List (Scan v rows cols)} (h : Frequent w scans) :
    wrapRun w (debounce c) init scans =
      (StateMachine.run (matrixScan (debounce c)) (matrixInit init) scans).wrap w
        (Vars.wrap w) := by
  rw [← init_wrap (v := v)]
  refine Debounce.run_wrap h fun scans scan h changed => debounce_wrap changed fun _ hrun => ?_
  have hnear : Near w (StateMachine.run (matrixScan (debounce c)) (matrixInit init) scans).time
      scan.time := h.near (by rintro rfl; cases hrun)
  obtain ⟨hle, hlt⟩ := run_debouncing h.of_append.inOrder hrun
  have hshort := hnear.short
  have hdebounce := c.debounce.toNat_lt
  exact toNat_sub_setWidth (BitVec.le_trans hle hnear.le) (by omega)

end SymDeferG

/-! ## The eager algorithms -/

namespace SymEager

variable {ι β : Type} [DecidableEq ι] [DecidableEq β] {c : Config} {pl : Places rows cols ι β}
  {s : Vars v ι β} {now : BitVec v}

/-- The same variables with a timer of {lit}`w` bits. -/
def Vars.wrap {ι β : Type} (w : ℕ) (s : Vars v ι β) : Vars w ι β :=
  { s with lastTime := s.lastTime.setWidth w }

omit [DecidableEq β] in
theorem updateDebounceCounters_wrap (elapsed : UInt8) (s : Vars v ι β) :
    updateDebounceCounters pl elapsed (s.wrap w) =
      (updateDebounceCounters pl elapsed s).wrap w := by
  change List.foldl _ (Vars.wrap w { s with
    countersNeedUpdate := false, matrixNeedUpdate := false }) _ = _
  refine List.foldl_hom (Vars.wrap w) fun s i => ?_
  unfold updateCounter Vars.wrap
  dsimp only
  split_ifs <;> rfl

theorem transferMatrixValues_wrap (raw : ι → β) (s : Vars v ι β) :
    transferMatrixValues c pl raw (s.wrap w) = (transferMatrixValues c pl raw s).wrap w := by
  change List.foldl _ (Vars.wrap w { s with matrixNeedUpdate := false }) _ = _
  refine List.foldl_hom (Vars.wrap w) fun s i => ?_
  unfold transferValue Vars.wrap
  dsimp only
  split_ifs <;> rfl

omit [DecidableEq β] in
theorem passTime_wrap (hnear : s.countersNeedUpdate = true → Near w s.lastTime now) :
    passTime pl (now.setWidth w) (s.wrap w) = (passTime pl now s).wrap w := by
  unfold passTime
  refine ite_wrap _ (fun hneed => ?_) fun _ => rfl
  dsimp only
  rw [show elapsedTime (now.setWidth w) (s.wrap w).lastTime = elapsedTime now s.lastTime from
    (hnear hneed).elapsedTime_eq]
  exact ite_wrap _ (fun _ => updateDebounceCounters_wrap _ { s with lastTime := now })
    fun _ => rfl

theorem debounce_wrap (raw : KeyMatrix rows cols) (changed : Bool)
    (hnear : s.countersNeedUpdate = true → Near w s.lastTime now) :
    debounce c pl raw changed (now.setWidth w) (s.wrap w) =
      Prod.map (Vars.wrap w) id (debounce c pl raw changed now s) := by
  have hpass : passTime pl (now.setWidth w) { s.wrap w with cookedChanged := false } =
      (passTime pl now { s with cookedChanged := false }).wrap w :=
    passTime_wrap (s := { s with cookedChanged := false }) hnear
  unfold debounce
  dsimp only
  rw [hpass]
  generalize passTime pl now { s with cookedChanged := false } = t
  by_cases htransfer : changed = true ∨ t.matrixNeedUpdate = true
  · rw [if_pos htransfer, if_pos (show changed = true ∨ (t.wrap w).matrixNeedUpdate = true from
      htransfer)]
    by_cases hneed : s.countersNeedUpdate = true
    · rw [if_pos hneed, if_pos (show (s.wrap w).countersNeedUpdate = true from hneed),
        transferMatrixValues_wrap]
      rfl
    · rw [if_neg hneed, if_neg (show ¬ (s.wrap w).countersNeedUpdate = true from hneed)]
      exact congrArg (fun s => (s, s.cookedChanged))
        (transferMatrixValues_wrap (pl.see raw) { t with lastTime := now })
  · rw [if_neg htransfer, if_neg (show ¬ (changed = true ∨ (t.wrap w).matrixNeedUpdate = true) from
      htransfer)]
    rfl

omit [DecidableEq ι] [DecidableEq β] in
theorem init_wrap : (init pl : Vars v ι β).wrap w = init pl := by
  simp [init, Vars.wrap]

/-- The two files on the two timers. -/
theorem run_wrap (c : Config) (pl : Places rows cols ι β) {scans : List (Scan v rows cols)}
    (h : Frequent w scans) :
    wrapRun w (debounce c pl) (init pl) scans =
      (StateMachine.run (matrixScan (debounce c pl)) (matrixInit (init pl)) scans).wrap w
        (Vars.wrap w) := by
  rw [← init_wrap (v := v)]
  refine Debounce.run_wrap h fun scans scan h changed => debounce_wrap _ changed fun hneed => ?_
  rw [(run_inv c pl h.of_append.inOrder).lastTime hneed]
  exact h.near (by rintro rfl; cases hneed)

end SymEager

namespace AsymEagerDeferPk

/-- The same variables with a timer of {lit}`w` bits. -/
def Vars.wrap (w : ℕ) (s : Vars v rows cols) : Vars w rows cols :=
  { s with lastTime := s.lastTime.setWidth w }

variable {c : Config} {raw : KeyMatrix rows cols} {s : Vars v rows cols} {now : BitVec v}

theorem updateDebounceCounters_wrap (elapsed : UInt8) (s : Vars v rows cols) :
    updateDebounceCounters raw elapsed (s.wrap w) =
      (updateDebounceCounters raw elapsed s).wrap w := by
  change List.foldl _ (Vars.wrap w { s with
    countersNeedUpdate := false, matrixNeedUpdate := false }) _ = _
  refine List.foldl_hom (Vars.wrap w) fun s key => ?_
  unfold updateKey Vars.wrap
  dsimp only
  split_ifs <;> rfl

theorem transferMatrixValues_wrap (s : Vars v rows cols) :
    transferMatrixValues c raw (s.wrap w) = (transferMatrixValues c raw s).wrap w := by
  change List.foldl _ (Vars.wrap w { s with matrixNeedUpdate := false }) _ = _
  refine List.foldl_hom (Vars.wrap w) fun s key => ?_
  unfold transferKey Vars.wrap
  dsimp only
  split_ifs <;> rfl

theorem passTime_wrap (hnear : s.countersNeedUpdate = true → Near w s.lastTime now) :
    passTime raw (now.setWidth w) (s.wrap w) = (passTime raw now s).wrap w := by
  unfold passTime
  refine ite_wrap _ (fun hneed => ?_) fun _ => rfl
  dsimp only
  rw [show elapsedTime (now.setWidth w) (s.wrap w).lastTime = elapsedTime now s.lastTime from
    (hnear hneed).elapsedTime_eq]
  exact ite_wrap _ (fun _ => updateDebounceCounters_wrap _ { s with lastTime := now })
    fun _ => rfl

theorem debounce_wrap (changed : Bool)
    (hnear : s.countersNeedUpdate = true → Near w s.lastTime now) :
    debounce c raw changed (now.setWidth w) (s.wrap w) =
      Prod.map (Vars.wrap w) id (debounce c raw changed now s) := by
  have hpass : passTime raw (now.setWidth w) { s.wrap w with cookedChanged := false } =
      (passTime raw now { s with cookedChanged := false }).wrap w :=
    passTime_wrap (s := { s with cookedChanged := false }) hnear
  unfold debounce
  dsimp only
  rw [hpass]
  generalize passTime raw now { s with cookedChanged := false } = t
  by_cases htransfer : changed = true ∨ t.matrixNeedUpdate = true
  · rw [if_pos htransfer, if_pos (show changed = true ∨ (t.wrap w).matrixNeedUpdate = true from
      htransfer)]
    by_cases hneed : s.countersNeedUpdate = true
    · rw [if_pos hneed, if_pos (show (s.wrap w).countersNeedUpdate = true from hneed),
        transferMatrixValues_wrap]
      rfl
    · rw [if_neg hneed, if_neg (show ¬ (s.wrap w).countersNeedUpdate = true from hneed)]
      exact congrArg (fun s => (s, s.cookedChanged))
        (transferMatrixValues_wrap { t with lastTime := now })
  · rw [if_neg htransfer, if_neg (show ¬ (changed = true ∨ (t.wrap w).matrixNeedUpdate = true) from
      htransfer)]
    rfl

theorem init_wrap (pressed : Fin rows → Fin cols → Bool) :
    (init pressed : Vars v rows cols).wrap w = init pressed := by
  simp [init, Vars.wrap]

/-- {lit}`asym_eager_defer_pk` on the two timers. -/
theorem run_wrap (c : Config) (pressed : Fin rows → Fin cols → Bool)
    {scans : List (Scan v rows cols)} (h : Frequent w scans) :
    wrapRun w (debounce c) (init pressed) scans =
      (StateMachine.run (matrixScan (debounce c)) (matrixInit (init pressed)) scans).wrap w
        (Vars.wrap w) := by
  rw [← init_wrap (v := v)]
  refine Debounce.run_wrap h fun scans scan h changed => debounce_wrap changed fun hneed => ?_
  rw [(run_inv c pressed h.of_append.inOrder).lastTime hneed]
  exact h.near (by rintro rfl; cases hneed)

end AsymEagerDeferPk

/-! ## The rules on a timer that wraps -/

/-- Each key, each row or the whole of the cooked matrix defers. -/
theorem symDefer_wrap (c : Config) (start : BitVec v) {scans : List (Scan v rows cols)}
    {scan : Scan v rows cols} (h : Frequent w (scans ++ [scan])) :
    (∀ row col, Defers (fun m => m row col) c.debounce.toNat scans scan
      (wrapRun w (SymDeferPk.debounce c) SymDeferPk.init scans).vars.cooked
      (wrapRun w (SymDeferPk.debounce c) SymDeferPk.init (scans ++ [scan])).vars.cooked) ∧
    (∀ row, Defers (fun m => m row) c.debounce.toNat scans scan
      (wrapRun w (SymDeferPr.debounce c) (SymDeferPr.init (start.setWidth w)) scans).vars.cooked
      (wrapRun w (SymDeferPr.debounce c) (SymDeferPr.init (start.setWidth w))
        (scans ++ [scan])).vars.cooked) ∧
    Defers id c.debounce.toNat scans scan
      (wrapRun w (SymDeferG.debounce c) SymDeferG.init scans).vars.cooked
      (wrapRun w (SymDeferG.debounce c) SymDeferG.init (scans ++ [scan])).vars.cooked := by
  refine ⟨fun row col => ?_, fun row => ?_, ?_⟩
  · rw [SymDeferPk.run_wrap c h, SymDeferPk.run_wrap c h.of_append, StateMachine.run_append]
    exact SymDeferPk.run_defers c h.inOrder (row, col)
  · rw [SymDeferPr.run_wrap c start h, SymDeferPr.run_wrap c start h.of_append,
      StateMachine.run_append]
    exact SymDeferPr.run_defers c start h.inOrder row
  · rw [SymDeferG.run_wrap c h, SymDeferG.run_wrap c h.of_append, StateMachine.run_append]
    exact SymDeferG.run_defers c h.inOrder

section Eager

variable {ι β : Type} [DecidableEq ι] [DecidableEq β] (c : Config)
  (pl : SymEager.Places rows cols ι β) (i : ι) {scans : List (Scan v rows cols)}
  {scan : Scan v rows cols}

/-- The times at which a place of the cooked matrix changes are those that the narrow timer
returns for the times of the wide one. -/
theorem changeTimes_wrap (h : Frequent w scans) :
    changeTimes (SymEager.debounce c pl) (fun s => s.cooked i) (matrixInit (SymEager.init pl))
        (scans.map (Scan.wrap w)) =
      (changeTimes (SymEager.debounce c pl) (fun s => s.cooked i) (matrixInit (SymEager.init pl))
        scans).map (BitVec.setWidth w) := by
  induction scans using List.reverseRecOn with
  | nil => rfl
  | append_singleton scans scan ih =>
    have hbefore := SymEager.run_wrap c pl h.of_append
    have hafter := SymEager.run_wrap c pl h
    rw [wrapRun, List.map_append, StateMachine.run_append, StateMachine.run_append] at hafter
    have hcooked : (matrixScan (SymEager.debounce c pl) (wrapRun w _ _ scans)
        (scan.wrap w)).vars.cooked i = _ :=
      congrArg (fun b : Board w rows cols _ => b.vars.cooked i) hafter
    rw [List.map_append, List.map_cons, List.map_nil, changeTimes_append, changeTimes_append,
      List.map_append, ih h.of_append, ← wrapRun, hcooked, hbefore,
      apply_ite (List.map (BitVec.setWidth w))]
    rfl

/-- Each key or each row of the cooked matrix follows the raw one. -/
theorem symEager_wrap (h : Frequent w (scans ++ [scan])) :
    let times := changeTimes (SymEager.debounce c pl) (fun s => s.cooked i)
      (matrixInit (SymEager.init pl) : Board v rows cols _)
    SymEager.Follows c.debounce.toNat scan.time (times scans) (times (scans ++ [scan]))
      (pl.see scan.raw i) ((wrapRun w (SymEager.debounce c pl) (SymEager.init pl)
        (scans ++ [scan])).vars.cooked i) := by
  intro times
  rw [SymEager.run_wrap c pl h, StateMachine.run_append]
  exact SymEager.run_follows c pl h.inOrder i

end Eager

/-- Each key goes down at once, and up when it has been held up. -/
theorem asymEagerDefer_wrap (c : AsymEagerDeferPk.Config) (pressed : Fin rows → Fin cols → Bool)
    {scans : List (Scan v rows cols)} {scan : Scan v rows cols}
    (h : Frequent w (scans ++ [scan])) (row : Fin rows) (col : Fin cols) :
    DownUp (fun m => m row col) c.debounce.toNat scans scan
      (wrapRun w (AsymEagerDeferPk.debounce c) (AsymEagerDeferPk.init pressed) scans).vars.cooked
      (wrapRun w (AsymEagerDeferPk.debounce c) (AsymEagerDeferPk.init pressed)
        (scans ++ [scan])).vars.cooked := by
  rw [AsymEagerDeferPk.run_wrap c pressed h, AsymEagerDeferPk.run_wrap c pressed h.of_append,
    StateMachine.run_append]
  exact AsymEagerDeferPk.run_downUp c pressed h.inOrder (row, col)

end Debounce
end VialQmk
