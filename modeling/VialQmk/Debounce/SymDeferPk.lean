import VialQmk.Debounce.Scan

/-!
# Debounce - deferred, for each key

A value reaches the cooked matrix when it has been seen for {lit}`DEBOUNCE` ms.
{lit}`sym_defer_pk` has a counter for each key, which runs while the raw bit differs from the
cooked one, and is stopped when it does not.

Main results:

- Definition {lit}`Defers`: what a deferred algorithm makes of a part of the cooked matrix.
- Theorem {lit}`SymDeferPk.run_defers`: {lit}`sym_defer_pk` makes this of each key.
- Theorem {lit}`SymDeferPk.debounce_changed`: it returns whether the cooked matrix has changed.
-/

namespace VialQmk
namespace Debounce

variable {w rows cols : ℕ}

/-- {lit}`DEBOUNCE`, from 1 to 255 -/
structure Config where
  debounce : UInt8
  debounce_ne_zero : debounce ≠ 0

/-! ## The rule -/

section Rule

variable {β : Type} [DecidableEq β] {p : KeyMatrix rows cols → β}
  {scans : List (Scan w rows cols)} {scan : Scan w rows cols}
  {cooked cooked' : KeyMatrix rows cols} {d : ℕ}

/-- A part of the cooked matrix takes a new value only if the raw matrix has held it for some
time, and has the value of the raw matrix as soon as this is so. -/
structure Defers (p : KeyMatrix rows cols → β) (d : ℕ) (scans : List (Scan w rows cols))
    (scan : Scan w rows cols) (cooked cooked' : KeyMatrix rows cols) : Prop where
  stable : p cooked' ≠ p cooked →
    p cooked' = p scan.raw ∧ Held p (p scan.raw) d scan.time (scans ++ [scan])
  prompt : Held p (p scan.raw) d scan.time (scans ++ [scan]) → p cooked' = p scan.raw

/-- The same in terms of the last change. -/
structure DeferRule (d : ℕ) (now : BitVec w) (st : Steady w β) (x x' : β) : Prop where
  stable : x' ≠ x → x' = st.value ∧ ∃ t ∈ st.since, t.toNat + d ≤ now.toNat
  prompt : ∀ t ∈ st.since, t.toNat + d ≤ now.toNat → x' = st.value
  never : st.since = none → x' = st.value

theorem DeferRule.defers (horder : InOrder (scans ++ [scan]))
    (h : DeferRule d scan.time ((steady p scans).next scan.time (p scan.raw)) (p cooked)
      (p cooked')) : Defers p d scans scan cooked cooked' := by
  rw [← steady_append] at h
  have hvalue : (steady p (scans ++ [scan])).value = p scan.raw := by
    rw [steady_append, Steady.next_value]
  constructor
  · intro hne
    rcases h.stable hne with ⟨heq, t, ht, hlong⟩
    rw [← hvalue]
    exact ⟨heq, (held_iff horder ht).mpr hlong⟩
  · intro hheld
    rw [← hvalue] at hheld ⊢
    cases hsince : (steady p (scans ++ [scan])).since with
    | none => exact h.never hsince
    | some t => exact h.prompt t hsince ((held_iff horder hsince).mp hheld)

end Rule

/-! ## {lit}`sym_defer_pk.c` -/

namespace SymDeferPk

/-- The variables of the file, and the cooked matrix. -/
structure Vars (w rows cols : ℕ) where
  debounceCounters : Fin rows → Fin cols → UInt8
  lastTime : BitVec w
  countersNeedUpdate : Bool
  cookedChanged : Bool
  cooked : KeyMatrix rows cols

variable (c : Config)

/-- One round of {lit}`update_debounce_counters_and_transfer_if_expired` -/
def updateKey (raw : KeyMatrix rows cols) (elapsed : UInt8) (s : Vars w rows cols)
    (key : Fin rows × Fin cols) : Vars w rows cols :=
  let row := key.1
  let col := key.2
  let counter := s.debounceCounters row col
  if counter ≠ 0 then
    if counter ≤ elapsed then
      let cookedNext := setKey s.cooked row col (raw row col)
      { s with
        debounceCounters := setKey s.debounceCounters row col 0
        cookedChanged := s.cookedChanged || decide (s.cooked row ≠ cookedNext row)
        cooked := cookedNext }
    else
      { s with
        debounceCounters := setKey s.debounceCounters row col (counter - elapsed)
        countersNeedUpdate := true }
  else s

/-- {lit}`update_debounce_counters_and_transfer_if_expired` -/
def updateDebounceCounters (raw : KeyMatrix rows cols) (elapsed : UInt8) (s : Vars w rows cols) :
    Vars w rows cols :=
  (keys rows cols).foldl (updateKey raw elapsed) { s with countersNeedUpdate := false }

/-- One round of {lit}`start_debounce_counters` -/
def startKey (raw : KeyMatrix rows cols) (s : Vars w rows cols) (key : Fin rows × Fin cols) :
    Vars w rows cols :=
  let row := key.1
  let col := key.2
  if raw row col ≠ s.cooked row col then
    if s.debounceCounters row col = 0 then
      { s with
        debounceCounters := setKey s.debounceCounters row col c.debounce
        countersNeedUpdate := true }
    else s
  else { s with debounceCounters := setKey s.debounceCounters row col 0 }

/-- {lit}`start_debounce_counters` -/
def startDebounceCounters (raw : KeyMatrix rows cols) (s : Vars w rows cols) : Vars w rows cols :=
  (keys rows cols).foldl (startKey c raw) s

/-- The first half of {lit}`debounce` -/
def passTime (raw : KeyMatrix rows cols) (now : BitVec w) (s : Vars w rows cols) :
    Vars w rows cols :=
  if s.countersNeedUpdate = true then
    let elapsed := elapsedTime now s.lastTime
    let s := { s with lastTime := now }
    if 0 < elapsed then updateDebounceCounters raw elapsed s else s
  else s

/-- {lit}`debounce` -/
def debounce (raw : KeyMatrix rows cols) (changed : Bool) (now : BitVec w) (s : Vars w rows cols) :
    Vars w rows cols × Bool :=
  let updatedLast := s.countersNeedUpdate
  let s := passTime raw now { s with cookedChanged := false }
  let s :=
    if changed = true then
      startDebounceCounters c raw (if updatedLast = true then s else { s with lastTime := now })
    else s
  (s, s.cookedChanged)

/-- {lit}`debounce_init` -/
def init : Vars w rows cols :=
  ⟨fun _ _ => 0, 0, false, false, allOff⟩

variable {c} {s : Vars w rows cols} {raw : KeyMatrix rows cols} {elapsed : UInt8}
  {row : Fin rows} {col : Fin cols}

/-! ### The loops -/

/-- What belongs to a key: its counter, and its bit in the cooked matrix. -/
def Vars.key (key : Fin rows × Fin cols) (s : Vars w rows cols) : UInt8 × Bool :=
  (s.debounceCounters key.1 key.2, s.cooked key.1 key.2)

/-- A key after {lit}`update_debounce_counters_and_transfer_if_expired` -/
def updated (on : Bool) (elapsed : UInt8) (x : UInt8 × Bool) : UInt8 × Bool :=
  if x.1 ≠ 0 then if x.1 ≤ elapsed then (0, on) else (x.1 - elapsed, x.2) else x

/-- A key after {lit}`start_debounce_counters` -/
def started (c : Config) (on : Bool) (x : UInt8 × Bool) : UInt8 × Bool :=
  if on ≠ x.2 then if x.1 = 0 then (c.debounce, x.2) else x else (0, x.2)

theorem key_updateKey_of_ne (s : Vars w rows cols) (i j : Fin rows × Fin cols) (hne : j ≠ i) :
    (updateKey raw elapsed s j).key i = s.key i := by
  unfold updateKey Vars.key
  dsimp only
  split_ifs
  · simp only [setKey_of_ne _ _ hne]
  · simp only [setKey_of_ne _ _ hne]
  · rfl

theorem key_updateKey (s : Vars w rows cols) (i : Fin rows × Fin cols) :
    (updateKey raw elapsed s i).key i = updated (raw i.1 i.2) elapsed (s.key i) := by
  unfold updateKey Vars.key updated
  dsimp only
  split_ifs <;> simp

theorem key_startKey_of_ne (s : Vars w rows cols) (i j : Fin rows × Fin cols) (hne : j ≠ i) :
    (startKey c raw s j).key i = s.key i := by
  unfold startKey Vars.key
  dsimp only
  split_ifs
  · simp only [setKey_of_ne _ _ hne]
  · rfl
  · simp only [setKey_of_ne _ _ hne]

theorem key_startKey (s : Vars w rows cols) (i : Fin rows × Fin cols) :
    (startKey c raw s i).key i = started c (raw i.1 i.2) (s.key i) := by
  unfold startKey Vars.key started
  dsimp only
  split_ifs <;> simp

/-- Each key after the first loop, and the two flags. -/
theorem updateDebounceCounters_key (s : Vars w rows cols) (i : Fin rows × Fin cols) :
    (updateDebounceCounters raw elapsed s).key i = updated (raw i.1 i.2) elapsed (s.key i) := by
  apply Sweep.get_foldl (f := fun i => updated (raw i.1 i.2) elapsed) key_updateKey
    key_updateKey_of_ne nodup_keys
  exact mem_keys i.1 i.2

theorem updateDebounceCounters_countersNeedUpdate (s : Vars w rows cols) :
    (updateDebounceCounters raw elapsed s).countersNeedUpdate = true ↔
      ∃ i, (s.key i).1 ≠ 0 ∧ elapsed < (s.key i).1 := by
  have hflag : ∀ (s : Vars w rows cols) i, (updateKey raw elapsed s i).countersNeedUpdate = true ↔
      s.countersNeedUpdate = true ∨ ((s.key i).1 ≠ 0 ∧ elapsed < (s.key i).1) := by
    intro s i
    unfold updateKey Vars.key
    dsimp only
    split_ifs with hrun hle
    · simp [UInt8.not_lt.mpr hle]
    · simp [hrun, UInt8.not_le.mp hle]
    · simp [not_not.mp hrun]
  refine (Sweep.flag_foldl (fun s => s.countersNeedUpdate = true)
    (fun _ x => x.1 ≠ 0 ∧ elapsed < x.1) key_updateKey_of_ne hflag nodup_keys _).trans ?_
  simp [mem_keys, Vars.key]

theorem updateDebounceCounters_cookedChanged (s : Vars w rows cols) :
    (updateDebounceCounters raw elapsed s).cookedChanged = true ↔ s.cookedChanged = true ∨
      ∃ i, (updated (raw i.1 i.2) elapsed (s.key i)).2 ≠ (s.key i).2 := by
  have hflag : ∀ (s : Vars w rows cols) i, (updateKey raw elapsed s i).cookedChanged = true ↔
      s.cookedChanged = true ∨ (updated (raw i.1 i.2) elapsed (s.key i)).2 ≠ (s.key i).2 := by
    intro s i
    unfold updateKey Vars.key updated
    dsimp only
    split_ifs with hrun hle
    · rw [Bool.or_eq_true, decide_eq_true_eq, setKey_row_ne_iff, ne_comm]
    · simp
    · simp
  refine (Sweep.flag_foldl (fun s => s.cookedChanged = true)
    (fun i x => (updated (raw i.1 i.2) elapsed x).2 ≠ x.2) key_updateKey_of_ne hflag
    nodup_keys _).trans ?_
  simp [mem_keys, Vars.key]

theorem startDebounceCounters_key (s : Vars w rows cols) (i : Fin rows × Fin cols) :
    (startDebounceCounters c raw s).key i = started c (raw i.1 i.2) (s.key i) := by
  apply Sweep.get_foldl (f := fun i => started c (raw i.1 i.2)) key_startKey key_startKey_of_ne
    nodup_keys
  exact mem_keys i.1 i.2

theorem startDebounceCounters_countersNeedUpdate (s : Vars w rows cols) :
    (startDebounceCounters c raw s).countersNeedUpdate = true ↔ s.countersNeedUpdate = true ∨
      ∃ i : Fin rows × Fin cols, raw i.1 i.2 ≠ (s.key i).2 ∧ (s.key i).1 = 0 := by
  have hflag : ∀ (s : Vars w rows cols) i, (startKey c raw s i).countersNeedUpdate = true ↔
      s.countersNeedUpdate = true ∨ (raw i.1 i.2 ≠ (s.key i).2 ∧ (s.key i).1 = 0) := by
    intro s i
    unfold startKey Vars.key
    dsimp only
    split_ifs with hdelta hzero
    · simp [hdelta, hzero]
    · simp [hzero]
    · simp [not_not.mp hdelta]
  refine (Sweep.flag_foldl (fun s => s.countersNeedUpdate = true)
    (fun i x => raw i.1 i.2 ≠ x.2 ∧ x.1 = 0) key_startKey_of_ne hflag nodup_keys _).trans ?_
  simp [mem_keys, Vars.key]

theorem startDebounceCounters_cookedChanged (s : Vars w rows cols) :
    (startDebounceCounters c raw s).cookedChanged = s.cookedChanged := by
  refine Sweep.keep_foldl Vars.cookedChanged ?_ _ _
  intro s i
  unfold startKey
  dsimp only
  split_ifs <;> rfl

theorem startDebounceCounters_lastTime (s : Vars w rows cols) :
    (startDebounceCounters c raw s).lastTime = s.lastTime := by
  refine Sweep.keep_foldl Vars.lastTime ?_ _ _
  intro s i
  unfold startKey
  dsimp only
  split_ifs <;> rfl

theorem updateDebounceCounters_lastTime (s : Vars w rows cols) :
    (updateDebounceCounters raw elapsed s).lastTime = s.lastTime := by
  refine Sweep.keep_foldl Vars.lastTime ?_ _ _
  intro s i
  unfold updateKey
  dsimp only
  split_ifs <;> rfl

/-! ### One key -/

/-- What is known about a key: the counter runs while the raw bit differs from the cooked
one, and says how much is left of {lit}`DEBOUNCE`. -/
structure KeyInv (c : Config) (time : BitVec w) (on : Bool) (x : UInt8 × Bool)
    (st : Steady w Bool) : Prop where
  value : st.value = on
  idle : x.1 = 0 → x.2 = on
  running : x.1 ≠ 0 → x.2 ≠ on ∧
    ∃ t ∈ st.since, x.1.toNat + (time.toNat - t.toNat) = c.debounce.toNat

/-- A key after a call of {lit}`debounce` -/
def afterCall (c : Config) (on changed : Bool) (elapsed : UInt8) (x : UInt8 × Bool) :
    UInt8 × Bool :=
  if changed = true then started c on (updated on elapsed x) else updated on elapsed x

section Key

variable {now time : BitVec w} {on on' changed : Bool} {x : UInt8 × Bool} {st : Steady w Bool}

theorem toNat_ne_zero {n : UInt8} (h : n ≠ 0) : n.toNat ≠ 0 := by
  rwa [Ne, ← UInt8.toNat_zero, UInt8.toNat_inj]

/-- The raw bit changes, and differs from the cooked one. -/
theorem KeyInv.start (hne : on' ≠ st.value) (hcooked : x.2 ≠ on') :
    KeyInv c now on' (c.debounce, x.2) (st.next now on') ∧
      DeferRule c.debounce.toNat now (st.next now on') x.2 x.2 := by
  have hsince : (st.next now on').since = some now := by
    rw [Steady.next, if_neg hne]
  constructor
  · constructor
    · exact st.next_value now on'
    · exact fun hzero => absurd hzero c.debounce_ne_zero
    · intro _
      refine ⟨hcooked, now, hsince, ?_⟩
      rw [Nat.sub_self, Nat.add_zero]
  · constructor
    · exact fun hne => absurd rfl hne
    · intro t ht hlong
      rw [hsince, Option.mem_some] at ht
      subst ht
      have hpos := toNat_ne_zero c.debounce_ne_zero
      omega
    · exact fun hnone => absurd (hsince.symm.trans hnone) (Option.some_ne_none _)

/-- The cooked bit is that of the raw matrix, and the counter is stopped. -/
theorem KeyInv.rest (hrule : x.2 ≠ on' → ∃ t ∈ (st.next now on').since,
      t.toNat + c.debounce.toNat ≤ now.toNat) :
    KeyInv c now on' (0, on') (st.next now on') ∧
      DeferRule c.debounce.toNat now (st.next now on') x.2 on' := by
  constructor
  · exact ⟨st.next_value now on', fun _ => rfl, fun hne => absurd rfl hne⟩
  · constructor
    · exact fun hne => ⟨(st.next_value now on').symm, hrule hne.symm⟩
    · exact fun _ _ _ => (st.next_value now on').symm
    · exact fun _ => (st.next_value now on').symm

theorem KeyInv.next (h : KeyInv c time on x st) (hle : time ≤ now)
    (hsince : ∀ t ∈ st.since, t ≤ time) (hchanged : changed = false → on' = on)
    (helapsed : x.1 ≠ 0 → elapsed = elapsedTime now time) :
    KeyInv c now on' (afterCall c on' changed elapsed x) (st.next now on') ∧
      DeferRule c.debounce.toNat now (st.next now on') x.2
        (afterCall c on' changed elapsed x).2 := by
  rcases x with ⟨counter, cooked⟩
  by_cases hzero : counter = 0
  · -- the counter does not run, and the cooked bit is that of the last scan
    subst hzero
    have hcooked : cooked = on := h.idle rfl
    subst hcooked
    have hupdated : updated on' elapsed (0, cooked) = (0, cooked) := by simp [updated]
    by_cases hbit : on' = cooked
    · subst hbit
      have hsame : afterCall c on' changed elapsed (0, on') = (0, on') := by
        simp [afterCall, hupdated, started]
      rw [hsame]
      exact KeyInv.rest fun hne => absurd rfl hne
    · have hcall : changed = true := by
        by_contra hnot
        exact hbit (hchanged ((Bool.not_eq_true _).mp hnot))
      have hnew : afterCall c on' changed elapsed (0, cooked) = (c.debounce, cooked) := by
        rw [afterCall, if_pos hcall, hupdated, started, if_pos hbit, if_pos rfl]
      rw [hnew]
      exact @KeyInv.start w c now on' (0, cooked) st (h.value.symm ▸ hbit) (Ne.symm hbit)
  · -- the counter runs, and the raw bit of the last scan differs from the cooked one
    rcases h.running hzero with ⟨hdiff, t, ht, hsum⟩
    have htle : t.toNat ≤ time.toNat := BitVec.le_def.mp (hsince t ht)
    have hnow : time.toNat ≤ now.toNat := BitVec.le_def.mp hle
    have hpassed := elapsedTime_toNat hle
    rw [← helapsed hzero] at hpassed
    have hcounter : counter.toNat ≤ 255 := Nat.le_of_lt_succ counter.toNat_lt
    by_cases hexpired : counter ≤ elapsed
    · -- the time is over, and the raw bit is copied
      have hupdated : updated on' elapsed (counter, cooked) = (0, on') := by
        rw [updated, if_pos hzero, if_pos hexpired]
      have hcopied : afterCall c on' changed elapsed (counter, cooked) = (0, on') := by
        simp [afterCall, hupdated, started]
      rw [hcopied]
      apply KeyInv.rest
      intro hne
      have hbit : on' = on := by
        dsimp only at hne hdiff
        cases on' <;> cases on <;> cases cooked <;> simp_all
      refine ⟨t, ?_, ?_⟩
      · rw [Steady.next, if_pos (hbit.trans h.value.symm)]
        exact ht
      · rw [UInt8.le_iff_toNat_le] at hexpired
        dsimp only at hsum
        omega
    · have hupdated : updated on' elapsed (counter, cooked) = (counter - elapsed, cooked) := by
        rw [updated, if_pos hzero, if_neg hexpired]
      rw [UInt8.not_le, UInt8.lt_iff_toNat_lt] at hexpired
      by_cases hbit : on' = on
      · -- the counter goes on
        have hleft : (counter - elapsed).toNat = counter.toNat - elapsed.toNat :=
          UInt8.toNat_sub_of_le _ _ (UInt8.le_iff_toNat_le.mpr (Nat.le_of_lt hexpired))
        have hleft_ne : counter - elapsed ≠ 0 := by
          rw [Ne, ← UInt8.toNat_inj, hleft, UInt8.toNat_zero]
          omega
        have hgoes : afterCall c on' changed elapsed (counter, cooked) =
            (counter - elapsed, cooked) := by
          have hdelta : on' ≠ cooked := by
            rw [hbit]
            exact hdiff.symm
          simp [afterCall, hupdated, started, hdelta, hleft_ne]
        have hst : st.next now on' = st := by
          rw [Steady.next, if_pos (hbit.trans h.value.symm)]
        rw [hgoes, hst]
        constructor
        · constructor
          · rw [h.value, hbit]
          · exact fun hz => absurd hz hleft_ne
          · intro _
            rw [hbit]
            refine ⟨hdiff, t, ht, ?_⟩
            dsimp only at hsum ⊢
            rw [hleft]
            omega
        · constructor
          · exact fun hne => absurd rfl hne
          · intro t' ht' hlong
            rw [Option.mem_def] at ht ht'
            rw [ht, Option.some.injEq] at ht'
            subst ht'
            dsimp only at hsum
            omega
          · exact fun hnone => absurd (ht.symm.trans hnone) (Option.some_ne_none _)
      · -- the raw bit is the cooked one again, and the counter is stopped
        have hback : cooked = on' := by
          dsimp only at hdiff
          cases on' <;> cases on <;> cases cooked <;> simp_all
        have hcall : changed = true := by
          by_contra hnot
          exact hbit (hchanged ((Bool.not_eq_true _).mp hnot))
        have hstopped : afterCall c on' changed elapsed (counter, cooked) = (0, on') := by
          rw [afterCall, if_pos hcall, hupdated, started]
          simp [hback]
        rw [hstopped]
        exact KeyInv.rest fun hne => absurd hback hne

end Key

/-! ### All keys -/

/-- What is known about all keys: a counter that runs is looked at in the next call, and the
time of the latest call is known then. -/
structure Inv (c : Config) (b : Board w rows cols (Vars w rows cols))
    (st : Fin rows × Fin cols → Steady w Bool) : Prop where
  keys : ∀ i, KeyInv c b.time (b.rawMatrix i.1 i.2) (b.vars.key i) (st i)
  needUpdate : ∀ i, (b.vars.key i).1 ≠ 0 → b.vars.countersNeedUpdate = true
  lastTime : b.vars.countersNeedUpdate = true → b.vars.lastTime = b.time

section Calls

variable {now : BitVec w}

theorem updated_of_zero {on : Bool} {x : UInt8 × Bool} (hx : x.1 = 0) :
    updated on elapsed x = x := by
  simp [updated, hx]

theorem updated_zero (on : Bool) (x : UInt8 × Bool) : updated on 0 x = x := by
  simp +contextual [updated]

/-- The counters after time has passed. -/
theorem passTime_key (hneed : ∀ i, (s.key i).1 ≠ 0 → s.countersNeedUpdate = true)
    (i : Fin rows × Fin cols) :
    (passTime raw now s).key i = updated (raw i.1 i.2) (elapsedTime now s.lastTime) (s.key i) := by
  unfold passTime
  by_cases hflag : s.countersNeedUpdate = true
  · rw [if_pos hflag]
    dsimp only
    split_ifs with hpos
    · exact updateDebounceCounters_key _ i
    · have hzero : elapsedTime now s.lastTime = 0 := by
        rw [UInt8.not_lt] at hpos
        exact UInt8.le_zero_iff.mp hpos
      rw [hzero, updated_zero]
      rfl
  · rw [if_neg hflag, updated_of_zero]
    by_contra hne
    exact hflag (hneed i hne)

theorem passTime_needUpdate (hneed : ∀ i, (s.key i).1 ≠ 0 → s.countersNeedUpdate = true)
    (i : Fin rows × Fin cols) (hne : ((passTime raw now s).key i).1 ≠ 0) :
    (passTime raw now s).countersNeedUpdate = true := by
  rw [passTime_key hneed] at hne
  unfold passTime
  by_cases hflag : s.countersNeedUpdate = true
  · rw [if_pos hflag]
    dsimp only
    split_ifs
    · rw [updateDebounceCounters_countersNeedUpdate]
      refine ⟨i, ?_⟩
      unfold updated at hne
      split_ifs at hne with hrun hle
      · exact absurd rfl hne
      · exact ⟨hrun, UInt8.not_le.mp hle⟩
      · exact absurd hne hrun
    · exact hflag
  · rw [updated_of_zero] at hne
    · exact absurd (hneed i hne) hflag
    · by_contra hne'
      exact hflag (hneed i hne')

theorem passTime_lastTime (hflag : s.countersNeedUpdate = true) :
    (passTime raw now s).lastTime = now := by
  rw [passTime, if_pos hflag]
  dsimp only
  split_ifs
  · exact updateDebounceCounters_lastTime _
  · rfl

theorem passTime_cookedChanged (hclear : s.cookedChanged = false) :
    (passTime raw now s).cookedChanged = true ↔
      ∃ i, ((passTime raw now s).key i).2 ≠ (s.key i).2 := by
  by_cases hflag : s.countersNeedUpdate = true
  · simp only [passTime, if_pos hflag]
    split_ifs
    · rw [updateDebounceCounters_cookedChanged]
      simp only [updateDebounceCounters_key]
      simp [hclear, Vars.key]
    · simp [hclear, Vars.key]
  · rw [passTime, if_neg hflag]
    simp [hclear]

/-- The counters after the call. -/
theorem debounce_key (hneed : ∀ i, (s.key i).1 ≠ 0 → s.countersNeedUpdate = true)
    (changed : Bool) (i : Fin rows × Fin cols) :
    (debounce c raw changed now s).1.key i =
      afterCall c (raw i.1 i.2) changed (elapsedTime now s.lastTime) (s.key i) := by
  have hpass := @passTime_key w rows cols { s with cookedChanged := false } raw now hneed i
  unfold debounce afterCall
  dsimp only
  split_ifs
  · rw [startDebounceCounters_key, hpass]
    rfl
  · rw [startDebounceCounters_key]
    exact congrArg (started c (raw i.1 i.2)) hpass
  · exact hpass

theorem debounce_needUpdate (hneed : ∀ i, (s.key i).1 ≠ 0 → s.countersNeedUpdate = true)
    (changed : Bool) (i : Fin rows × Fin cols)
    (hne : ((debounce c raw changed now s).1.key i).1 ≠ 0) :
    (debounce c raw changed now s).1.countersNeedUpdate = true := by
  have hpass := @passTime_needUpdate w rows cols { s with cookedChanged := false } raw now hneed i
  have hstart : ∀ t : Vars w rows cols, ((t.key i).1 ≠ 0 → t.countersNeedUpdate = true) →
      ((startDebounceCounters c raw t).key i).1 ≠ 0 →
        (startDebounceCounters c raw t).countersNeedUpdate = true := by
    intro t ht hne
    rw [startDebounceCounters_countersNeedUpdate]
    rw [startDebounceCounters_key, started] at hne
    split_ifs at hne with hdelta hzero
    · exact Or.inr ⟨i, hdelta, hzero⟩
    · exact Or.inl (ht hne)
    · exact absurd rfl hne
  unfold debounce at hne ⊢
  dsimp only at hne ⊢
  split_ifs at hne ⊢
  · exact hstart _ hpass hne
  · exact hstart _ hpass hne
  · exact hpass hne

theorem debounce_lastTime (changed : Bool)
    (hflag : (debounce c raw changed now s).1.countersNeedUpdate = true) :
    (debounce c raw changed now s).1.lastTime = now := by
  have hkeep : s.countersNeedUpdate = false →
      passTime raw now { s with cookedChanged := false } = { s with cookedChanged := false } := by
    intro hnot
    exact if_neg (Bool.not_eq_true _ ▸ hnot)
  unfold debounce at hflag ⊢
  dsimp only at hflag ⊢
  split_ifs at hflag ⊢ with hcall hneed
  · rw [startDebounceCounters_lastTime]
    exact passTime_lastTime hneed
  · rw [startDebounceCounters_lastTime]
  · by_cases hneed : s.countersNeedUpdate = true
    · exact passTime_lastTime hneed
    · rw [hkeep ((Bool.not_eq_true _).mp hneed)] at hflag
      exact absurd hflag hneed

/-- The call returns whether a bit of the cooked matrix has changed. -/
theorem debounce_changed (changed : Bool) :
    (debounce c raw changed now s).2 = true ↔
      (debounce c raw changed now s).1.cooked ≠ s.cooked := by
  have hpass := @passTime_cookedChanged w rows cols { s with cookedChanged := false } raw now rfl
  have hcooked : ∀ t : Vars w rows cols, (startDebounceCounters c raw t).cooked = t.cooked := by
    intro t
    refine Sweep.keep_foldl Vars.cooked ?_ _ _
    intro t i
    unfold startKey
    dsimp only
    split_ifs <;> rfl
  have hdiff : (passTime raw now { s with cookedChanged := false }).cookedChanged = true ↔
      (passTime raw now { s with cookedChanged := false }).cooked ≠ s.cooked := by
    rw [hpass]
    constructor
    · rintro ⟨i, hi⟩ heq
      exact hi (by rw [Vars.key, heq]; rfl)
    · intro hne
      by_contra hall
      rw [not_exists] at hall
      apply hne
      funext row col
      exact not_not.mp (hall (row, col))
  unfold debounce
  dsimp only
  split_ifs
  · rw [startDebounceCounters_cookedChanged, hcooked]
    exact hdiff
  · rw [startDebounceCounters_cookedChanged, hcooked]
    exact hdiff
  · exact hdiff

theorem Inv.step {b : Board w rows cols (Vars w rows cols)}
    {st : Fin rows × Fin cols → Steady w Bool} (h : Inv c b st) (scan : Scan w rows cols)
    (hle : b.time ≤ scan.time) (hsince : ∀ i, ∀ t ∈ (st i).since, t ≤ b.time) :
    Inv c (matrixScan (debounce c) b scan)
        (fun i => (st i).next scan.time (scan.raw i.1 i.2)) ∧
      ∀ i : Fin rows × Fin cols, DeferRule c.debounce.toNat scan.time
        ((st i).next scan.time (scan.raw i.1 i.2)) (b.vars.cooked i.1 i.2)
        ((matrixScan (debounce c) b scan).vars.cooked i.1 i.2) := by
  have hkey : ∀ i : Fin rows × Fin cols,
      KeyInv c scan.time (scan.raw i.1 i.2) ((matrixScan (debounce c) b scan).vars.key i)
          ((st i).next scan.time (scan.raw i.1 i.2)) ∧
        DeferRule c.debounce.toNat scan.time ((st i).next scan.time (scan.raw i.1 i.2))
          (b.vars.key i).2 ((matrixScan (debounce c) b scan).vars.key i).2 := by
    intro i
    rw [matrixScan]
    dsimp only
    rw [debounce_key h.needUpdate]
    apply (h.keys i).next hle (hsince i)
    · intro hsame
      rw [decide_eq_false_iff_not, not_not] at hsame
      rw [hsame]
    · intro hne
      rw [h.lastTime (h.needUpdate i hne)]
  refine ⟨⟨fun i => (hkey i).1, ?_, ?_⟩, fun i => (hkey i).2⟩
  · exact fun i hne => debounce_needUpdate h.needUpdate _ i hne
  · exact fun hflag => debounce_lastTime _ hflag

end Calls

theorem inv_init : Inv c (matrixInit (init : Vars w rows cols)) fun _ => ⟨false, none⟩ :=
  ⟨fun _ => ⟨rfl, fun _ => rfl, fun hne => absurd rfl hne⟩, fun _ hne => absurd rfl hne, nofun⟩

/-- Each key of the cooked matrix defers. -/
theorem run_defers (c : Config) {scans : List (Scan w rows cols)} {scan : Scan w rows cols}
    (horder : InOrder (scans ++ [scan])) (i : Fin rows × Fin cols) :
    let b := StateMachine.run (matrixScan (debounce c)) (matrixInit init) scans
    Defers (fun m => m i.1 i.2) c.debounce.toNat scans scan b.vars.cooked
      (matrixScan (debounce c) b scan).vars.cooked := by
  intro b
  have hold := horder.of_append
  have hinv : Inv c b fun i => steady (fun m => m i.1 i.2) scans :=
    run_steady _ (Inv c) inv_init (fun b st scan h hle hsince => (h.step scan hle hsince).1) hold
  apply DeferRule.defers horder
  exact (hinv.step scan (run_time_le horder) fun i t ht => since_le_run_time hold ht).2 i

end SymDeferPk

end Debounce
end VialQmk
