import VialQmk.Library.Runs
import VialQmk.Library.Sweep
import Mathlib.Data.Fintype.Pi

/-!
# Debounce - scans and what they have seen

{lit}`matrix_scan` compares the raw matrix with that of the previous scan, and hands both
matrices to {lit}`debounce`.  What an algorithm promises is about the history of the scans: a
part of the matrix (a key, a row, or the whole) that has been seen with one value for some
time.

Main results:

- Definition {lit}`matrixScan`: one scan, for any of the algorithms.
- Definition {lit}`Held`: the latest scans have seen one value for some time.
- Theorem {lit}`held_iff`: this in terms of the time of the last change.
- Definition {lit}`changeTimes`: when something about the variables has changed in a run.
-/

namespace VialQmk
namespace Debounce

/-! ## Matrices and time -/

/-- {lit}`matrix_row_t`, one bit a column -/
abbrev MatrixRow (cols : ℕ) := Fin cols → Bool

/-- {lit}`matrix_row_t[]` -/
abbrev KeyMatrix (rows cols : ℕ) := Fin rows → MatrixRow cols

variable {w rows cols : ℕ}

/-- All keys off. -/
def allOff : KeyMatrix rows cols :=
  fun _ _ => false

/-- Set what belongs to a key. -/
def setKey {α : Type} (m : Fin rows → Fin cols → α) (row : Fin rows) (col : Fin cols) (x : α) :
    Fin rows → Fin cols → α :=
  Function.update m row (Function.update (m row) col x)

/-- The keys in the order of the loops over rows and columns. -/
def keys (rows cols : ℕ) : List (Fin rows × Fin cols) :=
  Sweep.pairs (List.finRange rows) (List.finRange cols)

/-- {lit}`TIMER_DIFF_FAST`, cut to 8 bits as {lit}`elapsed_time` is -/
def elapsedTime (now last : BitVec w) : UInt8 :=
  if 255 < (now - last).toNat then 255 else (now - last).toNat.toUInt8

/-- The time of a scan, as the timer returns it, and the raw matrix. -/
structure Scan (w rows cols : ℕ) where
  time : BitVec w
  raw : KeyMatrix rows cols

/-- The variables of an algorithm (the cooked matrix with them), the raw matrix and the time
of the latest scan, and what {lit}`debounce` has returned. -/
structure Board (w rows cols : ℕ) (σ : Type) where
  vars : σ
  rawMatrix : KeyMatrix rows cols
  time : BitVec w
  changed : Bool

/-- {lit}`matrix_scan` with an algorithm. -/
def matrixScan {σ : Type} (debounce : KeyMatrix rows cols → Bool → BitVec w → σ → σ × Bool)
    (b : Board w rows cols σ) (scan : Scan w rows cols) : Board w rows cols σ :=
  let changed := decide (scan.raw ≠ b.rawMatrix)
  let res := debounce scan.raw changed scan.time b.vars
  ⟨res.1, scan.raw, scan.time, res.2⟩

/-- {lit}`matrix_init` -/
def matrixInit {σ : Type} (vars : σ) : Board w rows cols σ :=
  ⟨vars, allOff, 0, false⟩

/-- The timestamps do not decrease. -/
def InOrder (scans : List (Scan w rows cols)) : Prop :=
  (scans.map Scan.time).Pairwise (· ≤ ·)

instance (scans : List (Scan w rows cols)) : Decidable (InOrder scans) :=
  inferInstanceAs (Decidable (List.Pairwise _ _))

@[simp]
theorem setKey_self {α : Type} (m : Fin rows → Fin cols → α) (row : Fin rows) (col : Fin cols)
    (x : α) : setKey m row col x row col = x := by
  simp [setKey]

theorem setKey_of_ne {α : Type} (m : Fin rows → Fin cols → α) {row row' : Fin rows}
    {col col' : Fin cols} (x : α) (hne : (row, col) ≠ (row', col')) :
    setKey m row col x row' col' = m row' col' := by
  unfold setKey
  by_cases hrow : row' = row
  · subst hrow
    rw [Function.update_self, Function.update_of_ne]
    rintro rfl
    exact hne rfl
  · rw [Function.update_of_ne hrow]

/-- A row changes when one of its keys does. -/
theorem setKey_row_ne_iff (m : KeyMatrix rows cols) (row : Fin rows) (col : Fin cols) (on : Bool) :
    m row ≠ setKey m row col on row ↔ m row col ≠ on := by
  have hrow : setKey m row col on row = Function.update (m row) col on := by
    simp [setKey]
  rw [hrow, Ne, Ne, not_iff_not, eq_comm, Function.update_eq_self_iff, eq_comm]

theorem mem_keys (row : Fin rows) (col : Fin cols) : (row, col) ∈ keys rows cols :=
  Sweep.mem_pairs.mpr ⟨List.mem_finRange row, List.mem_finRange col⟩

theorem nodup_keys : (keys rows cols).Nodup :=
  Sweep.nodup_pairs (List.nodup_finRange rows) (List.nodup_finRange cols)

/-- Time that has passed, up to 255. -/
theorem elapsedTime_toNat {now last : BitVec w} (hle : last ≤ now) :
    (elapsedTime now last).toNat = min (now.toNat - last.toNat) 255 := by
  have hsub : (now - last).toNat = now.toNat - last.toNat := BitVec.toNat_sub_of_le hle
  rw [elapsedTime, hsub]
  split_ifs with hlarge
  · rw [min_eq_right (Nat.le_of_lt hlarge)]
    rfl
  · rw [min_eq_left (Nat.le_of_not_lt hlarge)]
    exact Nat.mod_eq_of_lt (by omega)

/-! ## What the scans have seen -/

section Held

variable {β : Type} [DecidableEq β] {p : KeyMatrix rows cols → β} {v : β} {d : ℕ}
  {now : BitVec w} {scans : List (Scan w rows cols)} {scan : Scan w rows cols}

/-- The latest scans have all seen a value, and the first of them was some time ago. -/
def Held (p : KeyMatrix rows cols → β) (v : β) (d : ℕ) (now : BitVec w)
    (scans : List (Scan w rows cols)) : Prop :=
  ∃ before first later, scans = before ++ first :: later ∧
    (∀ scan ∈ first :: later, p scan.raw = v) ∧ first.time.toNat + d ≤ now.toNat

/-- A value, and the time of the scan that has seen it first. -/
structure Steady (w : ℕ) (β : Type) where
  value : β
  since : Option (BitVec w)

/-- What a scan sees. -/
def Steady.next (st : Steady w β) (time : BitVec w) (v : β) : Steady w β :=
  if v = st.value then st else ⟨v, some time⟩

/-- What the scans have seen, from all keys off on. -/
def steady (p : KeyMatrix rows cols → β) (scans : List (Scan w rows cols)) : Steady w β :=
  scans.foldl (fun st scan => st.next scan.time (p scan.raw)) ⟨p allOff, none⟩

@[simp]
theorem steady_nil : steady p ([] : List (Scan w rows cols)) = ⟨p allOff, none⟩ :=
  rfl

@[simp]
theorem steady_append :
    steady p (scans ++ [scan]) = (steady p scans).next scan.time (p scan.raw) := by
  rw [steady, List.foldl_append]
  rfl

@[simp]
theorem Steady.next_value (st : Steady w β) (time : BitVec w) (v : β) :
    (st.next time v).value = v := by
  rw [Steady.next]
  split_ifs with heq
  · exact heq.symm
  · rfl

/-- The value is the same, or it is new. -/
theorem Steady.next_cases (st : Steady w β) (time : BitVec w) (v : β) :
    v = st.value ∧ (st.next time v).since = st.since ∨
      v ≠ st.value ∧ (st.next time v).since = some time := by
  rw [Steady.next]
  split_ifs with heq
  · exact Or.inl ⟨heq, rfl⟩
  · exact Or.inr ⟨heq, rfl⟩

/-- Since the time of the last change the scans have seen one value. -/
theorem steady_since {t : BitVec w} (ht : (steady p scans).since = some t) :
    ∃ before first later, scans = before ++ first :: later ∧
      (∀ scan ∈ first :: later, p scan.raw = (steady p scans).value) ∧ first.time = t := by
  induction scans using List.reverseRecOn with
  | nil => exact absurd ht nofun
  | append_singleton scans scan ih =>
    rw [steady_append] at ht ⊢
    rw [Steady.next_value]
    rcases (steady p scans).next_cases scan.time (p scan.raw) with ⟨hsame, hsince⟩ | ⟨-, hsince⟩
    · rw [hsince] at ht
      rcases ih ht with ⟨before, first, later, rfl, hall, hfirst⟩
      refine ⟨before, first, later ++ [scan], by simp, ?_, hfirst⟩
      intro scan' hmem
      rw [← List.cons_append, List.mem_append, List.mem_singleton] at hmem
      rcases hmem with hold | rfl
      · rw [hall scan' hold, hsame]
      · rfl
    · rw [hsince, Option.some.injEq] at ht
      refine ⟨scans, scan, [], rfl, ?_, ht⟩
      intro scan' hmem
      rw [List.mem_singleton.mp hmem]

/-- Scans that have all seen one value do not change the time of the last change. -/
theorem steady_append_of_forall {later : List (Scan w rows cols)}
    (hlater : ∀ scan ∈ later, p scan.raw = (steady p scans).value) :
    steady p (scans ++ later) = steady p scans := by
  induction later using List.reverseRecOn with
  | nil => rw [List.append_nil]
  | append_singleton later scan ih =>
    have hsame := ih fun scan' hmem => hlater scan' (List.mem_append_left _ hmem)
    rw [← List.append_assoc, steady_append, hsame, Steady.next, if_pos]
    exact hlater scan (List.mem_append_right _ (List.mem_singleton_self scan))

/-- The time of the last change is not after a scan that was followed by the same value
only. -/
theorem since_le_of_held {before later : List (Scan w rows cols)} {first : Scan w rows cols}
    (horder : InOrder (before ++ first :: later))
    (hall : ∀ scan ∈ first :: later, p scan.raw = v) {t : BitVec w}
    (ht : (steady p (before ++ first :: later)).since = some t) : t ≤ first.time := by
  have hfirst : (steady p (before ++ [first])).value = v := by
    rw [steady_append, Steady.next_value]
    exact hall first List.mem_cons_self
  have hlist : before ++ first :: later = before ++ [first] ++ later := by simp
  rw [hlist, steady_append_of_forall, steady_append] at ht
  · rcases (steady p before).next_cases first.time (p first.raw) with ⟨-, hsince⟩ | ⟨-, hsince⟩
    · rw [hsince] at ht
      rcases steady_since ht with ⟨older, scan, newer, rfl, -, rfl⟩
      rw [InOrder, List.map_append, List.pairwise_append] at horder
      exact horder.2.2 _ (List.mem_map_of_mem (by simp)) _ (List.mem_map_of_mem List.mem_cons_self)
    · rw [hsince, Option.some.injEq] at ht
      rw [ht]
      exact BitVec.le_refl t
  · intro scan hmem
    rw [hfirst]
    exact hall scan (List.mem_cons_of_mem first hmem)

/-- A value has been held for some time if the last change was that long ago.  A value that
never changed may have been held from the first scan on. -/
theorem held_iff (horder : InOrder scans) {t : BitVec w}
    (ht : (steady p scans).since = some t) :
    Held p (steady p scans).value d now scans ↔ t.toNat + d ≤ now.toNat := by
  constructor
  · rintro ⟨before, first, later, rfl, hall, hlong⟩
    have hle : t ≤ first.time := since_le_of_held horder hall ht
    rw [BitVec.le_def] at hle
    omega
  · intro hlong
    rcases steady_since ht with ⟨before, first, later, hlist, hall, hfirst⟩
    exact ⟨before, first, later, hlist, hall, hfirst ▸ hlong⟩

end Held

/-! ## Runs -/

section Runs

variable {σ κ β : Type} [DecidableEq β]
  {debounce : KeyMatrix rows cols → Bool → BitVec w → σ → σ × Bool} {vars : σ}
  {scans : List (Scan w rows cols)} {scan : Scan w rows cols}

theorem InOrder.of_append (h : InOrder (scans ++ [scan])) : InOrder scans := by
  rw [InOrder, List.map_append, List.pairwise_append] at h
  exact h.1

theorem InOrder.le_last (h : InOrder (scans ++ [scan])) :
    ∀ scan' ∈ scans, scan'.time ≤ scan.time := by
  rw [InOrder, List.map_append, List.pairwise_append] at h
  exact fun scan' hmem => h.2.2 _ (List.mem_map_of_mem hmem) _ (by simp)

/-- The latest scan before one that is in order is not after it. -/
theorem run_time_le (h : InOrder (scans ++ [scan])) :
    (StateMachine.run (matrixScan debounce) (matrixInit vars) scans).time ≤ scan.time := by
  induction scans using List.reverseRecOn with
  | nil =>
    rw [BitVec.le_def]
    simp [matrixInit]
  | append_singleton scans scan' =>
    rw [StateMachine.run_append]
    exact h.le_last scan' (by simp)

/-- No change was after the latest scan. -/
theorem since_le_run_time {p : KeyMatrix rows cols → β} (h : InOrder scans) {t : BitVec w}
    (ht : (steady p scans).since = some t) :
    t ≤ (StateMachine.run (matrixScan debounce) (matrixInit vars) scans).time := by
  rcases steady_since ht with ⟨before, first, later, hlist, -, rfl⟩
  induction scans using List.reverseRecOn with
  | nil => exact absurd hlist (by simp)
  | append_singleton scans scan =>
    rw [StateMachine.run_append]
    have hmem : first ∈ scans ++ [scan] := by
      rw [hlist]
      simp
    rcases List.mem_append.mp hmem with hold | hlast
    · exact h.le_last first hold
    · rw [List.mem_singleton.mp hlast]
      exact BitVec.le_refl _

/-- What the scans keep, about the board and what they have seen, holds at the end of a
run. -/
theorem run_steady (p : κ → KeyMatrix rows cols → β)
    (Inv : Board w rows cols σ → (κ → Steady w β) → Prop)
    (hinit : Inv (matrixInit vars) fun k => ⟨p k allOff, none⟩)
    (hstep : ∀ b st scan, Inv b st → b.time ≤ scan.time →
      (∀ k, ∀ t ∈ (st k).since, t ≤ b.time) →
        Inv (matrixScan debounce b scan) fun k => (st k).next scan.time (p k scan.raw))
    (h : InOrder scans) :
    Inv (StateMachine.run (matrixScan debounce) (matrixInit vars) scans)
      fun k => steady (p k) scans := by
  induction scans using List.reverseRecOn with
  | nil => exact hinit
  | append_singleton scans scan ih =>
    have hold := h.of_append
    rw [StateMachine.run_append]
    simp only [steady_append]
    exact hstep _ _ scan (ih hold) (run_time_le h) fun k t ht => since_le_run_time hold ht

/-- The times of the scans that have changed something about the variables, from a board
on. -/
def changeTimes (debounce : KeyMatrix rows cols → Bool → BitVec w → σ → σ × Bool)
    (view : σ → β) : Board w rows cols σ → List (Scan w rows cols) → List (BitVec w)
  | _, [] => []
  | b, scan :: scans =>
    let b' := matrixScan debounce b scan
    (if view b'.vars ≠ view b.vars then [scan.time] else []) ++ changeTimes debounce view b' scans

theorem changeTimes_append (view : σ → β) (b : Board w rows cols σ) :
    changeTimes debounce view b (scans ++ [scan]) =
      changeTimes debounce view b scans ++
        if view (matrixScan debounce (StateMachine.run (matrixScan debounce) b scans) scan).vars ≠
            view (StateMachine.run (matrixScan debounce) b scans).vars then [scan.time]
        else [] := by
  induction scans generalizing b with
  | nil =>
    rw [List.nil_append, changeTimes, changeTimes, changeTimes, List.append_nil, List.nil_append]
    rfl
  | cons scan' scans ih =>
    rw [List.cons_append, changeTimes, changeTimes, ih, List.append_assoc]
    rfl

end Runs

end Debounce
end VialQmk
