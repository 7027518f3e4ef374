import VialQmk.TapDance.Engine

/-!
# Tap dance - indices

There are 256 tap-dance keycodes, and as many dances as {lit}`VIAL_TAP_DANCE_ENTRIES` says.
{lit}`process_tap_dance` takes the index from the keycode and does not look at the number.

Main results:

- Definition {lit}`InTable`: what was accessed is in the table, and so is the active dance.
- Theorem {lit}`run_inTable_iff`: this holds after every step of a run if and only if every
  tap-dance keycode that {lit}`process_tap_dance` gets belongs to an entry.
-/

namespace VialQmk
namespace TapDance

variable (c : Config)

/-- Every access was one to the table, and {lit}`active_td` is 0 or the keycode of an
entry. -/
structure InTable (s : State) : Prop where
  accesses : ∀ i ∈ s.accesses, i < c.vialTapDanceEntries
  active : s.activeTd = 0 ∨ ∃ i < 256, i < c.vialTapDanceEntries ∧ s.activeTd = td i

/-- The keycode {lit}`process_tap_dance` gets in the next call. -/
def processedKeycode (s : State) : Option ℕ :=
  match s.calls with
  | .processKeycode _ keycode true :: _ => some keycode
  | .tapDanceRelease keycode :: _ => some keycode
  | _ => none

/-- It is no tap-dance keycode, or that of an entry. -/
def ValidIndex (s : State) (_ : Input) : Prop :=
  ∀ keycode ∈ processedKeycode s, isTapDance keycode = true →
    getIndex keycode < c.vialTapDanceEntries

instance (s : State) (input : Input) : Decidable (ValidIndex c s input) :=
  inferInstanceAs (Decidable (∀ keycode ∈ processedKeycode s, _))

/-- The indices stay in the table, also those of the calls in progress. -/
structure Indexed (s : State) : Prop extends InTable c s where
  activates : ∀ i, .activate i ∈ s.calls → i < 256 ∧ i < c.vialTapDanceEntries

variable {c} {s : State}

/-- The index of the active dance is in the table. -/
theorem InTable.index (h : InTable c s) (hactive : s.activeTd ≠ 0) :
    getIndex s.activeTd < c.vialTapDanceEntries := by
  rcases h.active with hzero | ⟨i, hlt, hi, htd⟩
  · exact absurd hzero hactive
  · rwa [htd, getIndex_td hlt]

/-! ## Calls -/

/-- Other calls and a further access. -/
theorem Indexed.call {cs : List Call} (h : Indexed c s)
    (hcs : ∀ i, .activate i ∈ cs → i < 256 ∧ i < c.vialTapDanceEntries) :
    Indexed c (s.call cs) := by
  refine ⟨⟨h.accesses, h.active⟩, fun i hi => ?_⟩
  rcases List.mem_append.mp hi with hnew | hold
  · exact hcs i hnew
  · exact h.activates i hold

theorem Indexed.access {i : ℕ} (h : Indexed c s) (hi : i < c.vialTapDanceEntries) :
    Indexed c (s.access i) := by
  refine ⟨⟨?_, h.active⟩, h.activates⟩
  intro j hj
  rcases List.mem_append.mp hj with hold | hnew
  · exact h.accesses j hold
  · rw [List.mem_singleton.mp hnew]
    exact hi

/-- Changes of the rest of the state. -/
theorem Indexed.congr {s' : State} (h : Indexed c s) (haccesses : s'.accesses = s.accesses)
    (hactive : s'.activeTd = s.activeTd) (hcalls : s'.calls = s.calls) : Indexed c s' := by
  refine ⟨⟨?_, ?_⟩, ?_⟩
  · rw [haccesses]
    exact h.accesses
  · rw [hactive]
    exact h.active
  · rw [hcalls]
    exact h.activates

theorem Indexed.withActive {keycode : ℕ} (h : Indexed c s)
    (hkeycode : keycode = 0 ∨ ∃ i < 256, i < c.vialTapDanceEntries ∧ keycode = td i) :
    Indexed c { s with activeTd := keycode } :=
  ⟨⟨h.accesses, hkeycode⟩, h.activates⟩

theorem Indexed.preprocess (h : Indexed c s) (src : Source) (keycode : ℕ) (pressed : Bool) :
    Indexed c (preprocessTapDance src keycode pressed s) := by
  unfold preprocessTapDance
  by_cases hinterrupt : pressed ∧ s.activeTd ≠ 0 ∧ keycode ≠ s.activeTd
  · rw [if_pos hinterrupt]
    apply Indexed.call
    · exact (h.access (h.index hinterrupt.2.1)).congr rfl rfl rfl
    · simp
  · rw [if_neg hinterrupt]
    exact h.call (by simp)

theorem Indexed.processRecordVial (h : Indexed c s) (keycode : ℕ) :
    Indexed c (processRecordVial c keycode s) := by
  rcases processRecordVial_cases (c := c) keycode s with hsame | ⟨htd, hlt, hentry | hearly⟩
  · rw [hsame]
    exact h
  · rw [hentry]
    exact (h.access hlt).congr rfl rfl rfl
  · rw [hearly]
    apply Indexed.call
    · exact (h.access hlt).congr rfl rfl rfl
    · simp

theorem Indexed.processTapDance {keycode : ℕ} (h : Indexed c s)
    (hvalid : isTapDance keycode = true → getIndex keycode < c.vialTapDanceEntries) :
    Indexed c (processTapDance c keycode s) := by
  rcases processTapDance_cases (c := c) keycode s with ⟨-, hsame⟩ | ⟨htd, k, entry, htaps⟩
  · rw [hsame]
    exact h
  · rw [htaps]
    apply Indexed.call
    · exact (h.access (hvalid htd)).congr rfl rfl rfl
    · intro i hi
      rcases List.mem_append.mp hi with htap | hlast
      · rcases mem_taps htap with ⟨pressed, hcall⟩
        exact absurd hcall nofun
      · rw [List.mem_singleton, Call.activate.injEq] at hlast
        rw [hlast]
        exact ⟨getIndex_lt keycode, hvalid htd⟩

theorem Indexed.processTapDanceRelease {keycode : ℕ} (h : Indexed c s)
    (hvalid : isTapDance keycode = true → getIndex keycode < c.vialTapDanceEntries) :
    Indexed c (processTapDanceRelease keycode s) := by
  unfold TapDance.processTapDanceRelease
  split_ifs with htd
  · dsimp only
    have haccess := h.access (hvalid htd)
    split_ifs
    · apply Indexed.call
      · exact haccess.congr rfl rfl rfl
      · simp
    · exact haccess.congr rfl rfl rfl
  · exact h

theorem Indexed.vialKeycode (h : Indexed c s) (keepsBack : Bool) (owner : Option ℕ)
    (keycode : ℕ) (pressed : Bool) :
    Indexed c (vialKeycode keepsBack owner keycode pressed s) := by
  unfold TapDance.vialKeycode
  dsimp only
  split_ifs
  · exact h.congr rfl rfl rfl
  · exact h.congr rfl rfl rfl
  · apply Indexed.call
    · exact h.congr rfl rfl rfl
    · simp

/-- The calls that are left, and the one that is executed. -/
theorem Indexed.tail {call : Call} {calls : List Call} (h : Indexed c s)
    (hcalls : s.calls = call :: calls) : Indexed c { s with calls := calls } := by
  refine ⟨⟨h.accesses, h.active⟩, fun i hi => h.activates i ?_⟩
  rw [hcalls]
  exact List.mem_cons_of_mem call hi

theorem Indexed.step (h : Indexed c s) {input : Input} (hvalid : ValidIndex c s input) :
    Indexed c (step c s input) := by
  unfold TapDance.step
  cases hcalls : s.calls with
  | nil =>
    cases input with
    | next keepsBack => exact h
    | key keycode again pressed => exact h.call (by simp)
    | send keycode pressed => exact h.call (by simp)
    | tapped =>
      cases hwaiting : s.waiting with
      | nil => simpa only [accept, hwaiting] using h
      | cons e waiting =>
        simp only [accept, hwaiting]
        apply Indexed.call
        · exact h.congr rfl rfl rfl
        · simp
    | unlock inProgress => exact h.congr rfl rfl rfl
    | task =>
      simp only [accept, tapDanceTask]
      split_ifs with hidle hinterrupted
      · exact h
      · exact h.access (h.index (not_or.mp hidle).1)
      · apply Indexed.call
        · exact h.access (h.index (not_or.mp hidle).1)
        · simp
    | time now => exact h.congr rfl rfl rfl
    | edit i entry =>
      simp only [accept]
      split_ifs
      · exact h.congr rfl rfl rfl
      · exact h
  | cons call calls =>
    have htail := h.tail hcalls
    dsimp only
    cases call with
    | processRecord src pressed => exact htail.preprocess src _ pressed
    | lookAgain src pressed => exact htail.call (by simp)
    | processKeycode owner keycode pressed =>
      simp only [exec]
      cases pressed with
      | true =>
        apply Indexed.processTapDance
        · exact htail.congr rfl rfl rfl
        · exact hvalid keycode (by simp [processedKeycode, hcalls])
      | false =>
        apply Indexed.processRecordVial
        apply Indexed.call
        · exact htail.congr rfl rfl rfl
        · simp
    | tapDanceRelease keycode =>
      apply htail.processTapDanceRelease
      exact hvalid keycode (by simp [processedKeycode, hcalls])
    | activate i =>
      have hi := h.activates i (by simp [hcalls])
      apply htail.withActive
      split_ifs
      · exact Or.inl rfl
      · exact Or.inr ⟨i, hi.1, hi.2, rfl⟩
    | onDanceFinished i =>
      by_cases hfinished : (s.dances i).finished = true
      · rw [exec, if_pos hfinished]
        exact htail.call (by simp)
      · rcases @exec_onDanceFinished c input.keepsBack i { s with calls := calls }
          (Bool.eq_false_iff.mpr hfinished) with ⟨-, hexec⟩ | ⟨-, hexec⟩
        · rw [hexec]
          apply Indexed.call
          · exact htail.congr rfl rfl rfl
          · simp
        · rw [hexec]
          apply Indexed.call
          · exact htail.congr rfl rfl rfl
          · intro j hj
            rcases List.mem_append.mp hj with hcall | hlast
            · rcases mem_finishedCalls hcall with ⟨keycode, pressed, hcall⟩ | ⟨st, hcall⟩
              · cases hcall
              · cases hcall
            · cases List.mem_singleton.mp hlast
    | afterFinished i =>
      simp only [exec]
      have hidle := htail.withActive (Or.inl rfl : (0 : ℕ) = 0 ∨ _)
      split_ifs
      · exact hidle
      · exact hidle.call (by simp)
    | onReset i released =>
      rcases @exec_onReset c input.keepsBack i released { s with calls := calls } with
        ⟨-, hexec⟩ | ⟨-, hexec⟩
      · rw [hexec]
        exact htail.call (by simp)
      · rw [hexec]
        apply Indexed.call
        · exact htail.congr rfl rfl rfl
        · intro j hj
          rcases List.mem_append.mp hj with hcall | hlast
          · rcases mem_resetCalls hcall with ⟨keycode, hcall⟩
            cases hcall
          · cases List.mem_singleton.mp hlast
    | afterReset i released =>
      simp only [exec]
      split_ifs
      · have hidle := htail.withActive (Or.inl rfl : (0 : ℕ) = 0 ∨ _)
        exact hidle.congr rfl rfl rfl
      · exact htail.congr rfl rfl rfl
    | afterTap st i => exact htail.call (by simp)
    | vialKeycode owner keycode pressed => exact htail.vialKeycode _ owner keycode pressed

/-- A call of {lit}`process_tap_dance` accesses the dance of its keycode. -/
theorem step_accesses {keycode : ℕ} {input : Input} (hkeycode : keycode ∈ processedKeycode s)
    (htd : isTapDance keycode = true) : getIndex keycode ∈ (step c s input).accesses := by
  unfold processedKeycode at hkeycode
  unfold TapDance.step
  split at hkeycode
  · rename_i owner keycode' calls hcalls
    rw [Option.mem_some] at hkeycode
    subst hkeycode
    rw [hcalls]
    dsimp only
    rw [exec, if_pos rfl]
    rcases processTapDance_cases (c := c) keycode'
      { s with calls := calls, log := s.log ++ [⟨owner, keycode', true⟩] } with
      ⟨hnone, -⟩ | ⟨-, k, entry, htaps⟩
    · exact absurd (hnone.symm.trans htd) Bool.false_ne_true
    · rw [htaps]
      exact List.mem_append_right _ (List.mem_singleton_self _)
  · rename_i keycode' calls hcalls
    rw [Option.mem_some] at hkeycode
    subst hkeycode
    rw [hcalls]
    dsimp only
    simp only [exec, processTapDanceRelease, if_pos htd]
    split_ifs
    · exact List.mem_append_right _ (List.mem_singleton_self _)
    · exact List.mem_append_right _ (List.mem_singleton_self _)
  · cases hkeycode

/-- The indices stay in the table, along a run, if and only if the tap-dance keycodes that
are processed belong to entries. -/
theorem run_inTable_iff (c : Config) (table : ℕ → Entry) (inputs : List Input) :
    StateMachine.Along (step c) (fun s input => InTable c (step c s input)) (initial table)
      inputs ↔ StateMachine.Along (step c) (ValidIndex c) (initial table) inputs := by
  apply StateMachine.along_iff_of_invariant (Indexed c)
  · intro s input h
    constructor
    · intro hstep keycode hkeycode htd
      exact hstep.accesses _ (step_accesses hkeycode htd)
    · exact fun hvalid => (h.step hvalid).toInTable
  · exact fun s input h hvalid => h.step hvalid
  · exact ⟨⟨nofun, Or.inl rfl⟩, nofun⟩

/-- A key with a tap-dance keycode beyond the only entry. -/
theorem not_inTable_beyond :
    let c : Config := ⟨1, 200⟩
    ¬ StateMachine.Along (step c) (fun s input => InTable c (step c s input))
      (initial fun _ => ⟨4, 5, 0, 0, 200⟩)
      [.key (td 1) (td 1) true, .next false, .next false] := by
  rintro c ⟨-, -, hlast, -⟩
  exact absurd (hlast.accesses 1 (by decide)) (by decide)

end TapDance
end VialQmk
