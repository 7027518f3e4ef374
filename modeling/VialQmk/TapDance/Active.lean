import VialQmk.TapDance.Pending

/-!
# Tap dance - the active dance

{lit}`active_td` names one dance, and there are many.  It is written when a dance has been
counted, when a callback for a finished dance has returned, and when a dance has been reset.
Only the last place looks at the dance it names.

Main results:

- Definition {lit}`Remembered`: a dance under way is the active one, or about to become it.
- Definition {lit}`Watched`: when no call is in progress, a dance under way is finished by
  the task or by another key, and a finished one is reset by the release of its key.
- Theorem {lit}`run_remembered_iff`: no dance is forgotten along a run if and only if
  {lit}`active_td` is never overwritten while it names another dance under way, and between
  the calls the dances of such a run are watched.
-/

namespace VialQmk
namespace TapDance

open Function (update)

/-- A dance that was counted and is not finished. -/
def UnderWay (d : Dance) : Prop :=
  d.count ≠ 0 ∧ d.finished = false

instance (d : Dance) : Decidable (UnderWay d) :=
  inferInstanceAs (Decidable (_ ∧ _))

/-- Each dance under way is the active one, or a call that makes it so is in progress. -/
def Remembered (s : State) : Prop :=
  ∀ i, UnderWay (s.dances i) → s.activeTd = td i ∨ .activate i ∈ s.calls

/-- The next call does not overwrite {lit}`active_td` while it names another dance under
way. -/
def KeepsActive (s : State) (_ : Input) : Prop :=
  match s.calls with
  | .afterFinished _ :: calls =>
    ∀ i, s.activeTd = td i → UnderWay (s.dances i) → .activate i ∈ calls
  | .activate j :: calls =>
    ∀ i, i ≠ j → s.activeTd = td i → UnderWay (s.dances i) → .activate i ∈ calls
  | _ => True

/-- Between the calls, nothing is forgotten. -/
structure Watched (c : Config) (s : State) : Prop where
  active : ∀ i, UnderWay (s.dances i) → s.activeTd = td i
  timeout : ∀ i keepsBack, UnderWay (s.dances i) →
    getTappingTerm c s (td i) < s.now - s.lastTapTime →
    ((StateMachine.run (step c) s [.task, .next keepsBack]).dances i).finished = true
  interrupt : ∀ i keycode again keepsBack, UnderWay (s.dances i) → keycode ≠ td i →
    ((StateMachine.run (step c) s
      [.key keycode again true, .next keepsBack, .next keepsBack]).dances i).finished = true
  reset : ∀ i again keepsBack, (s.dances i).finished = true → (s.dances i).pressed = true ∧
    ∃ n released calls, (StateMachine.run (step c) s
      (.key (td i) again false :: List.replicate n (.next keepsBack))).calls =
        .onReset i released :: calls

variable {c : Config} {keepsBack : Bool} {s : State} {i : ℕ} {calls : List Call}

/-! ## Steps -/

/-- What neither counts nor ends a dance, nor writes {lit}`active_td`. -/
theorem Remembered.of_underWay {s' : State} (h : Remembered s)
    (hactive : s'.activeTd = s.activeTd) (hcalls : s.calls ⊆ s'.calls)
    (hunder : ∀ i, UnderWay (s'.dances i) → UnderWay (s.dances i)) : Remembered s' := by
  intro i hi
  rw [hactive]
  exact (h i (hunder i hi)).imp_right fun hmem => hcalls hmem

/-- Other calls alone. -/
theorem Remembered.call (h : Remembered s) (cs : List Call) : Remembered (s.call cs) :=
  h.of_underWay rfl (List.subset_append_right cs s.calls) fun _ hi => hi

/-- A call that is not about {lit}`active_td` is gone. -/
theorem Remembered.tail {call : Call} (h : Remembered s) (hcalls : s.calls = call :: calls)
    (hother : ∀ i, call ≠ .activate i) : Remembered { s with calls := calls } := by
  intro i hi
  refine (h i hi).imp_right fun hmem => ?_
  rw [hcalls] at hmem
  exact List.mem_of_ne_of_mem (hother i).symm hmem

/-- A changed dance that is under way was so before. -/
theorem underWay_update {dances : ℕ → Dance} {d : Dance} (hd : UnderWay d → UnderWay (dances i))
    (j : ℕ) (h : UnderWay (update dances i d j)) : UnderWay (dances j) := by
  by_cases hj : j = i
  · subst hj
    rw [Function.update_self] at h
    exact hd h
  · rwa [Function.update_of_ne hj] at h

theorem Remembered.preprocess (h : Remembered s) (src : Source) (keycode : ℕ) (pressed : Bool) :
    Remembered (preprocessTapDance src keycode pressed s) := by
  unfold preprocessTapDance
  split_ifs
  · exact h.of_underWay rfl (List.subset_append_right _ s.calls)
      (underWay_update fun hd => hd)
  · exact h.call _

theorem Remembered.processRecordVial (h : Remembered s) (keycode : ℕ) :
    Remembered (processRecordVial c keycode s) := by
  rcases processRecordVial_cases (c := c) keycode s with hsame | ⟨-, -, hentry | hearly⟩
  · rw [hsame]
    exact h
  · rw [hentry]
    exact h.of_underWay rfl (List.Subset.refl s.calls) fun _ hi => hi
  · rw [hearly]
    exact h.of_underWay rfl (List.subset_append_right _ s.calls)
      (underWay_update fun hd => hd)

/-- A press makes its dance the active one in the end. -/
theorem Remembered.processTapDance (h : Remembered s) (keycode : ℕ) :
    Remembered (processTapDance c keycode s) := by
  rcases processTapDance_cases (c := c) keycode s with ⟨-, hsame⟩ | ⟨-, k, entry, htaps⟩
  · rw [hsame]
    exact h
  · rw [htaps]
    intro j hj
    by_cases hij : j = getIndex keycode
    · right
      rw [hij]
      simp [State.call]
    · have hother : UnderWay (s.dances j) := by
        simpa only [State.call, State.countTap, State.modify, State.access,
          Function.update_of_ne hij] using hj
      exact (h j hother).imp_right fun hmem => List.mem_append_right _ hmem

theorem Remembered.processTapDanceRelease (h : Remembered s) (keycode : ℕ) :
    Remembered (processTapDanceRelease keycode s) := by
  unfold TapDance.processTapDanceRelease
  dsimp only
  split_ifs
  · exact h.of_underWay rfl (List.subset_append_right _ s.calls)
      (underWay_update fun hd => hd)
  · exact h.of_underWay rfl (List.Subset.refl s.calls)
      (underWay_update fun hd => hd)
  · exact h

theorem Remembered.onDanceFinished (h : Remembered s) (i : ℕ) :
    Remembered (exec c keepsBack s (.onDanceFinished i)) := by
  have hdone : ∀ d : Dance, UnderWay { d with finished := true } → UnderWay d :=
    fun d hd => absurd hd.2 (by simp)
  by_cases hfinished : (s.dances i).finished = true
  · rw [exec, if_pos hfinished]
    exact h.call _
  · rcases @exec_onDanceFinished c keepsBack i s (Bool.eq_false_iff.mpr hfinished) with
      ⟨-, hexec⟩ | ⟨-, hexec⟩
    · rw [hexec]
      exact h.of_underWay rfl (List.subset_append_right _ s.calls) (underWay_update (hdone _))
    · rw [hexec]
      exact h.of_underWay rfl (List.subset_append_right _ s.calls) (underWay_update (hdone _))

theorem Remembered.onReset (h : Remembered s) (i : ℕ) (released : Bool) :
    Remembered (exec c keepsBack s (.onReset i released)) := by
  rcases @exec_onReset c keepsBack i released s with ⟨-, hexec⟩ | ⟨-, hexec⟩
  · rw [hexec]
    exact h.call _
  · rw [hexec]
    exact h.of_underWay rfl (List.subset_append_right _ s.calls)
      (underWay_update fun hd => absurd rfl hd.1)

/-- A reset forgets the dance that is reset, and no other one. -/
theorem Remembered.afterReset (h : Remembered s) (i : ℕ) (released : Bool) :
    Remembered (exec c keepsBack s (.afterReset i released)) := by
  have hzero : Remembered (s.modify i fun _ => Dance.zero) :=
    h.of_underWay rfl (List.Subset.refl s.calls)
      (underWay_update fun hd => absurd rfl hd.1)
  simp only [exec]
  split_ifs with hactive
  · intro j hj
    right
    refine (hzero j hj).resolve_left fun hother => ?_
    have hij : i = j := td_inj.mp (hactive.2.symm.trans hother)
    subst hij
    simp only [State.modify, Function.update_self] at hj
    exact absurd rfl hj.1
  · exact hzero

theorem Remembered.accept (h : Remembered s) (input : Input) : Remembered (accept c s input) := by
  cases input with
  | next keepsBack => exact h
  | key keycode again pressed => exact h.call _
  | send keycode pressed => exact h.call _
  | tapped =>
    cases hwaiting : s.waiting with
    | nil => simpa only [TapDance.accept, hwaiting] using h
    | cons e waiting =>
      simp only [TapDance.accept, hwaiting]
      exact h.of_underWay rfl (List.subset_append_right _ s.calls) fun _ hi => hi
  | unlock inProgress => exact h
  | task =>
    simp only [TapDance.accept, tapDanceTask]
    split_ifs
    · exact h
    · exact h
    · exact h.of_underWay rfl (List.subset_append_right _ s.calls) fun _ hi => hi
  | time now => exact h
  | edit i entry =>
    simp only [TapDance.accept]
    split_ifs
    · exact h
    · exact h

theorem Remembered.step (h : Remembered s) {input : Input} (hkeep : KeepsActive s input) :
    Remembered (step c s input) := by
  unfold TapDance.step
  cases hcalls : s.calls with
  | nil => exact h.accept input
  | cons call calls =>
    dsimp only
    cases call with
    | processRecord src pressed =>
      exact (h.tail hcalls (by simp)).preprocess src _ pressed
    | lookAgain src pressed => exact (h.tail hcalls (by simp)).call _
    | processKeycode owner keycode pressed =>
      have htail := h.tail hcalls (by simp)
      simp only [exec]
      cases pressed with
      | true =>
        apply Remembered.processTapDance
        exact htail
      | false =>
        apply Remembered.processRecordVial
        apply Remembered.call
        exact htail
    | tapDanceRelease keycode => exact (h.tail hcalls (by simp)).processTapDanceRelease keycode
    | activate j =>
      rw [KeepsActive, hcalls] at hkeep
      intro i hi
      by_cases hij : i = j
      · subst hij
        left
        exact if_neg (Bool.eq_false_iff.mp hi.2)
      · right
        rcases h i hi with hactive | hmem
        · exact hkeep i hij hactive hi
        · rw [hcalls] at hmem
          exact List.mem_of_ne_of_mem (by simpa using hij) hmem
    | onDanceFinished i => exact (h.tail hcalls (by simp)).onDanceFinished i
    | afterFinished j =>
      rw [KeepsActive, hcalls] at hkeep
      have hpending : ∀ i, UnderWay (s.dances i) → .activate i ∈ calls := by
        intro i hi
        rcases h i hi with hactive | hmem
        · exact hkeep i hactive hi
        · rw [hcalls] at hmem
          exact List.mem_of_ne_of_mem (by simp) hmem
      simp only [exec]
      split_ifs
      · exact fun i hi => Or.inr (hpending i hi)
      · exact fun i hi => Or.inr (List.mem_cons_of_mem _ (hpending i hi))
    | onReset i released => exact (h.tail hcalls (by simp)).onReset i released
    | afterReset i released => exact (h.tail hcalls (by simp)).afterReset i released
    | afterTap st i => exact (h.tail hcalls (by simp)).call _
    | vialKeycode owner keycode pressed =>
      have htail := h.tail hcalls (by simp)
      simp only [exec, vialKeycode]
      split_ifs
      · exact htail
      · exact htail
      · apply Remembered.call
        exact htail

/-- When the call that writes {lit}`active_td` overwrites it, a dance is forgotten. -/
theorem keepsActive_of_remembered {input : Input} (h : Remembered (step c s input)) :
    KeepsActive s input := by
  unfold KeepsActive
  split
  · rename_i j calls hcalls
    intro i hactive hunder
    simp only [Remembered, TapDance.step, hcalls, exec] at h
    split_ifs at h
    · exact (h i hunder).resolve_left (td_ne_zero i).symm
    · exact List.mem_of_ne_of_mem (by simp) ((h i hunder).resolve_left (td_ne_zero i).symm)
  · rename_i j calls hcalls
    intro i hij hactive hunder
    simp only [Remembered, TapDance.step, hcalls, exec] at h
    refine (h i hunder).resolve_left ?_
    split_ifs
    · exact (td_ne_zero i).symm
    · exact fun htd => hij (td_inj.mp htd).symm
  · trivial

/-! ## Between the calls -/

theorem exec_onDanceFinished_finished (i : ℕ) (s : State) :
    ((exec c keepsBack s (.onDanceFinished i)).dances i).finished = true := by
  by_cases hfinished : (s.dances i).finished = true
  · rw [exec, if_pos hfinished]
    exact hfinished
  · rcases exec_onDanceFinished (c := c) (Bool.eq_false_iff.mpr hfinished) with
      ⟨-, hexec⟩ | ⟨-, hexec⟩
    · rw [hexec]
      simp [State.call, State.modify]
    · rw [hexec]
      simp [State.call, State.modify]

theorem step_tapDanceRelease (hi : i < 256) (hcalls : s.calls = .tapDanceRelease (td i) :: calls)
    (hfinished : (s.dances i).finished = true) :
    (TapDance.step c s (.next keepsBack)).calls = .onReset i true :: calls := by
  simp only [TapDance.step, hcalls, exec, TapDance.processTapDanceRelease,
    isTapDance_td hi, if_true, getIndex_td hi]
  rw [if_pos]
  · rfl
  · simpa only [State.modify, State.access, Function.update_self] using hfinished

theorem run_onDanceFinished (hcalls : s.calls = .onDanceFinished i :: calls)
    (hfinished : (s.dances i).finished = true) (hpressed : (s.dances i).pressed = false) :
    (StateMachine.run (TapDance.step c) s [.next keepsBack, .next keepsBack]).calls =
      .onReset i false :: calls := by
  simp [StateMachine.run, TapDance.step, hcalls, exec, hfinished, State.call, hpressed]

/-- The release of its key resets a finished dance, also by way of the hook for releases. -/
theorem run_release (hcalls : s.calls = []) (hi : i < 256)
    (hfinished : (s.dances i).finished = true) (again : ℕ) :
    ∃ n released calls, (StateMachine.run (TapDance.step c) s
      (.key (td i) again false :: List.replicate n (.next keepsBack))).calls =
        .onReset i released :: calls := by
  have hkey : StateMachine.run (TapDance.step c) s
      [.key (td i) again false, .next keepsBack, .next keepsBack] =
      TapDance.processRecordVial c (td i)
        { s with calls := [.tapDanceRelease (td i)], log := s.log ++ [⟨none, td i, false⟩] } := by
    simp [StateMachine.run, TapDance.step, TapDance.accept, hcalls, State.call, exec,
      preprocessTapDance, State.lookup, Source.owner]
  rcases @processRecordVial_cases c (td i)
    { s with calls := [.tapDanceRelease (td i)], log := s.log ++ [⟨none, td i, false⟩] } with
    hsame | ⟨-, -, hentry | hearly⟩
  · refine ⟨3, true, [], ?_⟩
    change (TapDance.step c (StateMachine.run (TapDance.step c) s
      [.key (td i) again false, .next keepsBack, .next keepsBack]) (.next keepsBack)).calls = _
    rw [hkey, hsame]
    exact step_tapDanceRelease hi rfl hfinished
  · refine ⟨3, true, [], ?_⟩
    change (TapDance.step c (StateMachine.run (TapDance.step c) s
      [.key (td i) again false, .next keepsBack, .next keepsBack]) (.next keepsBack)).calls = _
    rw [hkey, hentry]
    exact step_tapDanceRelease hi rfl hfinished
  · refine ⟨4, false, [.tapDanceRelease (td i)], ?_⟩
    change (StateMachine.run (TapDance.step c) (StateMachine.run (TapDance.step c) s
      [.key (td i) again false, .next keepsBack, .next keepsBack])
        [.next keepsBack, .next keepsBack]).calls = _
    rw [hkey, hearly, getIndex_td hi]
    apply run_onDanceFinished
    · rfl
    · simpa only [State.call, State.modify, State.access, Function.update_self] using hfinished
    · simp only [State.call, State.modify, Function.update_self]

/-- The key of another keycode finishes the active dance. -/
theorem run_interrupt {keycode : ℕ} (hcalls : s.calls = []) (hi : i < 256)
    (hactive : s.activeTd = td i) (hkeycode : keycode ≠ td i) (again : ℕ) :
    ((StateMachine.run (TapDance.step c) s
      [.key keycode again true, .next keepsBack, .next keepsBack]).dances i).finished = true := by
  have hfinish : ∃ t : State, StateMachine.run (TapDance.step c) s
      [.key keycode again true, .next keepsBack, .next keepsBack] =
        exec c keepsBack t (.onDanceFinished i) := by
    have hinterrupt : true = true ∧ s.activeTd ≠ 0 ∧ keycode ≠ s.activeTd := by
      rw [hactive]
      exact ⟨rfl, td_ne_zero i, hkeycode⟩
    have hpress : StateMachine.run (TapDance.step c) s [.key keycode again true, .next keepsBack] =
        preprocessTapDance (.keymap keycode again) keycode true { s with calls := [] } := by
      simp only [StateMachine.run, TapDance.step, TapDance.accept, hcalls, State.call,
        exec, State.lookup, List.append_nil]
    change ∃ t : State, TapDance.step c (StateMachine.run (TapDance.step c) s
      [.key keycode again true, .next keepsBack]) (.next keepsBack) = _
    rw [hpress, preprocessTapDance, if_pos hinterrupt]
    dsimp only
    rw [hactive, getIndex_td hi]
    exact ⟨_, rfl⟩
  rcases hfinish with ⟨t, ht⟩
  rw [ht]
  exact exec_onDanceFinished_finished i t

/-- The task finishes the active dance when its term is over. -/
theorem run_timeout (hcalls : s.calls = []) (hi : i < 256) (hactive : s.activeTd = td i)
    (hinterrupted : (s.dances i).interrupted = false)
    (hterm : getTappingTerm c s (td i) < s.now - s.lastTapTime) :
    ((StateMachine.run (TapDance.step c) s [.task, .next keepsBack]).dances i).finished = true := by
  have hfinish : ∃ t : State, StateMachine.run (TapDance.step c) s [.task, .next keepsBack] =
      exec c keepsBack t (.onDanceFinished i) := by
    have hexpired : ¬ (s.activeTd = 0 ∨
        s.now - s.lastTapTime ≤ getTappingTerm c s s.activeTd) := by
      rw [hactive]
      rintro (hzero | hle)
      · exact td_ne_zero i hzero
      · exact absurd hterm (UInt16.not_lt.mpr hle)
    have hopen : ¬ ((s.access i).dances i).interrupted = true := Bool.eq_false_iff.mp hinterrupted
    have htask : tapDanceTask c s = (s.access i).call [.onDanceFinished i] := by
      rw [tapDanceTask, if_neg hexpired]
      dsimp only
      rw [hactive, getIndex_td hi, if_neg hopen]
    simp only [StateMachine.run, TapDance.step, TapDance.accept, hcalls, htask]
    exact ⟨_, rfl⟩
  rcases hfinish with ⟨t, ht⟩
  rw [ht]
  exact exec_onDanceFinished_finished i t

theorem AllFollowed.watched (h : AllFollowed s) (hremembered : Remembered s)
    (hcalls : s.calls = []) : Watched c s := by
  have hactive : ∀ i, UnderWay (s.dances i) → s.activeTd = td i := by
    intro i hunder
    refine (hremembered i hunder).resolve_right ?_
    rw [hcalls]
    exact List.not_mem_nil
  constructor
  · exact hactive
  · intro i keepsBack hunder hterm
    apply run_timeout hcalls ((h.dances i).index (Or.inl hunder.1)) (hactive i hunder) _ hterm
    by_contra hinterrupted
    rcases (h.dances i).interrupted ((Bool.not_eq_false _).mp hinterrupted) with
      hfinished | hmem
    · exact absurd (hunder.2.symm.trans hfinished) Bool.false_ne_true
    · rw [hcalls] at hmem
      exact absurd hmem List.not_mem_nil
  · intro i keycode again keepsBack hunder hkeycode
    exact run_interrupt hcalls ((h.dances i).index (Or.inl hunder.1)) (hactive i hunder)
      hkeycode again
  · intro i again keepsBack hfinished
    constructor
    · refine ((h.dances i).finished hfinished).resolve_right ?_
      rintro ⟨call, hmem, -⟩
      rw [hcalls] at hmem
      exact absurd hmem List.not_mem_nil
    · exact run_release hcalls ((h.dances i).index (Or.inr hfinished)) hfinished again

/-- Along a run no dance is forgotten if and only if {lit}`active_td` is not overwritten
while it names another dance under way.  Between the calls of such a run the dances are
watched. -/
theorem run_remembered_iff (c : Config) (table : ℕ → Entry) (inputs : List Input) :
    (StateMachine.Along (step c) (fun s input => Remembered (step c s input)) (initial table)
        inputs ↔ StateMachine.Along (step c) KeepsActive (initial table) inputs) ∧
      (StateMachine.Along (step c) KeepsActive (initial table) inputs →
        (StateMachine.run (step c) (initial table) inputs).calls = [] →
          Watched c (StateMachine.run (step c) (initial table) inputs)) := by
  constructor
  · apply StateMachine.along_iff_of_invariant Remembered
    · exact fun s input h => ⟨keepsActive_of_remembered, h.step⟩
    · exact fun s input h hkeep => h.step hkeep
    · exact fun i hi => absurd rfl hi.1
  · intro hkeep hcalls
    refine (allFollowed_run table inputs).watched ?_ hcalls
    exact StateMachine.run_invariant Remembered (fun s input h hkeep => h.step hkeep)
      (fun i hi => absurd rfl hi.1) hkeep

/-- A dance is held, another one is begun, and the release of the first key resets
{lit}`active_td`: the second dance has been counted, its key is down, and no call will finish
it. -/
theorem not_remembered_earlyFinish :
    let c : Config := ⟨2, 200⟩
    let next := Input.next false
    let s := StateMachine.run (step c) (initial fun _ => ⟨4, 5, 0, 0, 200⟩)
      ([.key (td 0) (td 0) true, next, next, next, .time 300, .task, next, next, next,
        .key (td 1) (td 1) true, next, next, next, .key (td 0) (td 0) false] ++
        List.replicate 8 next)
    s.calls = [] ∧ UnderWay (s.dances 1) ∧ s.activeTd ≠ td 1 := by
  decide +kernel

end TapDance
end VialQmk
