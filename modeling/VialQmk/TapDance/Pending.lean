import VialQmk.TapDance.Engine

/-!
# Tap dance - what is still to be done

A dance that is interrupted is about to be finished, and one that is finished is down or
about to be reset.  What is about to happen is among the calls in progress.

Main results:

- Definition {lit}`Followed`: what is known about a dance from the calls in progress.
- Theorem {lit}`AllFollowed.step`: a step keeps this, for all dances.
- Theorem {lit}`allFollowed_run`: it holds in every state of a run.
-/

namespace VialQmk
namespace TapDance

open Function (update)

/-! ## What holds of one dance -/

/-- The dance a call of the engine is about. -/
def Call.dance : Call → Option ℕ
  | .activate i | .onDanceFinished i | .afterFinished i | .onReset i _ | .afterReset i _ => some i
  | _ => none

/-- A call that resets a dance that is up, or leads to one that does. -/
def Resets (i : ℕ) : Call → Prop
  | .onDanceFinished j | .afterFinished j | .onReset j _ | .afterReset j _ => j = i
  | _ => False

/-- What is known about a dance, given the calls in progress. -/
structure Followed (calls : List Call) (i : ℕ) (d : Dance) : Prop where
  interrupted : d.interrupted = true → d.finished = true ∨ .onDanceFinished i ∈ calls
  finished : d.finished = true → d.pressed = true ∨ ∃ call ∈ calls, Resets i call
  index : d.count ≠ 0 ∨ d.finished = true → i < 256

/-- Each dance is followed, and the calls are about the dances there are keycodes for. -/
structure AllFollowed (s : State) : Prop where
  dances : ∀ i, Followed s.calls i (s.dances i)
  calls : ∀ call ∈ s.calls, ∀ i ∈ call.dance, i < 256

variable {c : Config} {keepsBack : Bool} {s : State} {i : ℕ} {calls cs : List Call} {d : Dance}

theorem Resets.dance {call : Call} (h : Resets i call) : call.dance = some i := by
  cases call <;> simp_all [Resets, Call.dance]

theorem Followed.zero : Followed calls i Dance.zero := by
  constructor
  · exact fun h => absurd h Bool.false_ne_true
  · exact fun h => absurd h Bool.false_ne_true
  · rintro (h | h)
    · exact absurd rfl h
    · exact absurd h Bool.false_ne_true

/-- More calls. -/
theorem Followed.mono (h : Followed calls i d) (hsub : calls ⊆ cs) :
    Followed cs i d := by
  constructor
  · exact fun hinterrupted => (h.interrupted hinterrupted).imp_right fun hmem => hsub hmem
  · intro hfinished
    refine (h.finished hfinished).imp_right ?_
    rintro ⟨call, hmem, hresets⟩
    exact ⟨call, hsub hmem, hresets⟩
  · exact h.index

/-- A call about another dance is gone. -/
theorem Followed.tail {call : Call} (h : Followed (call :: calls) i d)
    (hother : call.dance ≠ some i) : Followed calls i d := by
  have hdrop : ∀ {call' : Call}, call' ∈ call :: calls → call'.dance = some i →
      call' ∈ calls := by
    intro call' hmem hdance
    refine (List.mem_cons.mp hmem).resolve_left ?_
    rintro rfl
    exact hother hdance
  constructor
  · exact fun hinterrupted => (h.interrupted hinterrupted).imp_right fun hmem => hdrop hmem rfl
  · intro hfinished
    refine (h.finished hfinished).imp_right ?_
    rintro ⟨call', hmem, hresets⟩
    exact ⟨call', hdrop hmem hresets.dance, hresets⟩
  · exact h.index

/-! ## The calls one by one -/

theorem AllFollowed.call (h : AllFollowed s) (hcs : ∀ call ∈ cs, ∀ i ∈ call.dance, i < 256) :
    AllFollowed (s.call cs) := by
  constructor
  · exact fun i => (h.dances i).mono (List.subset_append_right cs s.calls)
  · intro call hmem
    rcases List.mem_append.mp hmem with hnew | hold
    · exact hcs call hnew
    · exact h.calls call hold

/-- A dance is changed, other calls are put in front, and the rest of the state does not
matter. -/
theorem AllFollowed.change {s' : State} (h : AllFollowed s) (i : ℕ) (f : Dance → Dance)
    (cs : List Call)
    (hdances : s'.dances = update s.dances i (f (s.dances i)))
    (hcalls : s'.calls = cs ++ s.calls)
    (hcs : ∀ call ∈ cs, ∀ i ∈ call.dance, i < 256)
    (hf : Followed (cs ++ s.calls) i (f (s.dances i))) : AllFollowed s' := by
  have hcall := h.call hcs
  constructor
  · intro j
    rw [hdances, hcalls]
    by_cases hj : j = i
    · subst hj
      rw [Function.update_self]
      exact hf
    · rw [Function.update_of_ne hj]
      exact hcall.dances j
  · rw [hcalls]
    exact hcall.calls

/-- A call about no dance is gone. -/
theorem AllFollowed.tail {call : Call} (h : AllFollowed s) (hcalls : s.calls = call :: calls)
    (hnone : call.dance = none) : AllFollowed { s with calls := calls } := by
  constructor
  · intro i
    have hi := h.dances i
    rw [hcalls] at hi
    exact hi.tail (by simp [hnone])
  · intro call' hmem
    apply h.calls
    rw [hcalls]
    exact List.mem_cons_of_mem call hmem

/-- Its calls are those of an index below 256. -/
theorem index_of_cons {call : Call} (h : AllFollowed s) (hcalls : s.calls = call :: calls)
    (hdance : call.dance = some i) : i < 256 := by
  apply h.calls call
  · rw [hcalls]
    exact List.mem_cons_self
  · exact hdance

/-- A call about a dance is executed: the dance is changed, and other calls are put in
front. -/
theorem AllFollowed.exec {s' : State} {call : Call} (h : AllFollowed s)
    (hcalls : s.calls = call :: calls) (hdance : call.dance = some i)
    (hdances : s'.dances = update s.dances i d) (hcalls' : s'.calls = cs ++ calls)
    (hcs : ∀ call ∈ cs, ∀ i ∈ call.dance, i < 256)
    (hd : i < 256 → Followed (cs ++ calls) i d) : AllFollowed s' := by
  constructor
  · intro j
    rw [hdances, hcalls']
    by_cases hj : j = i
    · subst hj
      rw [Function.update_self]
      exact hd (index_of_cons h hcalls hdance)
    · rw [Function.update_of_ne hj]
      have hold := h.dances j
      rw [hcalls] at hold
      have hother : call.dance ≠ some j := by
        rw [hdance]
        exact fun hij => hj (Option.some.inj hij).symm
      exact (hold.tail hother).mono (List.subset_append_right cs calls)
  · intro call' hmem
    rw [hcalls'] at hmem
    rcases List.mem_append.mp hmem with hnew | hold
    · exact hcs call' hnew
    · apply h.calls
      rw [hcalls]
      exact List.mem_cons_of_mem call hold

/-- A finished dance. -/
theorem Followed.of_finished (hi : i < 256) (hfinished : d.finished = true)
    (hreset : d.pressed = true ∨ ∃ call ∈ calls, Resets i call) :
    Followed calls i d := by
  constructor
  · exact fun _ => Or.inl hfinished
  · exact fun _ => hreset
  · exact fun _ => hi

theorem AllFollowed.activate (h : AllFollowed s) (hcalls : s.calls = .activate i :: calls) :
    AllFollowed (TapDance.exec c keepsBack { s with calls := calls } (.activate i)) := by
  have hold := h.dances i
  rw [hcalls] at hold
  apply @AllFollowed.exec s i calls [] (s.dances i) _ _ h hcalls rfl
  · exact (Function.update_eq_self i s.dances).symm
  · rfl
  · exact nofun
  · intro hi
    constructor
    · intro hinterrupted
      exact (hold.interrupted hinterrupted).imp_right fun hmem =>
        List.mem_of_ne_of_mem (by simp) hmem
    · intro hfinished
      refine (hold.finished hfinished).imp_right ?_
      rintro ⟨call, hmem, hresets⟩
      rcases List.mem_cons.mp hmem with rfl | hmem
      · exact absurd hresets id
      · exact ⟨call, hmem, hresets⟩
    · exact fun _ => hi

theorem AllFollowed.onDanceFinished (h : AllFollowed s)
    (hcalls : s.calls = .onDanceFinished i :: calls) :
    AllFollowed (TapDance.exec c keepsBack { s with calls := calls } (.onDanceFinished i)) := by
  by_cases hfinished : (s.dances i).finished = true
  · rw [TapDance.exec, if_pos hfinished]
    apply @AllFollowed.exec s i calls [.afterFinished i] (s.dances i) _ _ h hcalls rfl
    · exact (Function.update_eq_self i s.dances).symm
    · rfl
    · intro call hmem j hj
      rw [List.mem_singleton.mp hmem] at hj
      rw [← Option.some.inj hj]
      exact index_of_cons h hcalls rfl
    · exact fun hi => .of_finished hi hfinished (Or.inr ⟨_, List.mem_cons_self, rfl⟩)
  · have hopen : (({ s with calls := calls } : State).dances i).finished = false :=
      Bool.eq_false_iff.mpr hfinished
    rcases @exec_onDanceFinished c keepsBack i _ hopen with ⟨-, hexec⟩ | ⟨-, hexec⟩
    · rw [hexec]
      apply @AllFollowed.exec s i calls [.afterFinished i]
        { s.dances i with finished := true } _ _ h hcalls rfl
      · rfl
      · rfl
      · intro call hmem j hj
        rw [List.mem_singleton.mp hmem] at hj
        rw [← Option.some.inj hj]
        exact index_of_cons h hcalls rfl
      · exact fun hi => .of_finished hi rfl (Or.inr ⟨_, List.mem_cons_self, rfl⟩)
    · rw [hexec]
      apply @AllFollowed.exec s i calls
        (finishedCalls i (s.table i) (danceStep (s.dances i)) ++ [.afterFinished i])
        { s.dances i with finished := true } _ _ h hcalls rfl
      · rfl
      · rfl
      · intro call hmem j hj
        rcases List.mem_append.mp hmem with hsent | hlast
        · rcases mem_finishedCalls hsent with ⟨keycode, pressed, rfl⟩ | ⟨st, rfl⟩
          · cases hj
          · cases hj
        · rw [List.mem_singleton.mp hlast] at hj
          rw [← Option.some.inj hj]
          exact index_of_cons h hcalls rfl
      · exact fun hi => .of_finished hi rfl (Or.inr ⟨.afterFinished i, by simp, rfl⟩)

theorem AllFollowed.afterFinished (h : AllFollowed s) (hcalls : s.calls = .afterFinished i :: calls) :
    AllFollowed (TapDance.exec c keepsBack { s with calls := calls } (.afterFinished i)) := by
  have hold := h.dances i
  rw [hcalls] at hold
  rw [TapDance.exec]
  dsimp only
  have hinterrupted : (s.dances i).interrupted = true →
      (s.dances i).finished = true ∨ .onDanceFinished i ∈ calls := fun h =>
    (hold.interrupted h).imp_right fun hmem => List.mem_of_ne_of_mem (by simp) hmem
  by_cases hpressed : (s.dances i).pressed = true
  · rw [if_pos hpressed]
    apply @AllFollowed.exec s i calls [] (s.dances i) _ _ h hcalls rfl
    · exact (Function.update_eq_self i s.dances).symm
    · rfl
    · rintro _ ⟨⟩
    · exact fun hi => ⟨hinterrupted, fun _ => Or.inl hpressed, fun _ => hi⟩
  · rw [if_neg hpressed]
    apply @AllFollowed.exec s i calls [.onReset i false] (s.dances i) _ _ h hcalls rfl
    · exact (Function.update_eq_self i s.dances).symm
    · rfl
    · intro call hmem j hj
      rw [List.mem_singleton.mp hmem] at hj
      rw [← Option.some.inj hj]
      exact index_of_cons h hcalls rfl
    · intro hi
      constructor
      · exact fun h => (hinterrupted h).imp_right (List.mem_cons_of_mem _)
      · exact fun _ => Or.inr ⟨_, List.mem_cons_self, rfl⟩
      · exact fun _ => hi

theorem AllFollowed.onReset {released : Bool} (h : AllFollowed s)
    (hcalls : s.calls = .onReset i released :: calls) :
    AllFollowed (TapDance.exec c keepsBack { s with calls := calls } (.onReset i released)) := by
  have hold := h.dances i
  rw [hcalls] at hold
  have hlast : ∀ cs, (∀ call ∈ cs, ∃ keycode, call = .vialKeycode (some i) keycode false) →
      ∀ call ∈ cs ++ [Call.afterReset i released], ∀ j ∈ call.dance, j < 256 := by
    intro cs hcs call hmem j hj
    rcases List.mem_append.mp hmem with hsent | hlast
    · rcases hcs call hsent with ⟨keycode, rfl⟩
      exact absurd hj nofun
    · rw [List.mem_singleton.mp hlast] at hj
      rw [← Option.some.inj hj]
      exact index_of_cons h hcalls rfl
  have hinterrupted : ∀ cs, (s.dances i).interrupted = true →
      (s.dances i).finished = true ∨ .onDanceFinished i ∈ cs ++ calls := fun cs h =>
    (hold.interrupted h).imp_right fun hmem =>
      List.mem_append_right cs (List.mem_of_ne_of_mem (by simp) hmem)
  rcases @exec_onReset c keepsBack i released { s with calls := calls } with ⟨-, hexec⟩ | ⟨-, hexec⟩
  · rw [hexec]
    apply @AllFollowed.exec s i calls [.afterReset i released] (s.dances i) _ _ h hcalls rfl
    · exact (Function.update_eq_self i s.dances).symm
    · rfl
    · exact hlast [] nofun
    · intro hi
      constructor
      · exact hinterrupted [.afterReset i released]
      · exact fun _ => Or.inr ⟨_, List.mem_cons_self, rfl⟩
      · exact fun _ => hi
  · rw [hexec]
    apply @AllFollowed.exec s i calls
      (resetCalls i (s.table i) (s.danceState i) ++ [.afterReset i released])
      { s.dances i with count := 0 } _ _ h hcalls rfl
    · rfl
    · rfl
    · exact hlast _ fun call hmem => mem_resetCalls hmem
    · intro hi
      constructor
      · exact hinterrupted _
      · exact fun _ => Or.inr ⟨.afterReset i released, by simp, rfl⟩
      · exact fun _ => hi

theorem AllFollowed.afterReset {released : Bool} (h : AllFollowed s)
    (hcalls : s.calls = .afterReset i released :: calls) :
    AllFollowed (TapDance.exec c keepsBack { s with calls := calls } (.afterReset i released)) := by
  simp only [TapDance.exec]
  split_ifs with hactive
  · apply @AllFollowed.exec s i calls [] Dance.zero _ _ h hcalls rfl
    · rfl
    · rfl
    · rintro _ ⟨⟩
    · exact fun _ => .zero
  · apply @AllFollowed.exec s i calls [] Dance.zero _ _ h hcalls rfl
    · rfl
    · rfl
    · rintro _ ⟨⟩
    · exact fun _ => .zero

/-! ## The other calls -/

/-- What does not count, finish or release leaves a dance followed. -/
theorem AllFollowed.preprocess (h : AllFollowed s) (src : Source) (keycode : ℕ)
    (pressed : Bool) : AllFollowed (preprocessTapDance src keycode pressed s) := by
  unfold preprocessTapDance
  by_cases hinterrupt : pressed ∧ s.activeTd ≠ 0 ∧ keycode ≠ s.activeTd
  · rw [if_pos hinterrupt]
    refine h.change (getIndex s.activeTd)
      (fun d => { d with interrupted := true, interruptingKeycode := keycode })
      [.onDanceFinished (getIndex s.activeTd), .lookAgain src pressed] rfl rfl ?_ ?_
    · simp [Call.dance, getIndex_lt]
    · have hold := (h.dances (getIndex s.activeTd)).mono (List.subset_append_right
        [.onDanceFinished (getIndex s.activeTd), .lookAgain src pressed] s.calls)
      exact ⟨fun _ => Or.inr List.mem_cons_self, hold.finished, hold.index⟩
  · rw [if_neg hinterrupt]
    exact h.call (by simp [Call.dance])

theorem AllFollowed.processRecordVial (h : AllFollowed s) (keycode : ℕ) :
    AllFollowed (processRecordVial c keycode s) := by
  rcases processRecordVial_cases (c := c) keycode s with hsame | ⟨htd, hlt, hentry | hearly⟩
  · rw [hsame]
    exact h
  · rw [hentry]
    exact ⟨h.dances, h.calls⟩
  · rw [hearly]
    refine h.change (getIndex keycode) (fun d => { d with pressed := false })
      [.onDanceFinished (getIndex keycode)] rfl rfl ?_ ?_
    · simp [Call.dance, getIndex_lt]
    · have hold := (h.dances (getIndex keycode)).mono (List.subset_append_right
        [.onDanceFinished (getIndex keycode)] s.calls)
      exact ⟨hold.interrupted,
        fun _ => Or.inr ⟨_, List.mem_cons_self, rfl⟩, hold.index⟩

theorem AllFollowed.processTapDance (h : AllFollowed s) (keycode : ℕ) :
    AllFollowed (processTapDance c keycode s) := by
  rcases processTapDance_cases (c := c) keycode s with ⟨-, hsame⟩ | ⟨htd, k, entry, htaps⟩
  · rw [hsame]
    exact h
  · rw [htaps]
    refine h.change (getIndex keycode)
      (fun d => { d with pressed := true, count := d.count + 1 }) _ rfl rfl ?_ ?_
    · intro call hmem j hj
      rcases List.mem_append.mp hmem with htap | hlast
      · rcases mem_taps htap with ⟨pressed, rfl⟩
        exact absurd hj nofun
      · rw [List.mem_singleton.mp hlast] at hj
        rw [← Option.some.inj hj]
        exact getIndex_lt keycode
    · constructor
      · exact fun hinterrupted => ((h.dances _).interrupted hinterrupted).imp_right
          (List.mem_append_right _)
      · exact fun _ => Or.inl rfl
      · exact fun _ => getIndex_lt keycode

/-- The key of a finished dance resets it when it goes up. -/
theorem AllFollowed.processTapDanceRelease (h : AllFollowed s) (keycode : ℕ) :
    AllFollowed (processTapDanceRelease keycode s) := by
  unfold TapDance.processTapDanceRelease
  split_ifs with htd
  · dsimp only
    split_ifs with hfinished
    · refine h.change (getIndex keycode) (fun d => { d with pressed := false })
        [.onReset (getIndex keycode) true] rfl rfl ?_ ?_
      · simp [Call.dance, getIndex_lt]
      · have hold := (h.dances (getIndex keycode)).mono (List.subset_append_right
          [.onReset (getIndex keycode) true] s.calls)
        exact ⟨hold.interrupted,
          fun _ => Or.inr ⟨_, List.mem_cons_self, rfl⟩, hold.index⟩
    · refine h.change (getIndex keycode) (fun d => { d with pressed := false }) []
        rfl rfl ?_ ?_
      · exact nofun
      · have hold := h.dances (getIndex keycode)
        refine ⟨hold.interrupted, fun hfinished' => ?_, hold.index⟩
        simp only [State.modify, Function.update_self] at hfinished
        exact absurd hfinished' hfinished
  · exact h

theorem AllFollowed.vialKeycode (h : AllFollowed s) (keepsBack : Bool) (owner : Option ℕ)
    (keycode : ℕ) (pressed : Bool) :
    AllFollowed (vialKeycode keepsBack owner keycode pressed s) := by
  unfold TapDance.vialKeycode
  dsimp only
  split_ifs
  · exact ⟨h.dances, h.calls⟩
  · exact ⟨h.dances, h.calls⟩
  · apply AllFollowed.call
    · exact ⟨h.dances, h.calls⟩
    · simp [Call.dance]

/-! ## Runs -/

theorem AllFollowed.accept (h : AllFollowed s) (input : Input) :
    AllFollowed (accept c s input) := by
  cases input with
  | next keepsBack => exact h
  | key keycode again pressed => exact h.call (by simp [Call.dance])
  | send keycode pressed => exact h.call (by simp [Call.dance])
  | tapped =>
    cases hwaiting : s.waiting with
    | nil => simpa only [TapDance.accept, hwaiting] using h
    | cons e waiting =>
      simp only [TapDance.accept, hwaiting]
      apply AllFollowed.call
      · exact ⟨h.dances, h.calls⟩
      · simp [Call.dance]
  | unlock inProgress => exact ⟨h.dances, h.calls⟩
  | task =>
    simp only [TapDance.accept, tapDanceTask]
    split_ifs
    · exact h
    · exact ⟨h.dances, h.calls⟩
    · apply AllFollowed.call
      · exact ⟨h.dances, h.calls⟩
      · simp [Call.dance, getIndex_lt]
  | time now => exact ⟨h.dances, h.calls⟩
  | edit i entry =>
    simp only [TapDance.accept]
    split_ifs
    · exact ⟨h.dances, h.calls⟩
    · exact h

theorem AllFollowed.step (h : AllFollowed s) {input : Input} : AllFollowed (step c s input) := by
  unfold TapDance.step
  cases hcalls : s.calls with
  | nil => exact h.accept input
  | cons call calls =>
    dsimp only
    cases call with
    | processRecord src pressed => exact (h.tail hcalls rfl).preprocess src _ pressed
    | lookAgain src pressed => exact (h.tail hcalls rfl).call (by simp [Call.dance])
    | processKeycode owner keycode pressed =>
      have htail := h.tail hcalls rfl
      simp only [TapDance.exec]
      cases pressed with
      | true =>
        apply AllFollowed.processTapDance
        exact ⟨htail.dances, htail.calls⟩
      | false =>
        apply AllFollowed.processRecordVial
        apply AllFollowed.call
        · exact ⟨htail.dances, htail.calls⟩
        · simp [Call.dance]
    | tapDanceRelease keycode => exact (h.tail hcalls rfl).processTapDanceRelease keycode
    | activate i => exact h.activate hcalls
    | onDanceFinished i => exact h.onDanceFinished hcalls
    | afterFinished i => exact h.afterFinished hcalls
    | onReset i released => exact h.onReset hcalls
    | afterReset i released => exact h.afterReset hcalls
    | afterTap st i => exact (h.tail hcalls rfl).call (by simp [Call.dance])
    | vialKeycode owner keycode pressed =>
      exact (h.tail hcalls rfl).vialKeycode _ owner keycode pressed

theorem allFollowed_initial (table : ℕ → Entry) : AllFollowed (initial table) :=
  ⟨fun _ => .zero, nofun⟩

/-- In every state of a run each dance is followed. -/
theorem allFollowed_run (table : ℕ → Entry) (inputs : List Input) :
    AllFollowed (StateMachine.run (step c) (initial table) inputs) :=
  StateMachine.run_invariant AllFollowed (fun _ _ h _ => h.step) (allFollowed_initial table)
    (StateMachine.along_trivial _ inputs)

end TapDance
end VialQmk
