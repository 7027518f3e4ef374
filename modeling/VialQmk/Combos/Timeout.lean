import VialQmk.Combos.Engine
import Mathlib.Data.List.Basic

/-!
# Combos - the timeout

Keys are withheld until the combo timer runs out.  The timer is also off when its word is
0, and the timeout looks at it only while combos are enabled.

Main results:

- Definition {lit}`Fine`: what must hold when a key press is withheld.
- Definition {lit}`TimesOut`: the timer runs while keys are withheld, and the next call of
  {lit}`combo_task` after the term dumps them.
- Theorem {lit}`timesOut`: if all presses that were withheld are fine, the keys time out.
-/

namespace VialQmk
namespace Combos

open Machine

/-! ## The property -/

/-- When the last press that is in the buffer, or was, came. -/
def lastBuffered : List Note → Option ℕ
  | [] => none
  | .withheld time _ true _ :: _ => some time
  | _ :: trace => lastBuffered trace

def Note.isWithheld : Note → Bool
  | .withheld _ _ _ _ => true
  | _ => false

/-- A press was withheld while combos were enabled, and it set the timer to something else
than 0 and found room in the buffer, unless a strict timer was running. -/
def Note.Fine (build : Build) : Note → Prop
  | .withheld time enabled room timer => enabled = true ∧
      ((build.strictTimer = true ∧ timer ≠ 0) ∨ (room = true ∧ UInt16.ofNat time ≠ 0))
  | _ => True

instance (build : Build) : DecidablePred (Note.Fine build)
  | .withheld _ _ _ _ => inferInstanceAs (Decidable (_ ∧ _))
  | .fullyPressed _ | .expired _ | .queued _ _ | .pressedAgain _ | .dropped _ | .tapOnly _
  | .activated _ | .applying | .applied | .dumping | .dumped _ | .turnedOff | .off _ =>
    inferInstanceAs (Decidable True)

/-- All presses that were withheld are fine. -/
def Fine (build : Build) (trace : List Note) : Prop :=
  ∀ n ∈ trace, n.Fine build

/-- Between two calls the timer runs if keys are withheld, and a call of
{lit}`combo_task` more than the term after the last of them empties the buffer, whatever
is done before it returns.  A strict timer must not have been set too long ago. -/
def TimesOut (build : Build) (m : Machine Emission Engine) : Prop :=
  m.stack = [] → m.state.keyBuffer ≠ [] → m.state.timer ≠ 0 ∧
    ∀ time, lastBuffered m.state.trace = some time →
      m.state.longestTerm.toNat < m.state.clock - time → m.state.clock - time < 2 ^ 16 →
        (build.strictTimer = true → m.state.clock - m.state.stamp < 2 ^ 16) →
          ∀ inputs,
            StateMachine.Along (step (program build))
              (fun m' _ => m.stack.length < m'.stack.length)
              (step (program build) m (.start .task)) inputs →
            (StateMachine.run (step (program build)) (step (program build) m (.start .task))
              inputs).stack.length = m.stack.length →
            (StateMachine.run (step (program build)) (step (program build) m (.start .task))
              inputs).state.keyBuffer = []

/-! ## Invariants -/

/-- The timer is off, or shows when it was set. -/
def Stamped (s : Engine) : Prop :=
  s.timer ≠ 0 → s.timer = UInt16.ofNat s.stamp ∧ s.stamp ≤ s.clock

/-- While keys are withheld the timer runs, from the last press on, or from an earlier one
if it is strict. -/
def Armed (build : Build) (s : Engine) : Prop :=
  Fine build s.trace → s.keyBuffer ≠ [] → s.enabled = true ∧ s.timer ≠ 0 ∧
    ∃ time, lastBuffered s.trace = some time ∧ s.stamp ≤ time ∧
      (build.strictTimer = false → s.stamp = time)

/-- Nothing that matters for the timeout changes. -/
structure Quiet (build : Build) (s s' : Engine) : Prop where
  enabled : s'.enabled = s.enabled
  timer : s'.timer = s.timer
  stamp : s'.stamp = s.stamp
  clock : s'.clock = s.clock
  empty : s.keyBuffer = [] → s'.keyBuffer = []
  last : lastBuffered s'.trace = lastBuffered s.trace
  fine : Fine build s'.trace → Fine build s.trace

section Quiet

variable {build : Build} {s s' s'' : Engine}

theorem Quiet.refl (build : Build) (s : Engine) : Quiet build s s :=
  ⟨rfl, rfl, rfl, rfl, id, rfl, id⟩

theorem Quiet.trans (h : Quiet build s s') (h' : Quiet build s' s'') : Quiet build s s'' where
  enabled := h'.enabled.trans h.enabled
  timer := h'.timer.trans h.timer
  stamp := h'.stamp.trans h.stamp
  clock := h'.clock.trans h.clock
  empty := h'.empty ∘ h.empty
  last := h'.last.trans h.last
  fine := h.fine ∘ h'.fine

theorem quiet_note (s : Engine) (n : Note) (h : n.isWithheld = false) :
    Quiet build s (s.note n) where
  enabled := rfl
  timer := rfl
  stamp := rfl
  clock := rfl
  empty := id
  last := by
    cases n with
    | withheld time enabled room timer => exact absurd h nofun
    | _ => rfl
  fine := fun hfine n' hn' => hfine n' (List.mem_cons_of_mem _ hn')

theorem quiet_modifyCombo (comboIndex : ℕ) (f : Combo → Combo) (s : Engine) :
    Quiet build s (s.modifyCombo comboIndex f) :=
  ⟨rfl, rfl, rfl, rfl, id, rfl, id⟩

theorem quiet_ring (s : Engine) (comboBuffer : List ℕ) (read write : ℕ) (longestTerm : UInt16) :
    Quiet build s
      { s with
        comboBuffer := comboBuffer
        comboBufferRead := read
        comboBufferWrite := write
        longestTerm := longestTerm } :=
  ⟨rfl, rfl, rfl, rfl, id, rfl, id⟩

theorem quiet_clearCombos (s : Engine) : Quiet build s (clearCombos s) :=
  ⟨rfl, rfl, rfl, rfl, id, rfl, id⟩

theorem quiet_dropComboLoop (comboIndex n i : ℕ) (s : Engine) :
    Quiet build s (dropComboLoop build comboIndex n i s) := by
  induction n generalizing i with
  | zero => exact Quiet.refl build s
  | succ n ih =>
    unfold dropComboLoop
    dsimp only
    split_ifs
    · exact (quiet_modifyCombo comboIndex _ s).trans (quiet_ring _ _ _ _ _)
    · exact quiet_modifyCombo comboIndex _ s
    · exact ih _
    · exact Quiet.refl build s

theorem applyComboLoop_nil (comboIndex : ℕ) (combo : Combo) (state : ℕ) :
    applyComboLoop build comboIndex combo state [] = ([], false) := by
  simp [applyComboLoop]

theorem quiet_applyCombo (comboIndex : ℕ) (s : Engine) :
    Quiet build s (applyCombo build comboIndex s) := by
  unfold applyCombo
  split
  · exact Quiet.refl build s
  · rename_i combo _
    split_ifs
    · exact Quiet.refl build s
    · have hbuffer : Quiet build s
          { s with keyBuffer := (applyComboLoop build comboIndex combo 0 s.keyBuffer).1 } :=
        ⟨rfl, rfl, rfl, rfl, fun h => by simp [h, applyComboLoop_nil], rfl, id⟩
      refine Quiet.trans (hbuffer.trans ?_) (quiet_dropComboLoop comboIndex _ _ _)
      split_ifs
      · exact (quiet_modifyCombo comboIndex _ _).trans (quiet_note _ _ rfl)
      · exact Quiet.refl build _

theorem quiet_applyCombosLoop (n i : ℕ) (s : Engine) :
    Quiet build s (applyCombosLoop build n i s) := by
  induction n generalizing i s with
  | zero => exact Quiet.refl build s
  | succ n ih =>
    unfold applyCombosLoop
    split_ifs
    · split
      · exact Quiet.refl build s
      · refine Quiet.trans ?_ (ih _ _)
        split
        · exact Quiet.refl build s
        · split_ifs
          · exact (quiet_note s (.tapOnly _) rfl).trans (quiet_dropComboLoop _ _ _ _)
          · exact quiet_applyCombo _ s
    · exact Quiet.refl build s

theorem quiet_overlapLoop (comboIndex n i : ℕ) (drop : Option ℕ) (s : Engine) :
    Quiet build s (overlapLoop build comboIndex n i drop s).1 := by
  induction n generalizing i drop s with
  | zero => exact Quiet.refl build s
  | succ n ih =>
    unfold overlapLoop
    split_ifs
    · split
      · exact Quiet.refl build s
      · split
        · exact ih _ _ s
        · dsimp only
          split_ifs
          · exact quiet_modifyCombo _ _ s
          · exact ((quiet_modifyCombo _ _ s).trans (quiet_ring _ _ _ _ _)).trans (ih _ _ _)
          · exact (quiet_modifyCombo _ _ s).trans (ih _ _ _)
    · exact Quiet.refl build s

theorem quiet_pushCombo (comboIndex : ℕ) (combo : Combo) (s : Engine) :
    Quiet build s (pushCombo build comboIndex combo s) :=
  (quiet_note s (.queued comboIndex _) rfl).trans (quiet_ring _ _ _ _ _)

theorem quiet_queueCombo (comboIndex : ℕ) (combo : Combo) (s : Engine) :
    Quiet build s (queueCombo build comboIndex combo s) := by
  unfold queueCombo
  have hnote : Quiet build s (s.note (.fullyPressed comboIndex)) := quiet_note s _ rfl
  have hloop := hnote.trans
    (quiet_overlapLoop comboIndex build.comboBufferLength s.comboBufferRead none _)
  dsimp only
  split_ifs
  · exact hloop.trans (quiet_pushCombo comboIndex combo _)
  · exact hloop

theorem quiet_setKeyDown (comboIndex state : ℕ) (s : Engine) :
    Quiet build s (setKeyDown comboIndex state s) :=
  ⟨rfl, rfl, rfl, rfl, id, rfl, id⟩

theorem quiet_pressCombo (comboIndex : ℕ) (combo : Combo) (keyIndex : ℕ) (s : Engine) :
    Quiet build s (pressCombo build comboIndex combo keyIndex s) := by
  have hdown (state : ℕ) :
      Quiet build s (if combo.active then s else setKeyDown comboIndex state s) := by
    split_ifs
    · exact Quiet.refl build s
    · exact quiet_setKeyDown comboIndex state s
  unfold pressCombo
  dsimp only
  generalize (if combo.active = true then combo.state else _) = state
  have hs := hdown state
  generalize (if combo.active = true then s else setKeyDown comboIndex state s) = s' at hs ⊢
  split_ifs
  · exact hs.trans ((quiet_note s' _ rfl).trans (quiet_modifyCombo _ _ _))
  · exact hs.trans (quiet_queueCombo _ _ s')
  · exact hs

end Quiet

/-! ## Programs keep them -/

section Programs

open Program Resumption

/-- Invariants that the parts of the programs keep. -/
structure Kept (build : Build) (I : Engine → Prop) : Prop where
  quiet : ∀ {s s' : Engine}, Quiet build s s' → I s → I s'
  empty : ∀ {s : Engine}, s.keyBuffer = [] → I s
  buffer : ∀ {s : Engine} (keycode : UInt16) (record : ComboRecord), Stamped s → I s →
    I (bufferKey build keycode record s)
  enable : ∀ {s : Engine}, I s → I (comboEnable s)
  wait : ∀ {s : Engine} (ms : ℕ), I s → I { s with clock := s.clock + ms }

/-- Both invariants. -/
def Good (I : Engine → Prop) (s : Engine) : Prop :=
  Stamped s ∧ I s

variable {build : Build} {I : Engine → Prop} {s s' : Engine}

theorem Stamped.quiet (h : Stamped s) (hq : Quiet build s s') : Stamped s' := by
  intro htimer
  rw [hq.timer, hq.stamp, hq.clock] at *
  exact h htimer

theorem stamped_of_timer (h : s.timer = 0) : Stamped s :=
  fun hne => absurd h hne

theorem stamped_bufferKey (h : Stamped s) (keycode : UInt16) (record : ComboRecord) :
    Stamped (bufferKey build keycode record s) := by
  intro _
  unfold bufferKey
  dsimp only
  split_ifs with hrunning
  · exact h (of_decide_eq_true hrunning).2
  · exact ⟨rfl, Nat.le_refl _⟩

theorem Good.quiet (hI : Kept build I) (h : Good I s) (hq : Quiet build s s') : Good I s' :=
  ⟨h.1.quiet hq, hI.quiet hq h.2⟩

variable (hI : Kept build I)
include hI

theorem safe_releaseCombo (h : Good I s) (comboIndex : ℕ) (combo : Combo) :
    (releaseCombo comboIndex combo s).Safe Stamped I fun s' _ => Good I s' := by
  simp only [releaseCombo, bind_apply, get_apply, Resumption.bind_done, emit_apply,
    Resumption.bind, modify_apply]
  exact ⟨h.1, Or.inl ⟨h.2, fun s' hs' hI' =>
    Good.quiet hI ⟨hs', hI'⟩ (quiet_modifyCombo comboIndex _ s')⟩⟩

omit hI in
theorem safe_dumpLoop (h : Stamped s) (n i : ℕ) :
    (dumpLoop n i s).Safe Stamped I fun s' _ => Stamped s' := by
  induction n generalizing i s with
  | zero => exact h
  | succ n ih =>
    simp only [dumpLoop, bind_apply, get_apply, Resumption.bind_done]
    cases s.keyBuffer[i]? with
    | none => exact h
    | some q =>
      simp only [bind_apply, modify_apply, Resumption.bind_done]
      have hnext : Stamped { s with keyBufferNext := i + 1 } := h
      split_ifs
      · exact ih hnext _
      · refine ⟨hnext, Or.inr fun s' hs' => ?_⟩
        have hticked : Stamped
            { s' with keyBuffer := s'.keyBuffer.modify i QueuedRecord.tick } := hs'
        exact ih hticked _

omit hI in
theorem safe_dumpKeyBuffer (h : Stamped s) :
    (dumpKeyBuffer build s).Safe Stamped I fun s' _ => Stamped s' ∧ s'.keyBuffer = [] := by
  simp only [dumpKeyBuffer, bind_apply, get_apply, Resumption.bind_done]
  split_ifs with hempty
  · exact ⟨h, hempty⟩
  · simp only [bind_apply, modify_apply, Resumption.bind_done]
    have hnote : Quiet build s (s.note .dumping) := quiet_note s _ rfl
    have hs := h.quiet hnote
    refine Safe.bind (safe_dumpLoop hs _ _) fun s' _ hs' => ?_
    exact ⟨hs', rfl⟩

omit hI in
theorem safe_applyCombos (h : Stamped s) :
    (applyCombos build s).Safe Stamped I fun s' _ => Stamped s' ∧ s'.keyBuffer = [] := by
  simp only [applyCombos, bind_apply, modify_apply, Resumption.bind_done]
  have hnote : Quiet build s (s.note .applying) := quiet_note s _ rfl
  have hs := (hnote.trans
    (quiet_applyCombosLoop build.comboBufferLength s.comboBufferRead _)).trans
    (quiet_note _ .applied rfl)
  refine Safe.bind (safe_dumpKeyBuffer (h.quiet hs)) fun s' _ hs' => ?_
  have hclear : Quiet build s' (clearCombos s') := quiet_clearCombos s'
  exact ⟨hs'.1.quiet hclear, hs'.2⟩

theorem safe_releaseIfAsked (h : Good I s) (comboIndex : ℕ) (combo : Combo) (keyIndex : ℕ)
    (keycode : UInt16) :
    (releaseIfAsked build comboIndex combo keyIndex keycode s).Safe Stamped I
      fun s' _ => Good I s' := by
  unfold releaseIfAsked
  split_ifs
  · exact safe_releaseCombo hI h _ _
  · exact h

theorem safe_releaseChord (h : Good I s) (comboIndex : ℕ) (combo : Combo) (keyIndex : ℕ)
    (keycode : UInt16) (partOfCombo : Bool) :
    (releaseChord build comboIndex combo keyIndex keycode partOfCombo s).Safe Stamped I
      fun s' _ => Good I s' := by
  unfold releaseChord
  split_ifs
  · simp only [bind_apply, modify_apply, Resumption.bind_done]
    exact (h.quiet hI (quiet_note s _ rfl)).quiet hI (quiet_dropComboLoop _ _ _ _)
  · simp only [bind_apply, modify_apply, Resumption.bind_done]
    have hs := h.quiet hI (quiet_applyCombo comboIndex s)
    refine Safe.bind (safe_applyCombos hs.1) fun s' _ hs' => ?_
    have hgood : Good I s' := ⟨hs'.1, hI.empty hs'.2⟩
    exact Safe.bind (safe_releaseIfAsked hI hgood _ _ _ _) fun _ _ hs' => hs'
  · exact h
  · exact Safe.bind (safe_releaseCombo hI h _ _) fun _ _ hs' => hs'
  · exact Safe.bind (safe_releaseIfAsked hI h _ _ _ _) fun _ _ hs' => hs'
  · exact h

theorem safe_processSingleCombo (h : Good I s) (comboIndex : ℕ) (keycode : UInt16)
    (record : ComboRecord) :
    (processSingleCombo build comboIndex keycode record s).Safe Stamped I
      fun s' _ => Good I s' := by
  simp only [processSingleCombo, bind_apply, get_apply, Resumption.bind_done]
  cases s.combos[comboIndex]? with
  | none => exact h
  | some combo =>
    dsimp only
    cases findKeyIndex combo.keys keycode with
    | none => exact h
    | some keyIndex =>
      dsimp only
      split_ifs
      · exact h.quiet hI (quiet_pressCombo _ _ _ s)
      · have hs : Good I (notePressedAgain comboIndex combo keyIndex record s) := by
          unfold notePressedAgain
          split_ifs
          · exact h.quiet hI (quiet_note s _ rfl)
          · exact h
        simp only [bind_apply, modify_apply, Resumption.bind_done]
        refine Safe.bind (safe_releaseChord hI hs _ _ _ _ _) fun s' _ hs' => ?_
        exact hs'.quiet hI (quiet_modifyCombo comboIndex _ s')

theorem safe_comboLoop (h : Good I s) (keycode : UInt16) (record : ComboRecord)
    (indices : List ℕ) (isComboKey : Bool) :
    (comboLoop build keycode record indices isComboKey s).Safe Stamped I
      fun s' _ => Good I s' := by
  induction indices generalizing isComboKey s with
  | nil => exact h
  | cons comboIndex rest ih =>
    exact Safe.bind (safe_processSingleCombo hI h _ _ _) fun s' _ hs' => ih hs' _

theorem safe_flush (h : Stamped s) : (flush build s).Safe Stamped I fun s' _ => Good I s' := by
  simp only [flush, bind_apply, get_apply, Resumption.bind_done]
  split_ifs
  · exact Safe.mono (safe_applyCombos h) fun _ _ hs' => ⟨hs'.1, hI.empty hs'.2⟩
  · refine Safe.bind (safe_dumpKeyBuffer h) fun s' _ hs' => ?_
    exact Good.quiet (s := { s' with timer := 0 }) hI ⟨stamped_of_timer rfl, hI.empty hs'.2⟩
      (quiet_clearCombos _)

theorem safe_comboDisable (s : Engine) :
    (comboDisable build s).Safe Stamped I fun s' _ => Good I s' := by
  simp only [comboDisable, bind_apply, modify_apply, Resumption.bind_done]
  refine Safe.bind (safe_dumpKeyBuffer (stamped_of_timer rfl)) fun s' _ hs' => ?_
  exact Good.quiet hI ⟨hs'.1, hI.empty hs'.2⟩ (quiet_note s' _ rfl)

theorem safe_comboToggle (h : Good I s) :
    (comboToggle build s).Safe Stamped I fun s' _ => Good I s' := by
  simp only [comboToggle, bind_apply, get_apply, Resumption.bind_done]
  split_ifs
  · exact safe_comboDisable hI s
  · exact ⟨h.1, hI.enable h.2⟩

theorem safe_processCombo (h : Good I s) (keycode refKeycode : UInt16) (record : ComboRecord) :
    (processCombo build keycode refKeycode record s).Safe Stamped I fun s' _ => Good I s' := by
  unfold processCombo
  split_ifs
  · exact ⟨h.1, hI.enable h.2⟩
  · exact Safe.bind (safe_comboDisable hI s) fun _ _ hs' => hs'
  · exact Safe.bind (safe_comboToggle hI h) fun _ _ hs' => hs'
  · simp only [bind_apply, get_apply, Resumption.bind_done]
    refine Safe.bind (safe_comboLoop hI h _ _ _ _) fun s' isComboKey hs' => ?_
    split_ifs
    · exact ⟨stamped_bufferKey hs'.1 _ _, hI.buffer _ _ hs'.1 hs'.2⟩
    · exact Safe.bind (safe_flush hI hs'.1) fun _ _ hs'' => hs''

theorem safe_comboTask (h : Good I s) :
    (comboTask build s).Safe Stamped I fun s' _ => Good I s' := by
  simp only [comboTask, bind_apply, get_apply, Resumption.bind_done]
  split_ifs
  · refine Safe.bind (safe_applyCombos h.1) fun s' _ hs' => ?_
    exact ⟨stamped_of_timer rfl, hI.empty hs'.2⟩
  · refine Safe.bind (safe_dumpKeyBuffer h.1) fun s' _ hs' => ?_
    exact Good.quiet (s := { s' with timer := 0 }) hI ⟨stamped_of_timer rfl, hI.empty hs'.2⟩
      (quiet_clearCombos _)
  · exact h
  · exact h

/-- Every call keeps the invariants. -/
theorem safe_program (h : Good I s) (call : Call) :
    (program build call s).Safe Stamped I fun s' _ => Good I s' := by
  cases call with
  | key keycode refKeycode record =>
    exact Safe.bind (safe_processCombo hI h _ _ _) fun _ _ hs' => hs'
  | task => exact safe_comboTask hI h
  | enable => exact ⟨h.1, hI.enable h.2⟩
  | disable => exact safe_comboDisable hI s
  | toggle => exact safe_comboToggle hI h
  | reload combos => exact h.quiet hI ⟨rfl, rfl, rfl, rfl, id, rfl, id⟩
  | setTerm comboTerm => exact h.quiet hI ⟨rfl, rfl, rfl, rfl, id, rfl, id⟩
  | wait ms =>
    exact ⟨fun ht => ⟨(h.1 ht).1, Nat.le_add_right_of_le (h.1 ht).2⟩, hI.wait ms h.2⟩

end Programs

theorem kept_true (build : Build) : Kept build fun _ => True where
  quiet := fun _ _ => trivial
  empty := fun _ => trivial
  buffer := fun _ _ _ _ => trivial
  enable := fun _ => trivial
  wait := fun _ _ => trivial

/-- The timer keeps running as long as all presses that are withheld are fine. -/
theorem kept_armed (build : Build) : Kept build (Armed build) where
  quiet := by
    intro s s' hq h hfine hne
    obtain ⟨henabled, htimer, time, hlast, hstamp⟩ :=
      h (hq.fine hfine) fun hempty => hne (hq.empty hempty)
    rw [hq.enabled, hq.timer, hq.stamp, hq.last]
    exact ⟨henabled, htimer, time, hlast, hstamp⟩
  empty := fun hempty _ hne => absurd hempty hne
  buffer := by
    intro s keycode record hstamped h hfine hne
    have hold : Fine build s.trace := fun n hn => hfine n (List.mem_cons_of_mem _ hn)
    obtain ⟨henabled, hcases⟩ := hfine _ List.mem_cons_self
    refine ⟨henabled, ?_⟩
    unfold bufferKey at hne ⊢
    dsimp only [Engine.note] at hne ⊢
    by_cases hrunning : build.strictTimer = true ∧ s.timer ≠ 0
    · simp only [hrunning, ne_eq, not_false_eq_true, and_self, decide_true, if_true]
      refine ⟨trivial, ?_⟩
      by_cases hroom : s.keyBuffer.length < build.keyBufferLength
      · exact ⟨s.clock, by simp [lastBuffered, hroom], (hstamped hrunning.2).2, nofun⟩
      · rw [if_neg (by simpa using hroom)] at hne
        obtain ⟨_, _, time, hlast, hstamp, _⟩ := h hold hne
        exact ⟨time, by simpa [lastBuffered, hroom] using hlast, hstamp, nofun⟩
    · obtain ⟨hroom, htime⟩ := hcases.resolve_left hrunning
      simp only [hrunning, decide_false, Bool.false_eq_true, if_false]
      exact ⟨htime, s.clock, by simp [lastBuffered, of_decide_eq_true hroom], Nat.le_refl _,
        fun _ => rfl⟩
  enable := by
    intro s h hfine hne
    obtain ⟨_, hrest⟩ := h hfine hne
    exact ⟨rfl, hrest⟩
  wait := fun _ h => h

/-! ## The timeout -/

section Timeout

open Program Resumption

variable {build : Build} {s : Engine}

theorem ends_dumpKeyBuffer (s : Engine) :
    (dumpKeyBuffer build s).Ends fun s' _ => s'.keyBuffer = [] := by
  simp only [dumpKeyBuffer, bind_apply, get_apply, Resumption.bind_done]
  split_ifs with hempty
  · exact hempty
  · simp only [bind_apply, modify_apply, Resumption.bind_done]
    exact Ends.bind (Q := fun _ _ => True) (ends_trivial _) fun _ _ _ => rfl

theorem ends_applyCombos (s : Engine) :
    (applyCombos build s).Ends fun s' _ => s'.keyBuffer = [] := by
  simp only [applyCombos, bind_apply, modify_apply, Resumption.bind_done]
  exact Ends.bind (ends_dumpKeyBuffer _) fun _ _ hs' => hs'

/-- The timer has run out. -/
theorem ends_comboTask (henabled : s.enabled = true) (htimer : s.timer ≠ 0)
    (helapsed : s.timerElapsed s.timer > s.longestTerm) :
    (comboTask build s).Ends fun s' _ => s'.keyBuffer = [] := by
  simp only [comboTask, bind_apply, get_apply, Resumption.bind_done]
  rw [if_neg (by simpa using henabled), if_pos ⟨htimer, helapsed⟩]
  split_ifs
  · exact Ends.bind (ends_applyCombos s) fun _ _ hs' => hs'
  · exact Ends.bind (ends_dumpKeyBuffer s) fun _ _ hs' => hs'

theorem timerElapsed_toNat {stamp : ℕ} (hle : stamp ≤ s.clock) (hlt : s.clock - stamp < 2 ^ 16) :
    (s.timerElapsed (UInt16.ofNat stamp)).toNat = s.clock - stamp := by
  have hlt' : stamp % 65536 < 65536 := Nat.mod_lt _ (by decide)
  simp only [Engine.timerElapsed, Engine.timerRead, UInt16.toNat_sub, UInt16.toNat_ofNat']
  omega

end Timeout

/-- Keys that are withheld time out, in every state the engine reaches. -/
theorem timesOut (build : Build) (combos : List Combo) (comboTerm : UInt16)
    (inputs : List (Machine.Input Call))
    (hfine : Fine build (StateMachine.run (step (program build))
      ⟨Engine.initial build combos comboTerm, []⟩ inputs).state.trace) :
    TimesOut build (StateMachine.run (step (program build))
      ⟨Engine.initial build combos comboTerm, []⟩ inputs) := by
  have hsound : Sound Stamped (Armed build) (StateMachine.run (step (program build))
      ⟨Engine.initial build combos comboTerm, []⟩ inputs) := sound_run
    (fun call s hs => Resumption.Safe.mono (safe_program (kept_true build) ⟨hs, trivial⟩ call)
      fun _ _ h => h.1)
    (fun call s hs hI => Resumption.Safe.mono (safe_program (kept_armed build) ⟨hs, hI⟩ call)
      fun _ _ h => h.2)
    (sound_idle (stamped_of_timer rfl)
      ((kept_armed build).empty (s := Engine.initial build combos comboTerm) rfl))
    inputs
  generalize StateMachine.run (step (program build)) _ inputs = m at hfine hsound ⊢
  intro hidle hne
  obtain ⟨henabled, htimer, time, hlast, hstamp, hstrict⟩ := hsound.idle hidle hfine hne
  refine ⟨htimer, ?_⟩
  intro time' hlast' hterm hwrap hstamped nested hnested hback
  obtain rfl := Option.some.inj (hlast.symm.trans hlast')
  obtain ⟨heq, hle⟩ := hsound.weak htimer
  have hage : m.state.clock - m.state.stamp < 2 ^ 16 := by
    cases hs : build.strictTimer
    · rw [hstrict hs]
      exact hwrap
    · exact hstamped hs
  refine ends_run (i := Call.task) (ends_comboTask henabled htimer ?_) hnested hback
  rw [gt_iff_lt, UInt16.lt_iff_toNat_lt, heq, timerElapsed_toNat hle hage]
  omega

/-- The keys with the keycodes 4 and 5 make a combo; the first one is pressed at {lit}`ms`. -/
def pressAt (ms : ℕ) : List (Machine.Input Call) :=
  [.start (.wait ms), .start (.key 4 4 (keyRecord 0 0 (UInt16.ofNat ms) true))]

theorem timesOut_pressAt :
    TimesOut Build.vial (StateMachine.run (step (program Build.vial))
      ⟨Engine.initial Build.vial [.ofEntry [4, 5, 0, 0] 6] 50, []⟩ (pressAt 1000)) :=
  timesOut Build.vial [.ofEntry [4, 5, 0, 0] 6] 50 (pressAt 1000) (by
    unfold Fine
    decide +kernel)

/-- The key is pressed when the 16-bit clock wraps around to 0, so the timer stays off. -/
theorem not_timesOut_pressAtWrap :
    ¬ ∀ (build : Build) (combos : List Combo) (comboTerm : UInt16)
      (inputs : List (Machine.Input Call)),
      TimesOut build (StateMachine.run (step (program build))
        ⟨Engine.initial build combos comboTerm, []⟩ inputs) := by
  intro h
  have hrun := h Build.vial [.ofEntry [4, 5, 0, 0] 6] 50 (pressAt 65536)
  exact absurd (hrun rfl (by decide +kernel)).1 (by decide +kernel)

end Combos
end VialQmk
