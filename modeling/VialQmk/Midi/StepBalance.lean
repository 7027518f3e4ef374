import Mathlib.Tactic.Common
import VialQmk.Midi.StepSequencer

/-!
# Step sequencer - balanced notes

A track is pending from its attack to its release.  The notes that sound are the notes that the
tables have now for the pending tracks, as long as the tables are not changed for these, and the
sequencer is switched while no pending track sounds.  Otherwise notes are lost: the release looks
up another note than the attack, or none, or never comes.

Main results:

- Definition {lit}`pendingNotes`: the notes that the coming releases will end.
- Theorem {lit}`attacked_perm`, {lit}`released_perm`: one track of a step.
- Theorem {lit}`right_of_meets`: where each operation leaves the pending notes as they are, every
  note-off ends a note that sounds, and no note sounds while the sequencer is off or pauses.
-/

namespace VialQmk
namespace StepSequencer

open Midi (Message hear)
open StateMachine

variable (c : Config)

/-! ## The property -/

/-- The sequencer, and the notes that sound, with their channels. -/
structure Tracked where
  sequencer : Sequencer
  sounding : List (UInt8 × UInt8)

def Tracked.boot : Tracked :=
  ⟨.boot, []⟩

def next (t : Tracked) (op : Op) : Tracked where
  sequencer := (step c t.sequencer op).1
  sounding := (step c t.sequencer op).2.foldl hear t.sounding

/-- Each note-off ends a note that sounds. -/
def EndsSounding : List (UInt8 × UInt8) → List Message → Prop
  | _, [] => True
  | notes, m :: ms =>
    (∀ chan note vel, m = .noteOff chan note vel → (chan, note) ∈ notes) ∧
      EndsSounding (hear notes m) ms

/-- The sequencer is off, or has completed its step. -/
def Sequencer.AtRest (s : Sequencer) : Prop :=
  s.config.enabled = false ∨ s.internal.phase = .pause

/-- No note-off without an earlier note-on, and no note sounds after the step. -/
def Right (t : Tracked) (op : Op) : Prop :=
  EndsSounding t.sounding (step c t.sequencer op).2 ∧
    ((next c t op).sequencer.AtRest → (next c t op).sounding = [])

/-! ## The condition -/

/-- The tracks that have been attacked and not released yet. -/
def pendingTracks (s : Sequencer) : List ℕ :=
  if s.config.enabled = false then []
  else
    match s.internal.phase with
    | .attack => List.range s.internal.currentTrack
    | .release => List.range (s.internal.currentTrack + 1)
    | .pause => []

/-- The note of a track, with its channel. -/
def sentNote (s : Sequencer) (track : ℕ) : UInt8 × UInt8 :=
  (0, noteOf c s track &&& 0x7F)

/-- The notes that the tables have for some tracks in the current step. -/
def notesOf (s : Sequencer) (tracks : List ℕ) : List (UInt8 × UInt8) :=
  (tracks.filter fun track => isStepOnForTrack c s.internal.currentStep track s).map (sentNote c s)

/-- The notes of the pending tracks, as the tables are now. -/
def pendingNotes (s : Sequencer) : List (UInt8 × UInt8) :=
  notesOf c s (pendingTracks s)

/-- The sequencer is switched on or off while no pending track has a note, and a change of the
tables leaves the notes of the pending tracks as they are.  With 256 steps
{lit}`sequencer_set_all_steps` does not return. -/
def Meets (t : Tracked) : Op → Prop
  | .on _ | .off | .toggle _ => pendingNotes c t.sequencer = []
  | .setTrackNotes trackNotes =>
    (pendingNotes c (setTrackNotes c trackNotes t.sequencer)).Perm (pendingNotes c t.sequencer)
  | .setStep n value =>
    (pendingNotes c (setStep c n value t.sequencer)).Perm (pendingNotes c t.sequencer)
  | .toggleStep n =>
    (pendingNotes c (toggleStep c n t.sequencer)).Perm (pendingNotes c t.sequencer)
  | .setAllSteps value => c.numSteps < 256 ∧
    (pendingNotes c (setAllSteps c value t.sequencer)).Perm (pendingNotes c t.sequencer)
  | _ => True

/-! ## One track -/

/-- The pending notes sound, and nothing else. -/
structure Inv (t : Tracked) : Prop where
  sounding : t.sounding.Perm (pendingNotes c t.sequencer)
  currentTrack_lt : t.sequencer.internal.currentTrack < c.numTracks
  pause : t.sequencer.internal.phase = .pause → t.sequencer.internal.currentTrack = 0

theorem inv_boot : Inv c .boot :=
  ⟨.refl _, c.numTracks_pos, fun h => by injection h⟩

theorem notesOf_range_succ (s : Sequencer) (n : ℕ) :
    notesOf c s (List.range (n + 1)) = notesOf c s (List.range n) ++
      if isStepOnForTrack c s.internal.currentStep n s then [sentNote c s n] else [] := by
  unfold notesOf
  rw [List.range_succ, List.filter_append, List.map_append]
  congr 1
  by_cases hon : isStepOnForTrack c s.internal.currentStep n s = true
  · simp [hon]
  · simp [hon]

/-- No note sounds where no track is pending. -/
theorem atRest_sounding {t : Tracked} (h : Inv c t) (hrest : t.sequencer.AtRest) :
    t.sounding = [] := by
  have hnone : pendingTracks t.sequencer = [] := by
    unfold pendingTracks
    obtain hoff | hpause := hrest
    · rw [if_pos hoff]
    · rw [hpause]
      split_ifs <;> rfl
  have hsounding := h.sounding
  unfold pendingNotes at hsounding
  rw [hnone] at hsounding
  exact List.Perm.eq_nil hsounding

/-- The notes are looked up in the tables only. -/
theorem notesOf_congr {s s' : Sequencer} (hsteps : s'.config.steps = s.config.steps)
    (hnotes : s'.config.trackNotes = s.config.trackNotes)
    (hstep : s'.internal.currentStep = s.internal.currentStep) (tracks : List ℕ) :
    notesOf c s' tracks = notesOf c s tracks := by
  unfold notesOf sentNote noteOf isStepOnForTrack
  rw [hsteps, hnotes, hstep]

theorem pendingNotes_attack {s : Sequencer} (hon : s.config.enabled = true)
    (hphase : s.internal.phase = .attack) :
    pendingNotes c s = notesOf c s (List.range s.internal.currentTrack) := by
  unfold pendingNotes pendingTracks
  rw [hon, hphase]
  rfl

theorem pendingNotes_release {s : Sequencer} (hon : s.config.enabled = true)
    (hphase : s.internal.phase = .release) :
    pendingNotes c s = notesOf c s (List.range (s.internal.currentTrack + 1)) := by
  unfold pendingNotes pendingTracks
  rw [hon, hphase]
  rfl

theorem pendingNotes_pause {s : Sequencer} (hphase : s.internal.phase = .pause) :
    pendingNotes c s = [] := by
  unfold pendingNotes pendingTracks
  rw [hphase]
  split_ifs <;> rfl

theorem inv_attack {s : Sequencer} {sounding : List (UInt8 × UInt8)}
    (hon : s.config.enabled = true) (hphase : s.internal.phase = .attack)
    (hlt : s.internal.currentTrack < c.numTracks)
    (h : sounding.Perm (notesOf c s (List.range s.internal.currentTrack))) :
    Inv c ⟨s, sounding⟩ :=
  ⟨h.trans (.of_eq (pendingNotes_attack c hon hphase).symm), hlt,
    fun hpause => absurd (hphase.symm.trans hpause) (by decide)⟩

theorem inv_release {s : Sequencer} {sounding : List (UInt8 × UInt8)}
    (hon : s.config.enabled = true) (hphase : s.internal.phase = .release)
    (hlt : s.internal.currentTrack < c.numTracks)
    (h : sounding.Perm (notesOf c s (List.range (s.internal.currentTrack + 1)))) :
    Inv c ⟨s, sounding⟩ :=
  ⟨h.trans (.of_eq (pendingNotes_release c hon hphase).symm), hlt,
    fun hpause => absurd (hphase.symm.trans hpause) (by decide)⟩

theorem inv_pause {s : Sequencer} {sounding : List (UInt8 × UInt8)}
    (hphase : s.internal.phase = .pause) (hzero : s.internal.currentTrack = 0)
    (h : sounding.Perm []) : Inv c ⟨s, sounding⟩ :=
  ⟨h.trans (.of_eq (pendingNotes_pause c hphase).symm), by
    dsimp only
    rw [hzero]
    exact c.numTracks_pos, fun _ => hzero⟩

theorem hear_noteon (s : Sequencer) (track : ℕ) (sounding : List (UInt8 × UInt8)) :
    hear sounding (processMidiBasicNoteon (noteOf c s track)) = sounding ++ [sentNote c s track] :=
  rfl

theorem hear_noteoff (s : Sequencer) (track : ℕ) (sounding : List (UInt8 × UInt8)) :
    hear sounding (processMidiBasicNoteoff (noteOf c s track)) =
      sounding.erase (sentNote c s track) :=
  rfl

/-- A track whose attack is over is pending. -/
theorem attacked_perm {s : Sequencer} {sounding : List (UInt8 × UInt8)} {track : ℕ}
    {sent : List Message} (h : sounding.Perm (notesOf c s (List.range track)))
    (hsent : sent = if isStepOnForTrack c s.internal.currentStep track s then
      [processMidiBasicNoteon (noteOf c s track)] else []) :
    EndsSounding sounding sent ∧
      (sent.foldl hear sounding).Perm (notesOf c s (List.range (track + 1))) := by
  rw [notesOf_range_succ]
  by_cases hon : isStepOnForTrack c s.internal.currentStep track s = true
  · rw [if_pos hon] at hsent ⊢
    subst hsent
    refine ⟨⟨fun chan note vel hoff => by injection hoff, trivial⟩, ?_⟩
    rw [List.foldl_cons, List.foldl_nil, hear_noteon]
    exact h.append_right _
  · rw [if_neg hon] at hsent ⊢
    subst hsent
    rw [List.append_nil]
    exact ⟨trivial, h⟩

/-- A track whose release is over is not pending any more. -/
theorem released_perm {s : Sequencer} {sounding : List (UInt8 × UInt8)} {track : ℕ}
    {sent : List Message} (h : sounding.Perm (notesOf c s (List.range (track + 1))))
    (hsent : sent = if isStepOnForTrack c s.internal.currentStep track s then
      [processMidiBasicNoteoff (noteOf c s track)] else []) :
    EndsSounding sounding sent ∧
      (sent.foldl hear sounding).Perm (notesOf c s (List.range track)) := by
  rw [notesOf_range_succ] at h
  by_cases hon : isStepOnForTrack c s.internal.currentStep track s = true
  · rw [if_pos hon] at hsent h
    subst hsent
    have hlast : sounding.Perm (sentNote c s track :: notesOf c s (List.range track)) :=
      h.trans List.perm_append_comm
    refine ⟨⟨fun chan note vel hoff => ?_, trivial⟩, ?_⟩
    · obtain ⟨rfl, rfl, -⟩ := Message.noteOff.inj hoff
      exact hlast.mem_iff.mpr List.mem_cons_self
    · rw [List.foldl_cons, List.foldl_nil, hear_noteoff]
      have herase := hlast.erase (sentNote c s track)
      rwa [List.erase_cons_head] at herase
  · rw [if_neg hon] at hsent h
    subst hsent
    rw [List.append_nil] at h
    exact ⟨trivial, h⟩

/-- The attack of one track. -/
theorem phaseAttack_inv {s : Sequencer} {sounding : List (UInt8 × UInt8)}
    (h : Inv c ⟨s, sounding⟩) (hon : s.config.enabled = true)
    (hphase : s.internal.phase = .attack) (now : UInt16) :
    EndsSounding sounding (phaseAttack c now s).2 ∧
      Inv c ⟨(phaseAttack c now s).1, (phaseAttack c now s).2.foldl hear sounding⟩ := by
  have hsounding : sounding.Perm (pendingNotes c s) := h.sounding
  have hlt : s.internal.currentTrack < c.numTracks := h.currentTrack_lt
  rw [pendingNotes_attack c hon hphase] at hsounding
  unfold phaseAttack
  -- the timer of the first track does not matter
  obtain ⟨s', hs', hconfig, hstep, htrack, hphase'⟩ : ∃ s' : Sequencer,
      (if s.internal.currentTrack = 0 then { s with internal.timer := now } else s) = s' ∧
        s'.config = s.config ∧ s'.internal.currentStep = s.internal.currentStep ∧
        s'.internal.currentTrack = s.internal.currentTrack ∧ s'.internal.phase = .attack := by
    refine ⟨_, rfl, ?_⟩
    split_ifs
    · exact ⟨rfl, rfl, rfl, hphase⟩
    · exact ⟨rfl, rfl, rfl, hphase⟩
  rw [hs']
  rw [← notesOf_congr c (congrArg _ hconfig) (congrArg _ hconfig) hstep, ← htrack] at hsounding
  rw [← htrack] at hlt
  have hon' : s'.config.enabled = true := by rw [hconfig, hon]
  dsimp only
  obtain ⟨hends, hperm⟩ := attacked_perm c hsounding rfl
  by_cases hearly : elapsed now s' < s'.internal.currentTrack * c.trackThrottle
  · rw [if_pos hearly]
    exact ⟨trivial, inv_attack c hon' hphase' hlt hsounding⟩
  · rw [if_neg hearly]
    by_cases hmore : s'.internal.currentTrack < c.numTracks - 1
    · rw [if_pos hmore]
      exact ⟨hends, inv_attack c hon' hphase' (by dsimp only; omega) hperm⟩
    · rw [if_neg hmore]
      exact ⟨hends, inv_release c hon' rfl hlt hperm⟩

/-- The release of one track. -/
theorem phaseRelease_inv {s : Sequencer} {sounding : List (UInt8 × UInt8)}
    (h : Inv c ⟨s, sounding⟩) (hon : s.config.enabled = true)
    (hphase : s.internal.phase = .release) (now : UInt16) :
    EndsSounding sounding (phaseRelease c now s).2 ∧
      Inv c ⟨(phaseRelease c now s).1, (phaseRelease c now s).2.foldl hear sounding⟩ := by
  have hsounding : sounding.Perm (pendingNotes c s) := h.sounding
  have hlt : s.internal.currentTrack < c.numTracks := h.currentTrack_lt
  rw [pendingNotes_release c hon hphase] at hsounding
  obtain ⟨hends, hperm⟩ := released_perm c hsounding rfl
  unfold phaseRelease
  by_cases hearly :
      elapsed now s < c.phaseReleaseTimeout + s.internal.currentTrack * c.trackThrottle
  · rw [if_pos hearly]
    exact ⟨trivial, h⟩
  · rw [if_neg hearly]
    dsimp only
    by_cases hmore : 0 < s.internal.currentTrack
    · rw [if_pos hmore]
      refine ⟨hends, inv_release c hon hphase (by dsimp only; omega) ?_⟩
      dsimp only
      rw [Nat.sub_add_cancel hmore]
      exact hperm
    · rw [if_neg hmore]
      have hzero : s.internal.currentTrack = 0 := by omega
      rw [hzero] at hperm
      refine ⟨hends, inv_pause c rfl hzero ?_⟩
      rw [hzero]
      exact hperm

/-- After a release no track is attacked in the same call. -/
theorem phaseRelease_phase {s : Sequencer} (hphase : s.internal.phase = .release) (now : UInt16) :
    (phaseRelease c now s).1.internal.phase ≠ .attack := by
  have hrelease : s.internal.phase ≠ .attack := by
    rw [hphase]
    decide
  have hpause : Phase.pause ≠ .attack := by decide
  unfold phaseRelease
  by_cases hearly :
      elapsed now s < c.phaseReleaseTimeout + s.internal.currentTrack * c.trackThrottle
  · rw [if_pos hearly]
    exact hrelease
  · rw [if_neg hearly]
    by_cases hmore : 0 < s.internal.currentTrack
    · rw [if_pos hmore]
      exact hrelease
    · rw [if_neg hmore]
      exact hpause

/-- The next step begins with its first track. -/
theorem phasePause_inv {s : Sequencer} {sounding : List (UInt8 × UInt8)}
    (h : Inv c ⟨s, sounding⟩) (hon : s.config.enabled = true)
    (hphase : s.internal.phase = .pause) (now : UInt16) :
    (phasePause c now s).config.enabled = true ∧
      ((phasePause c now s).internal.phase = .pause ∨
        (phasePause c now s).internal.phase = .attack) ∧
      Inv c ⟨phasePause c now s, sounding⟩ := by
  unfold phasePause
  by_cases hearly : elapsed now s < getStepDuration s.config.tempo s.config.resolution
  · rw [if_pos hearly]
    exact ⟨hon, .inl hphase, h⟩
  · rw [if_neg hearly]
    have hzero : s.internal.currentTrack = 0 := h.pause hphase
    have hsounding : sounding.Perm (pendingNotes c s) := h.sounding
    rw [pendingNotes_pause c hphase] at hsounding
    refine ⟨hon, .inr rfl, inv_attack c hon rfl h.currentTrack_lt ?_⟩
    dsimp only
    rw [hzero]
    exact hsounding

/-- A call of the task. -/
theorem sequencerTask_inv {t : Tracked} (h : Inv c t) (now : UInt16) :
    EndsSounding t.sounding (step c t.sequencer (.task now)).2 ∧ Inv c (next c t (.task now)) := by
  unfold next
  simp only [step]
  unfold sequencerTask
  by_cases hoff : t.sequencer.config.enabled = false
  · rw [if_pos hoff]
    exact ⟨trivial, h⟩
  · rw [if_neg hoff]
    have hon : t.sequencer.config.enabled = true := by simpa using hoff
    cases hphase : t.sequencer.internal.phase with
    | attack =>
      have hattack := phaseAttack_inv c h hon hphase now
      simpa [hphase] using hattack
    | release =>
      have hrelease := phaseRelease_inv c h hon hphase now
      have hnot := phaseRelease_phase c hphase now
      simpa [hphase, hnot] using hrelease
    | pause =>
      obtain ⟨hon', hphase' | hphase', hpause⟩ := phasePause_inv c h hon hphase now
      · simpa [hphase', EndsSounding] using hpause
      · have hattack := phaseAttack_inv c hpause hon' hphase' now
        simpa [hphase'] using hattack

/-! ## Runs -/

/-- An operation that leaves the pending notes as they are. -/
theorem Inv.edit {t : Tracked} (h : Inv c t) {s : Sequencer}
    (hpending : (pendingNotes c s).Perm (pendingNotes c t.sequencer))
    (htrack : s.internal.currentTrack = t.sequencer.internal.currentTrack)
    (hphase : s.internal.phase = t.sequencer.internal.phase) : Inv c ⟨s, t.sounding⟩ where
  sounding := h.sounding.trans hpending.symm
  currentTrack_lt := htrack ▸ h.currentTrack_lt
  pause := fun hpause => htrack.trans (h.pause (hphase.symm.trans hpause))

theorem inv_on {t : Tracked} (h : Inv c t) (hnone : pendingNotes c t.sequencer = [])
    (now : UInt16) : Inv c ⟨sequencerOn now t.sequencer, t.sounding⟩ :=
  inv_attack c rfl rfl c.numTracks_pos (h.sounding.trans (.of_eq hnone))

theorem inv_off {t : Tracked} (h : Inv c t) (hnone : pendingNotes c t.sequencer = []) :
    Inv c ⟨sequencerOff t.sequencer, t.sounding⟩ :=
  h.edit c (by rw [hnone]; rfl) rfl rfl

/-- An operation that does not change the tables. -/
theorem Inv.settings {t : Tracked} (h : Inv c t) {s : Sequencer}
    (henabled : s.config.enabled = t.sequencer.config.enabled)
    (hsteps : s.config.steps = t.sequencer.config.steps)
    (hnotes : s.config.trackNotes = t.sequencer.config.trackNotes)
    (hstep : s.internal.currentStep = t.sequencer.internal.currentStep)
    (htrack : s.internal.currentTrack = t.sequencer.internal.currentTrack)
    (hphase : s.internal.phase = t.sequencer.internal.phase) : Inv c ⟨s, t.sounding⟩ := by
  refine h.edit c (.of_eq ?_) htrack hphase
  unfold pendingNotes pendingTracks
  rw [henabled, htrack, hphase, notesOf_congr c hsteps hnotes hstep]

theorem setTempo_inv {t : Tracked} (h : Inv c t) (tempo : ℕ) :
    Inv c ⟨setTempo tempo t.sequencer, t.sounding⟩ := by
  unfold setTempo
  split_ifs
  · exact h.settings c rfl rfl rfl rfl rfl rfl
  · exact h

theorem setResolution_inv {t : Tracked} (h : Inv c t) (resolution : ℤ) :
    Inv c ⟨setResolution resolution t.sequencer, t.sounding⟩ := by
  unfold setResolution
  split_ifs
  · exact h.settings c rfl rfl rfl rfl rfl rfl
  · exact h

theorem setStep_inv {t : Tracked} (h : Inv c t) (n : ℕ) (value : Bool)
    (hpending : (pendingNotes c (setStep c n value t.sequencer)).Perm
      (pendingNotes c t.sequencer)) : Inv c ⟨setStep c n value t.sequencer, t.sounding⟩ := by
  have hinternal : (setStep c n value t.sequencer).internal = t.sequencer.internal := by
    unfold setStep
    split_ifs <;> rfl
  exact h.edit c hpending (by rw [hinternal]) (by rw [hinternal])

/-- The notes that sound, after an operation that meets the condition. -/
theorem next_inv {t : Tracked} {op : Op} (h : Inv c t) (hmeets : Meets c t op) :
    EndsSounding t.sounding (step c t.sequencer op).2 ∧ Inv c (next c t op) := by
  cases op with
  | on now => exact ⟨trivial, inv_on c h hmeets now⟩
  | off => exact ⟨trivial, inv_off c h hmeets⟩
  | toggle now =>
    refine ⟨trivial, ?_⟩
    simp only [next, step, sequencerToggle]
    split_ifs
    · exact inv_off c h hmeets
    · exact inv_on c h hmeets now
  | setTrackNotes trackNotes => exact ⟨trivial, h.edit c hmeets rfl rfl⟩
  | setTrackActivation track value => exact ⟨trivial, h.settings c rfl rfl rfl rfl rfl rfl⟩
  | toggleTrackActivation track => exact ⟨trivial, h.settings c rfl rfl rfl rfl rfl rfl⟩
  | toggleSingleActiveTrack track => exact ⟨trivial, h.settings c rfl rfl rfl rfl rfl rfl⟩
  | setStep n value => exact ⟨trivial, setStep_inv c h n value hmeets⟩
  | toggleStep n => exact ⟨trivial, setStep_inv c h n _ hmeets⟩
  | setAllSteps value => exact ⟨trivial, h.edit c hmeets.2 rfl rfl⟩
  | setTempo tempo => exact ⟨trivial, setTempo_inv c h tempo⟩
  | increaseTempo =>
    refine ⟨trivial, ?_⟩
    simp only [next, step, increaseTempo]
    split_ifs
    · exact setTempo_inv c h _
    · exact h
  | decreaseTempo => exact ⟨trivial, setTempo_inv c h _⟩
  | setResolution resolution => exact ⟨trivial, setResolution_inv c h resolution⟩
  | increaseResolution => exact ⟨trivial, setResolution_inv c h _⟩
  | decreaseResolution => exact ⟨trivial, setResolution_inv c h _⟩
  | task now => exact sequencerTask_inv c h now

theorem right_of_inv {t : Tracked} {op : Op} (h : Inv c t) (hmeets : Meets c t op) :
    Right c t op :=
  have hnext := next_inv c h hmeets
  ⟨hnext.1, atRest_sounding c hnext.2⟩

/-- Where each operation leaves the pending notes as they are, the notes are balanced. -/
theorem right_of_meets {ops : List Op} (h : Along (next c) (Meets c) .boot ops) :
    Along (next c) (Right c) .boot ops :=
  along_of_invariant (Inv c) (fun _ _ hinv hmeets => (next_inv c hinv hmeets).2)
    (fun _ _ => right_of_inv c) (inv_boot c) h

instance (t : Tracked) : (op : Op) → Decidable (Meets c t op)
  | .on _ | .off | .toggle _ => inferInstanceAs (Decidable (_ = _))
  | .setTrackNotes _ | .setStep _ _ | .toggleStep _ =>
    inferInstanceAs (Decidable (List.Perm _ _))
  | .setAllSteps _ => inferInstanceAs (Decidable (_ ∧ List.Perm _ _))
  | .setTrackActivation _ _ | .toggleTrackActivation _ | .toggleSingleActiveTrack _ | .setTempo _
  | .increaseTempo | .decreaseTempo | .setResolution _ | .increaseResolution
  | .decreaseResolution | .task _ => inferInstanceAs (Decidable True)

/-- {lit}`SEQUENCER_STEPS` -/
def sequencerSteps : ℕ := 16

/-- {lit}`SEQUENCER_TRACKS` -/
def sequencerTracks : ℕ := 8

/-- The default options. -/
def Config.default : Config where
  numSteps := sequencerSteps
  numSteps_pos := by decide
  numSteps_le := by decide
  numTracks := sequencerTracks
  numTracks_pos := by decide
  numTracks_le := by decide
  trackThrottle := 3
  phaseReleaseTimeout := 30
  midi := Midi.State.init.config

/-- The first track is on in the first step, and is attacked. -/
def firstAttack : List Op :=
  [.setTrackActivation 0 true, .setStep 0 true, .on 5, .task 6]

/-- The rest of the first step. -/
def restOfStep : List Op :=
  List.replicate 14 (.task 200)

/-- Tracks that are attacked with no note; then the last one gets the step. -/
def lateChange : List Op :=
  .on 5 :: .task 6 :: (List.replicate 7 (.task 200)).append
    [.setTrackActivation 7 true, .setStep 0 true]

theorem right_of_meets_step :
    Along (next .default) (Right .default) .boot
      (firstAttack ++ .setStep 1 true :: restOfStep ++ [.task 200, .off]) :=
  right_of_meets .default (by decide +kernel)

/-- The note of a track that sounds is lost when the sequencer is switched off, or when the step
is taken from the track; a track that gets the step before its release sends a note-off alone. -/
theorem not_right_of_change :
    ¬ Along (next .default) (Right .default) .boot (firstAttack ++ [.off]) ∧
      ¬ Along (next .default) (Right .default) .boot
        (firstAttack ++ .setStep 0 false :: restOfStep ++ [.task 200]) ∧
      ¬ Along (next .default) (Right .default) .boot (lateChange ++ [.task 300]) := by
  refine ⟨fun h => ?_, fun h => ?_, fun h => ?_⟩
  · have hlast := (along_append.mp h).2.1
    exact absurd (hlast.2 (.inl (by decide +kernel))) (by decide +kernel)
  · have hlast := (along_append.mp h).2.1
    exact absurd (hlast.2 (.inr (by decide +kernel))) (by decide +kernel)
  · have hends := (along_append.mp h).2.1.1
    have hsent : (step .default (run (next .default) .boot lateChange).sequencer (.task 300)).2 =
        [.noteOff 0 (midiComputeNote Config.default.midi 0 &&& 0x7F) 0] := by
      decide +kernel
    have hsounding : (run (next .default) .boot lateChange).sounding = [] := by
      decide +kernel
    rw [hsent, hsounding] at hends
    exact absurd (hends.1 _ _ _ rfl) List.not_mem_nil

end StepSequencer
end VialQmk
