import VialQmk.Midi.Notes

/-!
# Step sequencer

{lit}`sequencer.c` with {lit}`MIDI_ENABLE`.  A step is played in three phases: the tracks are
attacked one after the other, then released backwards, then there is a pause until the step is
over.  Whether a track sounds and which note it has is looked up in the tables at its attack, and
once more at its release.

Main results:

- Definition {lit}`sequencerTask`: one call of the task.
- Definition {lit}`step`: all functions of the sequencer as operations.
-/

namespace VialQmk
namespace StepSequencer

open Function (update)
open Midi (MidiConfig Message midiSendNoteon midiSendNoteoff midiToneMin)

/-! ## The state -/

/-- The options of the sequencer, and the settings of MIDI. -/
structure Config where
  /-- {lit}`SEQUENCER_STEPS` -/
  numSteps : ℕ
  numSteps_pos : 0 < numSteps
  numSteps_le : numSteps ≤ 256
  /-- {lit}`SEQUENCER_TRACKS` -/
  numTracks : ℕ
  numTracks_pos : 0 < numTracks
  numTracks_le : numTracks ≤ 8
  /-- {lit}`SEQUENCER_TRACK_THROTTLE` -/
  trackThrottle : ℕ
  /-- {lit}`SEQUENCER_PHASE_RELEASE_TIMEOUT` -/
  phaseReleaseTimeout : ℕ
  midi : MidiConfig

/-- {lit}`sequencer_config_t` -/
structure SequencerConfig where
  enabled : Bool
  /-- For each step one bit for each track -/
  steps : ℕ → BitVec 8
  trackNotes : ℕ → ℕ
  tempo : ℕ
  resolution : ℕ

/-- {lit}`sequencer_phase_t` -/
inductive Phase
  | attack
  | release
  | pause
deriving DecidableEq

/-- {lit}`sequencer_state_t` -/
structure SequencerState where
  activeTracks : BitVec 8
  currentTrack : ℕ
  currentStep : ℕ
  timer : UInt16
  phase : Phase

structure Sequencer where
  config : SequencerConfig
  internal : SequencerState

/-- {lit}`SEQUENCER_RESOLUTIONS` -/
def sequencerResolutions : ℕ := 9

/-- {lit}`SQ_RES_4` -/
def sqRes4 : ℕ := 2

def Sequencer.boot : Sequencer where
  config := ⟨false, fun _ => 0, fun _ => 0, 60, sqRes4⟩
  internal := ⟨0, 0, 0, 0, .attack⟩

/-! ## On and off -/

/-- {lit}`sequencer_on` -/
def sequencerOn (now : UInt16) (s : Sequencer) : Sequencer where
  config := { s.config with enabled := true }
  internal := ⟨s.internal.activeTracks, 0, 0, now, .attack⟩

/-- {lit}`sequencer_off` -/
def sequencerOff (s : Sequencer) : Sequencer where
  config := { s.config with enabled := false }
  internal := { s.internal with currentStep := 0 }

/-- {lit}`sequencer_toggle` -/
def sequencerToggle (now : UInt16) (s : Sequencer) : Sequencer :=
  if s.config.enabled then sequencerOff s else sequencerOn now s

/-! ## Tracks and steps -/

variable (c : Config)

/-- {lit}`sequencer_set_track_notes` -/
def setTrackNotes (trackNotes : ℕ → ℕ) (s : Sequencer) : Sequencer :=
  { s with config.trackNotes := fun track =>
      if track < c.numTracks then trackNotes track else s.config.trackNotes track }

/-- {lit}`is_sequencer_track_active` -/
def isTrackActive (track : ℕ) (s : Sequencer) : Bool :=
  s.internal.activeTracks.getLsbD track

/-- {lit}`sequencer_set_track_activation`; a track above the last bit has no bit to set. -/
def setTrackActivation (track : ℕ) (value : Bool) (s : Sequencer) : Sequencer :=
  { s with internal.activeTracks :=
      if value then s.internal.activeTracks ||| 1#8 <<< track
      else s.internal.activeTracks &&& ~~~(1#8 <<< track) }

/-- {lit}`sequencer_toggle_track_activation` -/
def toggleTrackActivation (track : ℕ) (s : Sequencer) : Sequencer :=
  setTrackActivation track (!isTrackActive track s) s

/-- {lit}`sequencer_toggle_single_active_track` -/
def toggleSingleActiveTrack (track : ℕ) (s : Sequencer) : Sequencer :=
  { s with internal.activeTracks := if isTrackActive track s then 0 else 1#8 <<< track }

/-- {lit}`is_sequencer_step_on` -/
def isStepOn (step : ℕ) (s : Sequencer) : Bool :=
  step < c.numSteps && (s.config.steps step &&& s.internal.activeTracks) != 0

/-- {lit}`is_sequencer_step_on_for_track` -/
def isStepOnForTrack (step track : ℕ) (s : Sequencer) : Bool :=
  step < c.numSteps && (s.config.steps step).getLsbD track

/-- The bits of a step with the active tracks on or off. -/
def withActive (s : Sequencer) (value : Bool) (tracks : BitVec 8) : BitVec 8 :=
  if value then tracks ||| s.internal.activeTracks else tracks &&& ~~~s.internal.activeTracks

/-- {lit}`sequencer_set_step` -/
def setStep (step : ℕ) (value : Bool) (s : Sequencer) : Sequencer :=
  if step < c.numSteps then
    { s with config.steps := update s.config.steps step (withActive s value (s.config.steps step)) }
  else s

/-- {lit}`sequencer_toggle_step` -/
def toggleStep (step : ℕ) (s : Sequencer) : Sequencer :=
  setStep c step (!isStepOn c step s) s

/-- {lit}`sequencer_set_all_steps`, with at most 255 steps: its counter is a byte. -/
def setAllSteps (value : Bool) (s : Sequencer) : Sequencer :=
  { s with config.steps := fun step =>
      if step < c.numSteps then withActive s value (s.config.steps step) else s.config.steps step }

/-! ## Tempo and resolution -/

/-- {lit}`sequencer_set_tempo` -/
def setTempo (tempo : ℕ) (s : Sequencer) : Sequencer :=
  if 0 < tempo then { s with config.tempo := tempo } else s

/-- {lit}`sequencer_increase_tempo` -/
def increaseTempo (s : Sequencer) : Sequencer :=
  if s.config.tempo < 255 then setTempo (s.config.tempo + 1) s else s

/-- {lit}`sequencer_decrease_tempo` -/
def decreaseTempo (s : Sequencer) : Sequencer :=
  setTempo ((s.config.tempo + 255) % 256) s

/-- {lit}`sequencer_set_resolution` -/
def setResolution (resolution : ℤ) (s : Sequencer) : Sequencer :=
  if 0 ≤ resolution ∧ resolution < sequencerResolutions then
    { s with config.resolution := resolution.toNat }
  else s

/-- {lit}`sequencer_increase_resolution` -/
def increaseResolution (s : Sequencer) : Sequencer :=
  setResolution (s.config.resolution + 1) s

/-- {lit}`sequencer_decrease_resolution` -/
def decreaseResolution (s : Sequencer) : Sequencer :=
  setResolution (s.config.resolution - 1) s

/-- {lit}`get_beat_duration` -/
def getBeatDuration (tempo : ℕ) : ℕ :=
  if tempo = 0 then 60000 / 60 else 60000 / tempo

/-- {lit}`get_step_duration` -/
def getStepDuration (tempo resolution : ℕ) : ℕ :=
  let binarySteps := 2 <<< (resolution / 2) % 256
  let binaryStepDuration := getBeatDuration tempo * 4 / binarySteps % 65536
  if resolution % 2 = 0 then binaryStepDuration else 2 * binaryStepDuration / 3

/-! ## The task -/

/-- {lit}`midi_compute_note`; the note of a track need not be the keycode of a tone. -/
def midiComputeNote (m : MidiConfig) (keycode : ℕ) : UInt8 :=
  .ofInt (12 * m.octave + ((keycode : ℤ) - midiToneMin) + m.transpose)

theorem midiComputeNote_of_isTone (m : MidiConfig) {keycode : ℕ} (h : Midi.IsTone keycode) :
    midiComputeNote m keycode = m.computeNote keycode := by
  unfold midiComputeNote MidiConfig.computeNote
  rw [Int.ofNat_sub h.1]

/-- The note of a track -/
def noteOf (s : Sequencer) (track : ℕ) : UInt8 :=
  midiComputeNote c.midi (s.config.trackNotes track)

/-- {lit}`process_midi_basic_noteon` -/
def processMidiBasicNoteon (note : UInt8) : Message :=
  midiSendNoteon 0 note 127

/-- {lit}`process_midi_basic_noteoff` -/
def processMidiBasicNoteoff (note : UInt8) : Message :=
  midiSendNoteoff 0 note 0

/-- {lit}`timer_elapsed` of the timer of the sequencer -/
def elapsed (now : UInt16) (s : Sequencer) : ℕ :=
  (now - s.internal.timer).toNat

/-- {lit}`sequencer_phase_attack` -/
def phaseAttack (now : UInt16) (s : Sequencer) : Sequencer × List Message :=
  let s := if s.internal.currentTrack = 0 then { s with internal.timer := now } else s
  if elapsed now s < s.internal.currentTrack * c.trackThrottle then (s, [])
  else
    let sent :=
      if isStepOnForTrack c s.internal.currentStep s.internal.currentTrack s then
        [processMidiBasicNoteon (noteOf c s s.internal.currentTrack)]
      else []
    if s.internal.currentTrack < c.numTracks - 1 then
      ({ s with internal.currentTrack := s.internal.currentTrack + 1 }, sent)
    else ({ s with internal.phase := .release }, sent)

/-- {lit}`sequencer_phase_release` -/
def phaseRelease (now : UInt16) (s : Sequencer) : Sequencer × List Message :=
  if elapsed now s < c.phaseReleaseTimeout + s.internal.currentTrack * c.trackThrottle then (s, [])
  else
    let sent :=
      if isStepOnForTrack c s.internal.currentStep s.internal.currentTrack s then
        [processMidiBasicNoteoff (noteOf c s s.internal.currentTrack)]
      else []
    if 0 < s.internal.currentTrack then
      ({ s with internal.currentTrack := s.internal.currentTrack - 1 }, sent)
    else ({ s with internal.phase := .pause }, sent)

/-- {lit}`sequencer_phase_pause` -/
def phasePause (now : UInt16) (s : Sequencer) : Sequencer :=
  if elapsed now s < getStepDuration s.config.tempo s.config.resolution then s
  else
    { s with
      internal.currentStep := (s.internal.currentStep + 1) % c.numSteps
      internal.phase := .attack }

/-- {lit}`sequencer_task`; the phases are asked for one after the other. -/
def sequencerTask (now : UInt16) (s : Sequencer) : Sequencer × List Message :=
  if s.config.enabled = false then (s, [])
  else
    let s := if s.internal.phase = .pause then phasePause c now s else s
    let (s, released) := if s.internal.phase = .release then phaseRelease c now s else (s, [])
    let (s, attacked) := if s.internal.phase = .attack then phaseAttack c now s else (s, [])
    (s, released ++ attacked)

/-! ## Operations -/

inductive Op
  | on (now : UInt16)
  | off
  | toggle (now : UInt16)
  | setTrackNotes (trackNotes : ℕ → ℕ)
  | setTrackActivation (track : ℕ) (value : Bool)
  | toggleTrackActivation (track : ℕ)
  | toggleSingleActiveTrack (track : ℕ)
  | setStep (step : ℕ) (value : Bool)
  | toggleStep (step : ℕ)
  | setAllSteps (value : Bool)
  | setTempo (tempo : ℕ)
  | increaseTempo
  | decreaseTempo
  | setResolution (resolution : ℤ)
  | increaseResolution
  | decreaseResolution
  | task (now : UInt16)

/-- An operation, with the messages that it sends. -/
def step (s : Sequencer) : Op → Sequencer × List Message
  | .on now => (sequencerOn now s, [])
  | .off => (sequencerOff s, [])
  | .toggle now => (sequencerToggle now s, [])
  | .setTrackNotes trackNotes => (setTrackNotes c trackNotes s, [])
  | .setTrackActivation track value => (setTrackActivation track value s, [])
  | .toggleTrackActivation track => (toggleTrackActivation track s, [])
  | .toggleSingleActiveTrack track => (toggleSingleActiveTrack track s, [])
  | .setStep step value => (setStep c step value s, [])
  | .toggleStep step => (toggleStep c step s, [])
  | .setAllSteps value => (setAllSteps c value s, [])
  | .setTempo tempo => (setTempo tempo s, [])
  | .increaseTempo => (increaseTempo s, [])
  | .decreaseTempo => (decreaseTempo s, [])
  | .setResolution resolution => (setResolution resolution s, [])
  | .increaseResolution => (increaseResolution s, [])
  | .decreaseResolution => (decreaseResolution s, [])
  | .task now => sequencerTask c now s

end StepSequencer
end VialQmk
