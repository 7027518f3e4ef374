import VialQmk.Library.Runs
import Mathlib.Data.Int.Notation
import Mathlib.Logic.Function.Basic

/-!
# MIDI keys - notes

{lit}`process_midi.c` with {lit}`MIDI_ADVANCED`: a key sounds a tone while it is held.  For each
tone the note that was sent is remembered, or {lit}`MIDI_INVALID_NOTE` while it is silent; the
channel is not remembered.

Main results:

- Definition {lit}`processMidi`: one key event.
- Theorem {lit}`balanced_iff`: every note is ended as it was begun, exactly as long as the channel
  is not changed under a sounding tone, and no tone is pressed one step below the lowest note.
-/

namespace VialQmk
namespace Midi

open Function (update update_self update_of_ne)
open StateMachine

/-! ## Messages -/

/-- The bytes of a message, the kind of its status byte apart. -/
inductive Message where
  | noteOn (channel note velocity : UInt8)
  | noteOff (channel note velocity : UInt8)
  | cc (channel num val : UInt8)
  | pitchbend (channel low high : UInt8)
deriving DecidableEq

/-- {lit}`midi_send_noteon` -/
def midiSendNoteon (chan num vel : UInt8) : Message :=
  .noteOn (chan &&& 0x0F) (num &&& 0x7F) (vel &&& 0x7F)

/-- {lit}`midi_send_noteoff` -/
def midiSendNoteoff (chan num vel : UInt8) : Message :=
  .noteOff (chan &&& 0x0F) (num &&& 0x7F) (vel &&& 0x7F)

/-- {lit}`midi_send_cc` -/
def midiSendCc (chan num val : UInt8) : Message :=
  .cc (chan &&& 0x0F) (num &&& 0x7F) (val &&& 0x7F)

/-- {lit}`midi_send_pitchbend` -/
def midiSendPitchbend (chan : UInt8) (amt : ℤ) : Message :=
  let uAmt : UInt16 :=
    if 0x1FFF < amt then 0x3FFF else if amt < -0x2000 then 0 else .ofInt (amt + 0x2000)
  .pitchbend (chan &&& 0x0F) (uAmt &&& 0x7F).toUInt8 (uAmt >>> 7 &&& 0x7F).toUInt8

/-! ## The state -/

/-- {lit}`midi_config_t`; the fields are of 4, 4, 7, 4 and 4 bits, the second with a sign. -/
structure MidiConfig where
  octave : ℕ
  transpose : ℤ
  velocity : ℕ
  channel : ℕ
  modulationInterval : ℕ
deriving DecidableEq

/-- {lit}`MIDI_INVALID_NOTE` -/
def midiInvalidNote : UInt8 := 0xFF

structure State where
  config : MidiConfig
  /-- {lit}`tone_status` -/
  toneStatus : ℕ → UInt8
  /-- {lit}`midi_modulation_step` -/
  modulationStep : ℤ

/-- {lit}`midi_init` -/
def State.init : State where
  config := ⟨4, 0, 127, 0, 8⟩
  toneStatus := fun _ => midiInvalidNote
  modulationStep := 0

def midiToneMin : ℕ := 0x7103
def midiToneMax : ℕ := 0x714A
def midiToneCount : ℕ := 72
def midiOctaveMin : ℕ := 0x714B
def midiOctaveMax : ℕ := 0x7154
def qkMidiOctaveDown : ℕ := 0x7155
def qkMidiOctaveUp : ℕ := 0x7156
def midiTransposeMin : ℕ := 0x7157
def qkMidiTranspose0 : ℕ := 0x715D
def midiTransposeMax : ℕ := 0x7163
def qkMidiTransposeDown : ℕ := 0x7164
def qkMidiTransposeUp : ℕ := 0x7165
def midiVelocityMin : ℕ := 0x7166
def midiVelocityMax : ℕ := 0x7170
def qkMidiVelocityDown : ℕ := 0x7171
def qkMidiVelocityUp : ℕ := 0x7172
def midiChannelMin : ℕ := 0x7173
def midiChannelMax : ℕ := 0x7182
def qkMidiChannelDown : ℕ := 0x7183
def qkMidiChannelUp : ℕ := 0x7184
def qkMidiAllNotesOff : ℕ := 0x7185
def qkMidiSustain : ℕ := 0x7186
def qkMidiPortamento : ℕ := 0x7187
def qkMidiSostenuto : ℕ := 0x7188
def qkMidiSoft : ℕ := 0x7189
def qkMidiLegato : ℕ := 0x718A
def qkMidiModulation : ℕ := 0x718B
def qkMidiModulationSpeedDown : ℕ := 0x718C
def qkMidiModulationSpeedUp : ℕ := 0x718D
def qkMidiPitchBendDown : ℕ := 0x718E
def qkMidiPitchBendUp : ℕ := 0x718F

/-- {lit}`compute_velocity` -/
def computeVelocity (setting : ℕ) : ℕ :=
  setting * (128 / (midiVelocityMax - midiVelocityMin))

/-- {lit}`midi_compute_note` -/
def MidiConfig.computeNote (m : MidiConfig) (keycode : ℕ) : UInt8 :=
  .ofInt (12 * m.octave + (keycode - midiToneMin : ℕ) + m.transpose)

/-- The branches of {lit}`process_midi` for the octave, for a key that is pressed. -/
def changeOctave (octave keycode : ℕ) : ℕ :=
  if midiOctaveMin ≤ keycode ∧ keycode ≤ midiOctaveMax then (keycode - midiOctaveMin) % 16
  else if keycode = qkMidiOctaveDown ∧ 0 < octave then octave - 1
  else if keycode = qkMidiOctaveUp ∧ octave < midiOctaveMax - midiOctaveMin then
    (octave + 1) % 16
  else octave

/-- The branches for the transposition. -/
def changeTranspose (transpose : ℤ) (keycode : ℕ) : ℤ :=
  if midiTransposeMin ≤ keycode ∧ keycode ≤ midiTransposeMax then
    ((keycode : ℤ) - qkMidiTranspose0).bmod 16
  else if keycode = qkMidiTransposeDown ∧
      (midiTransposeMin : ℤ) - qkMidiTranspose0 < transpose then
    (transpose - 1).bmod 16
  else if keycode = qkMidiTransposeUp ∧
      transpose < (midiTransposeMax : ℤ) - qkMidiTranspose0 then
    -- the source guards against the sign bit
    if 0 < transpose ∧ (transpose + 1).bmod 16 < 0 then ((transpose + 1).bmod 16 - 1).bmod 16
    else (transpose + 1).bmod 16
  else transpose

/-- The branches for the velocity. -/
def changeVelocity (velocity keycode : ℕ) : ℕ :=
  if midiVelocityMin ≤ keycode ∧ keycode ≤ midiVelocityMax then
    computeVelocity (keycode - midiVelocityMin) % 128
  else if keycode = qkMidiVelocityDown ∧ 0 < velocity then
    if velocity = 127 then velocity - 10
    else if 12 < velocity then velocity - 13
    else 0
  else if keycode = qkMidiVelocityUp ∧ velocity < 127 then
    if velocity < 115 then (velocity + 13) % 128 else 127
  else velocity

/-- The branches for the channel. -/
def changeChannel (channel keycode : ℕ) : ℕ :=
  if midiChannelMin ≤ keycode ∧ keycode ≤ midiChannelMax then (keycode - midiChannelMin) % 16
  else if keycode = qkMidiChannelDown then (channel + 15) % 16
  else if keycode = qkMidiChannelUp then (channel + 1) % 16
  else channel

/-- The branches for the speed of the modulation. -/
def changeModulationInterval (interval keycode : ℕ) : ℕ :=
  if keycode = qkMidiModulationSpeedDown then
    if (interval + 1) % 16 = 0 then 15 else (interval + 1) % 16
  else if keycode = qkMidiModulationSpeedUp ∧ 0 < interval then interval - 1
  else interval

/-- Each of these keys changes one field. -/
def MidiConfig.change (m : MidiConfig) (keycode : ℕ) : MidiConfig where
  octave := changeOctave m.octave keycode
  transpose := changeTranspose m.transpose keycode
  velocity := changeVelocity m.velocity keycode
  channel := changeChannel m.channel keycode
  modulationInterval := changeModulationInterval m.modulationInterval keycode

/-- The branches that send a controller or a pitch bend. -/
def MidiConfig.controls (m : MidiConfig) (keycode : ℕ) (pressed : Bool) : List Message :=
  let channel := UInt8.ofNat m.channel
  let val : UInt8 := if pressed then 127 else 0
  if keycode = qkMidiAllNotesOff then if pressed then [midiSendCc channel 0x7B 0] else []
  else if keycode = qkMidiSustain then [midiSendCc channel 0x40 val]
  else if keycode = qkMidiPortamento then [midiSendCc channel 0x41 val]
  else if keycode = qkMidiSostenuto then [midiSendCc channel 0x42 val]
  else if keycode = qkMidiSoft then [midiSendCc channel 0x43 val]
  else if keycode = qkMidiLegato then [midiSendCc channel 0x44 val]
  else if keycode = qkMidiPitchBendDown then
    [midiSendPitchbend channel (if pressed then -0x2000 else 0)]
  else if keycode = qkMidiPitchBendUp then
    [midiSendPitchbend channel (if pressed then 0x1FFF else 0)]
  else []

/-- The new state, the messages, and whether the key event goes on. -/
structure Result where
  state : State
  sent : List Message
  goesOn : Bool

/-- The branch of {lit}`process_midi` for the tones. -/
def processTone (s : State) (keycode : ℕ) (pressed : Bool) : Result :=
  let channel := UInt8.ofNat s.config.channel
  let tone := keycode - midiToneMin
  let velocity := UInt8.ofNat s.config.velocity
  if pressed then
    if s.toneStatus tone = midiInvalidNote then
      let note := s.config.computeNote keycode
      ⟨⟨s.config, update s.toneStatus tone note, s.modulationStep⟩,
        [midiSendNoteon channel note velocity], false⟩
    else ⟨s, [], false⟩
  else
    let note := s.toneStatus tone
    ⟨⟨s.config, update s.toneStatus tone midiInvalidNote, s.modulationStep⟩,
      if note ≠ midiInvalidNote then [midiSendNoteoff channel note velocity] else [], false⟩

/-- {lit}`process_midi` -/
def processMidi (s : State) (keycode : ℕ) (pressed : Bool) : Result :=
  if midiToneMin ≤ keycode ∧ keycode ≤ midiToneMax then processTone s keycode pressed
  else if midiOctaveMin ≤ keycode ∧ keycode ≤ qkMidiPitchBendUp then
    ⟨⟨if pressed then s.config.change keycode else s.config, s.toneStatus,
        if keycode = qkMidiModulation then if pressed then 1 else -1 else s.modulationStep⟩,
      s.config.controls keycode pressed, false⟩
  else ⟨s, [], true⟩

/-- A key event. -/
structure Input where
  keycode : ℕ
  pressed : Bool

def step (s : State) (i : Input) : State :=
  (processMidi s i.keycode i.pressed).state

/-! ## Notes that sound -/

/-- The notes a message leaves sounding, channel and note. -/
def hear (notes : List (UInt8 × UInt8)) : Message → List (UInt8 × UInt8)
  | .noteOn channel note _ => notes ++ [(channel, note)]
  | .noteOff channel note _ => notes.erase (channel, note)
  | _ => notes

/-- The keyboard, and for each tone the notes its keys have begun and not ended. -/
structure Tracked where
  state : State
  sounding : ℕ → List (UInt8 × UInt8)

def Tracked.init : Tracked where
  state := .init
  sounding := fun _ => []

def IsTone (keycode : ℕ) : Prop :=
  midiToneMin ≤ keycode ∧ keycode ≤ midiToneMax

instance (keycode : ℕ) : Decidable (IsTone keycode) :=
  inferInstanceAs (Decidable (_ ∧ _))

def next (t : Tracked) (i : Input) : Tracked where
  state := step t.state i
  sounding :=
    if IsTone i.keycode then
      let tone := i.keycode - midiToneMin
      update t.sounding tone
        ((processMidi t.state i.keycode i.pressed).sent.foldl hear (t.sounding tone))
    else t.sounding

def Message.IsNote : Message → Prop
  | .noteOn _ _ _ | .noteOff _ _ _ => True
  | _ => False

def Message.IsNoteOff : Message → Prop
  | .noteOff _ _ _ => True
  | _ => False

/-- The note and the velocity are data bytes. -/
def Message.DataBytes : Message → Prop
  | .noteOn _ note velocity | .noteOff _ note velocity => note ≤ 127 ∧ velocity ≤ 127
  | _ => True

/-- The release of a tone ends exactly the notes of that tone, on their channels, and nothing
else ends a note. -/
def Balanced (t : Tracked) (i : Input) (sent : List Message) : Prop :=
  if IsTone i.keycode then
    if i.pressed then ∀ m ∈ sent, ¬ m.IsNoteOff
    else sent = (t.sounding (i.keycode - midiToneMin)).map fun note =>
      .noteOff note.1 note.2 (.ofNat t.state.config.velocity &&& 0x7F)
  else ∀ m ∈ sent, ¬ m.IsNote

def Right (t : Tracked) (i : Input) : Prop :=
  let sent := (processMidi t.state i.keycode i.pressed).sent
  (∀ m ∈ sent, m.DataBytes) ∧ Balanced t i sent

/-- The key is for another channel than the one in use. -/
def MidiConfig.ChangesChannel (m : MidiConfig) (keycode : ℕ) : Prop :=
  (midiChannelMin ≤ keycode ∧ keycode ≤ midiChannelMax ∧ keycode - midiChannelMin ≠ m.channel) ∨
    keycode = qkMidiChannelDown ∨ keycode = qkMidiChannelUp

/-- The channel is not changed while a tone sounds, and no silent tone is pressed that would be
one step below the lowest note. -/
def Meets (s : State) (i : Input) : Prop :=
  if IsTone i.keycode then
    i.pressed = true → s.toneStatus (i.keycode - midiToneMin) = midiInvalidNote →
      12 * s.config.octave + (i.keycode - midiToneMin : ℕ) + s.config.transpose ≠ -1
  else
    i.pressed = true → s.config.ChangesChannel i.keycode →
      ∀ tone < midiToneCount, s.toneStatus tone = midiInvalidNote

/-! ## The configuration -/

/-- The ranges the keys keep. -/
structure MidiConfig.InRange (m : MidiConfig) : Prop where
  octave_le : m.octave ≤ 9
  transpose_ge : -6 ≤ m.transpose
  transpose_le : m.transpose ≤ 6
  channel_lt : m.channel < 16

theorem inRange_init : State.init.config.InRange :=
  ⟨by decide, by decide, by decide, by decide⟩

theorem changeOctave_le {octave : ℕ} (h : octave ≤ 9) (keycode : ℕ) :
    changeOctave octave keycode ≤ 9 := by
  have hmin : midiOctaveMin = 0x714B := rfl
  have hmax : midiOctaveMax = 0x7154 := rfl
  unfold changeOctave
  split_ifs <;> omega

/-- Nothing is lost in the four bits of the transposition. -/
theorem bmod_eq_of_range {t : ℤ} (hge : -8 ≤ t) (hle : t ≤ 7) : t.bmod 16 = t := by
  rw [Int.bmod_def]
  split_ifs <;> omega

theorem changeTranspose_range {transpose : ℤ} (hge : -6 ≤ transpose) (hle : transpose ≤ 6)
    (keycode : ℕ) :
    -6 ≤ changeTranspose transpose keycode ∧ changeTranspose transpose keycode ≤ 6 := by
  have hmin : midiTransposeMin = 0x7157 := rfl
  have hzero : qkMidiTranspose0 = 0x715D := rfl
  have hmax : midiTransposeMax = 0x7163 := rfl
  have hup : (transpose + 1).bmod 16 = transpose + 1 := bmod_eq_of_range (by omega) (by omega)
  unfold changeTranspose
  rw [hup]
  split_ifs with hset hdown hup hsign
  · rw [bmod_eq_of_range (by omega) (by omega)]
    omega
  · rw [bmod_eq_of_range (by omega) (by omega)]
    omega
  · omega
  · omega
  · omega

theorem changeChannel_lt {channel : ℕ} (h : channel < 16) (keycode : ℕ) :
    changeChannel channel keycode < 16 := by
  unfold changeChannel
  split_ifs <;> omega

/-- The channel changes just with a key for another one. -/
theorem changeChannel_eq_iff {m : MidiConfig} (h : m.channel < 16) (keycode : ℕ) :
    changeChannel m.channel keycode = m.channel ↔ ¬ m.ChangesChannel keycode := by
  have hmin : midiChannelMin = 0x7173 := rfl
  have hmax : midiChannelMax = 0x7182 := rfl
  have hdown : qkMidiChannelDown = 0x7183 := rfl
  have hup : qkMidiChannelUp = 0x7184 := rfl
  unfold changeChannel MidiConfig.ChangesChannel
  split_ifs <;> omega

theorem inRange_change {m : MidiConfig} (h : m.InRange) (keycode : ℕ) :
    (m.change keycode).InRange :=
  ⟨changeOctave_le h.octave_le keycode,
    (changeTranspose_range h.transpose_ge h.transpose_le keycode).1,
    (changeTranspose_range h.transpose_ge h.transpose_le keycode).2,
    changeChannel_lt h.channel_lt keycode⟩

/-- The note of a tone is the invalid one just one step below the lowest. -/
theorem computeNote_eq_invalid_iff {m : MidiConfig} (h : m.InRange) {keycode : ℕ}
    (htone : IsTone keycode) :
    m.computeNote keycode = midiInvalidNote ↔
      12 * m.octave + (keycode - midiToneMin : ℕ) + m.transpose = -1 := by
  obtain ⟨hoctave, hge, hle, -⟩ := h
  obtain ⟨hmin, hmax⟩ := htone
  have htop : keycode - midiToneMin ≤ 71 := by
    simp only [midiToneMin, midiToneMax] at hmin hmax ⊢
    omega
  unfold MidiConfig.computeNote midiInvalidNote
  generalize hsum : (12 * (m.octave : ℤ) + (keycode - midiToneMin : ℕ) + m.transpose) = sum
  have hnat : (UInt8.ofInt sum).toNat = (sum % 256).toNat := by
    simp only [UInt8.ofInt, UInt8.toNat_ofNat']
    omega
  rw [← UInt8.toNat_inj, hnat]
  have h255 : UInt8.toNat 0xFF = 255 := rfl
  rw [h255]
  omega

/-! ## Steps -/

/-- The bits of the channel. -/
def MidiConfig.channelBits (m : MidiConfig) : UInt8 :=
  .ofNat m.channel &&& 0x0F

/-- A tone is silent, or one note of it sounds, on the channel in use. -/
def Tracked.ToneOk (t : Tracked) (tone : ℕ) : Prop :=
  if t.state.toneStatus tone = midiInvalidNote then t.sounding tone = []
  else t.sounding tone = [(t.state.config.channelBits, t.state.toneStatus tone &&& 0x7F)]

structure Tracked.Ok (t : Tracked) : Prop where
  inRange : t.state.config.InRange
  tones : ∀ tone < midiToneCount, t.ToneOk tone

theorem ok_init : Tracked.init.Ok where
  inRange := inRange_init
  tones := fun _ _ => rfl

theorem tone_lt {keycode : ℕ} (h : IsTone keycode) : keycode - midiToneMin < midiToneCount := by
  obtain ⟨hmin, hmax⟩ := h
  simp only [midiToneMin, midiToneMax, midiToneCount] at hmin hmax ⊢
  omega

theorem and_low_le (x : UInt8) : x &&& 0x7F ≤ 127 := by
  rw [UInt8.le_iff_toNat_le, UInt8.toNat_and]
  exact Nat.and_le_right

theorem channelBits_ne {m m' : MidiConfig} (h : m.channel < 16) (h' : m'.channel < 16)
    (hne : m.channel ≠ m'.channel) : m.channelBits ≠ m'.channelBits := by
  have hbits : ∀ a b : Fin 16, a ≠ b →
      UInt8.ofNat a.val &&& 0x0F ≠ UInt8.ofNat b.val &&& 0x0F := by
    decide +kernel
  exact hbits ⟨m.channel, h⟩ ⟨m'.channel, h'⟩ fun heq => hne (Fin.mk.inj_iff.mp heq)

theorem processMidi_tone (s : State) {keycode : ℕ} (h : IsTone keycode) (pressed : Bool) :
    processMidi s keycode pressed = processTone s keycode pressed :=
  if_pos h

theorem controls_not_isNote (m : MidiConfig) (keycode : ℕ) (pressed : Bool) :
    ∀ msg ∈ m.controls keycode pressed, ¬ msg.IsNote := by
  intro msg hmsg
  unfold MidiConfig.controls at hmsg
  split_ifs at hmsg <;> simp only [List.mem_singleton, List.not_mem_nil] at hmsg <;>
    (try subst hmsg) <;> exact id

/-- The other keys leave the tones alone, and send no notes. -/
theorem processMidi_other (s : State) {keycode : ℕ} (h : ¬ IsTone keycode) (pressed : Bool) :
    (processMidi s keycode pressed).state.toneStatus = s.toneStatus ∧
      ∀ msg ∈ (processMidi s keycode pressed).sent, ¬ msg.IsNote := by
  have hbranch : processMidi s keycode pressed = _ := if_neg h
  rw [hbranch]
  by_cases hmidi : midiOctaveMin ≤ keycode ∧ keycode ≤ qkMidiPitchBendUp
  · rw [if_pos hmidi]
    exact ⟨rfl, controls_not_isNote s.config keycode pressed⟩
  · rw [if_neg hmidi]
    exact ⟨rfl, fun msg hmsg => absurd hmsg List.not_mem_nil⟩

/-- The other keys change the channel as their branch says. -/
theorem processMidi_other_config {s : State} (hrange : s.config.InRange) {keycode : ℕ}
    (h : ¬ IsTone keycode) (pressed : Bool) :
    (processMidi s keycode pressed).state.config.InRange ∧
      (processMidi s keycode pressed).state.config.channel =
        if pressed then changeChannel s.config.channel keycode else s.config.channel := by
  have hbranch : processMidi s keycode pressed = _ := if_neg h
  rw [hbranch]
  by_cases hmidi : midiOctaveMin ≤ keycode ∧ keycode ≤ qkMidiPitchBendUp
  · rw [if_pos hmidi]
    cases pressed with
    | true => exact ⟨inRange_change hrange keycode, rfl⟩
    | false => exact ⟨hrange, rfl⟩
  · have hnot : changeChannel s.config.channel keycode = s.config.channel := by
      rw [changeChannel_eq_iff hrange.channel_lt]
      rintro (⟨hmin, hmax, -⟩ | rfl | rfl)
      · have hle : midiOctaveMin ≤ midiChannelMin := by decide
        have hge : midiChannelMax ≤ qkMidiPitchBendUp := by decide
        exact hmidi ⟨by omega, by omega⟩
      · exact hmidi (by decide)
      · exact hmidi (by decide)
    rw [if_neg hmidi, hnot, ite_self]
    exact ⟨hrange, rfl⟩

theorem dataBytes_of_not_isNote {m : Message} (h : ¬ m.IsNote) : m.DataBytes := by
  cases m with
  | noteOn channel note velocity => exact absurd trivial h
  | noteOff channel note velocity => exact absurd trivial h
  | cc channel num val => trivial
  | pitchbend channel low high => trivial

/-- With another channel in use, no tone may sound. -/
theorem toneOk_of_config {t t' : Tracked} {tone : ℕ} (h : t.ToneOk tone)
    (hstatus : t'.state.toneStatus tone = t.state.toneStatus tone)
    (hsounding : t'.sounding tone = t.sounding tone)
    (hchannel : t'.state.config.channel = t.state.config.channel ∨
      t.state.toneStatus tone = midiInvalidNote) : t'.ToneOk tone := by
  unfold Tracked.ToneOk at h ⊢
  rw [hstatus, hsounding]
  rcases hchannel with hsame | hsilent
  · unfold MidiConfig.channelBits at h ⊢
    rw [hsame]
    exact h
  · rw [if_pos hsilent] at h ⊢
    exact h

/-- The three things a tone key does. -/
theorem processMidi_press {s : State} {keycode : ℕ} (h : IsTone keycode)
    (hsilent : s.toneStatus (keycode - midiToneMin) = midiInvalidNote) :
    processMidi s keycode true =
      ⟨⟨s.config, update s.toneStatus (keycode - midiToneMin) (s.config.computeNote keycode),
          s.modulationStep⟩,
        [midiSendNoteon (.ofNat s.config.channel) (s.config.computeNote keycode)
          (.ofNat s.config.velocity)], false⟩ := by
  rw [processMidi_tone s h]
  exact if_pos hsilent

theorem processMidi_press_again {s : State} {keycode : ℕ} (h : IsTone keycode)
    (hsounds : s.toneStatus (keycode - midiToneMin) ≠ midiInvalidNote) :
    processMidi s keycode true = ⟨s, [], false⟩ := by
  rw [processMidi_tone s h]
  exact if_neg hsounds

theorem processMidi_release {s : State} {keycode : ℕ} (h : IsTone keycode) :
    processMidi s keycode false =
      ⟨⟨s.config, update s.toneStatus (keycode - midiToneMin) midiInvalidNote,
          s.modulationStep⟩,
        if s.toneStatus (keycode - midiToneMin) ≠ midiInvalidNote then
          [midiSendNoteoff (.ofNat s.config.channel) (s.toneStatus (keycode - midiToneMin))
            (.ofNat s.config.velocity)]
        else [], false⟩ :=
  processMidi_tone s h false

theorem next_sounding {t : Tracked} {keycode : ℕ} (h : IsTone keycode) (pressed : Bool) :
    (next t ⟨keycode, pressed⟩).sounding =
      update t.sounding (keycode - midiToneMin)
        ((processMidi t.state keycode pressed).sent.foldl hear
          (t.sounding (keycode - midiToneMin))) :=
  if_pos h

/-- A key of a tone concerns no other tone. -/
theorem toneOk_of_other {t : Tracked} {keycode : ℕ} (h : IsTone keycode) (pressed : Bool)
    {tone : ℕ} (hne : tone ≠ keycode - midiToneMin) (hok : t.ToneOk tone) :
    (next t ⟨keycode, pressed⟩).ToneOk tone := by
  have hsounding : (next t ⟨keycode, pressed⟩).sounding tone = t.sounding tone := by
    rw [next_sounding h, update_of_ne hne]
  cases pressed with
  | false =>
    refine toneOk_of_config hok ?_ hsounding (.inl ?_)
    · simp only [next, step, processMidi_release h, update_of_ne hne]
    · simp only [next, step, processMidi_release h]
  | true =>
    by_cases hsilent : t.state.toneStatus (keycode - midiToneMin) = midiInvalidNote
    · refine toneOk_of_config hok ?_ hsounding (.inl ?_)
      · simp only [next, step, processMidi_press h hsilent, update_of_ne hne]
      · simp only [next, step, processMidi_press h hsilent]
    · refine toneOk_of_config hok ?_ hsounding (.inl ?_)
      · simp only [next, step, processMidi_press_again h hsilent]
      · simp only [next, step, processMidi_press_again h hsilent]

theorem config_tone (s : State) {keycode : ℕ} (h : IsTone keycode) (pressed : Bool) :
    (processMidi s keycode pressed).state.config = s.config := by
  rw [processMidi_tone s h]
  unfold processTone
  dsimp only
  split_ifs <;> rfl

/-- The tone of the key itself. -/
theorem toneOk_own {t : Tracked} {keycode : ℕ} {pressed : Bool} (h : IsTone keycode)
    (hok : t.ToneOk (keycode - midiToneMin))
    (hnote : pressed = true → t.state.toneStatus (keycode - midiToneMin) = midiInvalidNote →
      t.state.config.computeNote keycode ≠ midiInvalidNote) :
    (next t ⟨keycode, pressed⟩).ToneOk (keycode - midiToneMin) := by
  unfold Tracked.ToneOk at hok ⊢
  rw [next_sounding h, update_self]
  by_cases hsilent : t.state.toneStatus (keycode - midiToneMin) = midiInvalidNote
  · rw [if_pos hsilent] at hok
    cases pressed with
    | false =>
      simp only [next, step, processMidi_release h, update_self, if_true, hsilent, hok]
      rfl
    | true =>
      simp only [next, step, processMidi_press h hsilent, update_self, hok]
      rw [if_neg (hnote rfl hsilent)]
      rfl
  · rw [if_neg hsilent] at hok
    cases pressed with
    | false =>
      simp only [next, step, processMidi_release h, update_self, if_true, hok]
      have herase (x : UInt8 × UInt8) : [x].erase x = [] := by simp
      rw [if_pos hsilent]
      exact herase _
    | true =>
      simp only [next, step, processMidi_press_again h hsilent, if_neg hsilent]
      exact hok

theorem ok_next {t : Tracked} {i : Input} (h : t.Ok) (hmeets : Meets t.state i) :
    (next t i).Ok := by
  obtain ⟨keycode, pressed⟩ := i
  unfold Meets at hmeets
  dsimp only at hmeets
  by_cases htone : IsTone keycode
  · rw [if_pos htone] at hmeets
    refine ⟨?_, fun tone hlt => ?_⟩
    · have hconfig : (next t ⟨keycode, pressed⟩).state.config = t.state.config :=
        config_tone t.state htone pressed
      rw [hconfig]
      exact h.inRange
    · by_cases hown : tone = keycode - midiToneMin
      · rw [hown]
        refine toneOk_own htone (h.tones _ (tone_lt htone)) fun hpressed hsilent => ?_
        exact fun heq =>
          hmeets hpressed hsilent ((computeNote_eq_invalid_iff h.inRange htone).mp heq)
      · exact toneOk_of_other htone pressed hown (h.tones tone hlt)
  · rw [if_neg htone] at hmeets
    obtain ⟨hstatus, -⟩ := processMidi_other t.state htone pressed
    obtain ⟨hrange, hchannel⟩ := processMidi_other_config h.inRange htone pressed
    refine ⟨hrange, fun tone htone' => toneOk_of_config (h.tones tone htone')
      (congrFun hstatus tone) (congrFun (if_neg htone) tone) ?_⟩
    cases pressed with
    | false => exact .inl hchannel
    | true =>
      by_cases hchange : t.state.config.ChangesChannel keycode
      · exact .inr (hmeets rfl hchange tone htone')
      · have hsame := (changeChannel_eq_iff h.inRange.channel_lt keycode).mpr hchange
        exact .inl (hchannel.trans hsame)

/-- A key of a tone that is in order. -/
theorem right_of_tone {t : Tracked} {keycode : ℕ} {pressed : Bool} (h : IsTone keycode)
    (hok : t.ToneOk (keycode - midiToneMin)) : Right t ⟨keycode, pressed⟩ := by
  unfold Right Balanced
  dsimp only
  rw [if_pos h]
  unfold Tracked.ToneOk at hok
  cases pressed with
  | true =>
    by_cases hsilent : t.state.toneStatus (keycode - midiToneMin) = midiInvalidNote
    · rw [processMidi_press h hsilent]
      refine ⟨fun msg hmsg => ?_, fun msg hmsg => ?_⟩
      · rw [List.mem_singleton.mp hmsg]
        exact ⟨and_low_le _, and_low_le _⟩
      · rw [List.mem_singleton.mp hmsg]
        exact id
    · rw [processMidi_press_again h hsilent]
      exact ⟨fun msg hmsg => absurd hmsg List.not_mem_nil,
        fun msg hmsg => absurd hmsg List.not_mem_nil⟩
  | false =>
    rw [processMidi_release h]
    by_cases hsilent : t.state.toneStatus (keycode - midiToneMin) = midiInvalidNote
    · rw [if_pos hsilent] at hok
      simp only [hsilent, hok]
      exact ⟨fun msg hmsg => absurd hmsg List.not_mem_nil, rfl⟩
    · rw [if_neg hsilent] at hok
      simp only [hok, if_pos hsilent, ne_eq]
      refine ⟨fun msg hmsg => ?_, rfl⟩
      rw [List.mem_singleton.mp hmsg]
      exact ⟨and_low_le _, and_low_le _⟩

theorem right_of_ok {t : Tracked} {i : Input} (h : t.Ok) : Right t i := by
  obtain ⟨keycode, pressed⟩ := i
  by_cases htone : IsTone keycode
  · exact right_of_tone htone (h.tones _ (tone_lt htone))
  · obtain ⟨-, hsent⟩ := processMidi_other t.state htone pressed
    refine ⟨fun msg hmsg => dataBytes_of_not_isNote (hsent msg hmsg), ?_⟩
    unfold Balanced
    rw [if_neg htone]
    exact hsent

/-- The release of a tone. -/
def release (tone : Fin midiToneCount) : Input where
  keycode := midiToneMin + tone
  pressed := false

instance : Nonempty (Fin midiToneCount) :=
  ⟨⟨0, by decide⟩⟩

theorem isTone_release (tone : Fin midiToneCount) : IsTone (release tone).keycode := by
  have hlt := tone.isLt
  simp only [IsTone, release, midiToneMin, midiToneMax, midiToneCount] at hlt ⊢
  omega

theorem tone_release (tone : Fin midiToneCount) :
    (release tone).keycode - midiToneMin = tone :=
  Nat.add_sub_cancel_left _ _

/-- A release that is right ends what sounds. -/
theorem right_release_iff {t : Tracked} {tone : Fin midiToneCount}
    (h : Right t (release tone)) :
    (if t.state.toneStatus tone ≠ midiInvalidNote then
        [midiSendNoteoff (.ofNat t.state.config.channel) (t.state.toneStatus tone)
          (.ofNat t.state.config.velocity)]
      else []) =
      (t.sounding tone).map fun note =>
        .noteOff note.1 note.2 (.ofNat t.state.config.velocity &&& 0x7F) := by
  have hbalanced := h.2
  unfold Balanced at hbalanced
  have hreleased : (release tone).pressed = false := rfl
  rw [if_pos (isTone_release tone), hreleased, if_neg Bool.false_ne_true,
    processMidi_release (isTone_release tone), tone_release] at hbalanced
  exact hbalanced

/-- A tone that would be left sounding shows when its key is released. -/
theorem meets_of_right {t : Tracked} {i : Input} (h : t.Ok)
    (hrelease : ∀ tone, Right (next t i) (release tone)) : Meets t.state i := by
  obtain ⟨keycode, pressed⟩ := i
  unfold Meets
  dsimp only
  by_cases htone : IsTone keycode
  · rw [if_pos htone]
    intro hpressed hsilent hsum
    have hinvalid := (computeNote_eq_invalid_iff h.inRange htone).mpr hsum
    subst hpressed
    have hright := right_release_iff (hrelease ⟨keycode - midiToneMin, tone_lt htone⟩)
    have hown := h.tones _ (tone_lt htone)
    unfold Tracked.ToneOk at hown
    rw [if_pos hsilent] at hown
    have hstatus : (next t ⟨keycode, true⟩).state.toneStatus (keycode - midiToneMin) =
        midiInvalidNote := by
      simp only [next, step, processMidi_press htone hsilent, update_self, hinvalid]
    rw [hstatus, next_sounding htone, processMidi_press htone hsilent, update_self, hown,
      if_neg (not_not.mpr rfl)] at hright
    exact absurd hright (List.cons_ne_nil _ _).symm
  · rw [if_neg htone]
    intro hpressed hchange tone hlt
    subst hpressed
    by_contra hsounds
    obtain ⟨hstatus, -⟩ := processMidi_other t.state htone true
    obtain ⟨hrange, hchannel⟩ := processMidi_other_config h.inRange htone true
    have hright := right_release_iff (hrelease ⟨tone, hlt⟩)
    have hown := h.tones tone hlt
    unfold Tracked.ToneOk at hown
    rw [if_neg hsounds] at hown
    have hsounding : (next t ⟨keycode, true⟩).sounding = t.sounding := if_neg htone
    have hstatus' : (next t ⟨keycode, true⟩).state.toneStatus = t.state.toneStatus := hstatus
    rw [hsounding, hstatus', if_pos hsounds, hown] at hright
    have hbits : (next t ⟨keycode, true⟩).state.config.channelBits =
        t.state.config.channelBits :=
      (Message.noteOff.inj (List.cons.inj hright).1).1
    refine channelBits_ne hrange.channel_lt h.inRange.channel_lt ?_ hbits
    rw [hchannel]
    exact fun heq => (changeChannel_eq_iff h.inRange.channel_lt keycode).mp heq hchange

/-- Every note and velocity is a data byte, every note that was begun is ended once, as it was
begun, when a key of its tone is released after any part of the run, and no other note is ended,
if and only if the channel is not changed while a tone sounds, and no silent tone is pressed
one step below the lowest note. -/
theorem balanced_iff (is : List Input) :
    Along next (fun t i => Meets t.state i) .init is ↔
      ∀ js, js <+: is → ∀ tone, Along next Right .init (js ++ [release tone]) := by
  refine along_iff_probes Tracked.Ok release (fun _ _ => ok_next) (fun _ _ h _ => right_of_ok h)
    (fun t tone _ => ?_) (fun _ _ h _ => meets_of_right h) is ok_init
  unfold Meets
  rw [if_pos (isTone_release tone)]
  exact fun hpressed => absurd hpressed Bool.false_ne_true

/-- A note is ended on another channel; and the lowest key of the lowest octave, a semitone
down, is never ended. -/
theorem not_balanced :
    ¬ Along next Right .init
        [⟨midiToneMin + 24, true⟩, ⟨midiChannelMin + 1, true⟩, release ⟨24, by decide⟩] ∧
      ¬ Along next Right .init
        [⟨midiOctaveMin, true⟩, ⟨qkMidiTranspose0 - 1, true⟩, ⟨midiToneMin, true⟩,
          release ⟨0, by decide⟩] :=
  ⟨fun h => absurd (right_release_iff h.2.2.1) (by decide +kernel),
    fun h => absurd (right_release_iff h.2.2.2.1) (by decide +kernel)⟩

end Midi
end VialQmk
