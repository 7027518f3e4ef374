import VialQmk.Library.Runs
import Mathlib.Data.Int.Notation
import Mathlib.Data.List.GetD
import Mathlib.Logic.Function.Basic

/-!
# Music mode - the sequencer

{lit}`process_music.c`: while music mode or MIDI mode is on, the modifier keys record a
sequence of notes and play it in a loop.  An access outside the sequence and a remainder by
zero have no result.

Main results:

- Definition {lit}`processMusic`: one key event.
- Definition {lit}`musicTask`: one call of the task.
- Theorem {lit}`safe_iff`: exactly those runs are safe, and play what was recorded, that never
  record a seventeenth note and never play an empty sequence.
-/

namespace VialQmk
namespace Music

open Function (update update_self update_of_ne)
open StateMachine

/-! ## The state -/

/-- {lit}`music_modes` -/
inductive Mode where
  | chromatic
  | guitar
  | violin
  | major
deriving DecidableEq

/-- {lit}`music_mode = (music_mode + 1) % NUMBER_OF_MODES` -/
def Mode.next : Mode → Mode
  | .chromatic => .guitar
  | .guitar => .violin
  | .violin => .major
  | .major => .chromatic

/-- What the keyboard is built with. -/
structure Config where
  /-- {lit}`AUDIO_ENABLE` -/
  audio : Bool
  /-- {lit}`MIDI_ENABLE` and {lit}`MIDI_BASIC` -/
  midi : Bool
  /-- {lit}`music_starting_note` -/
  startingNote : ℤ
  /-- {lit}`music_offset` -/
  offset : ℤ
  /-- {lit}`MATRIX_ROWS` -/
  rows : ℤ
  /-- {lit}`SCALE`, and what lies around it -/
  scale : ℤ → ℤ
  /-- {lit}`music_map`, if there is one -/
  musicMap : Option (ℕ → ℕ → ℕ)
  /-- {lit}`music_mask` -/
  mask : ℕ → Bool

/-- The defaults, on a matrix of four rows. -/
def Config.default : Config where
  audio := true
  midi := false
  startingNote := 0x0C
  offset := 7
  rows := 4
  scale := fun i => [0, 2, 4, 5, 7, 9, 11].getD (i % 7).toNat 0 + 12 * (i / 7)
  musicMap := none
  mask := fun keycode => keycode < 0xFF

/-- The modes that are on. -/
structure Settings where
  musicActivated : Bool
  midiActivated : Bool
  mode : Mode
deriving DecidableEq

/-- The static variables of the sequencer. -/
structure Sequencer where
  recording : Bool
  recorded : Bool
  playing : Bool
  sequence : Fin 16 → UInt8
  count : ℕ
  position : ℕ
  timer : UInt16
  interval : UInt16

structure State where
  settings : Settings
  sequencer : Sequencer

def State.boot : State where
  settings := ⟨false, false, .major⟩
  sequencer := ⟨false, false, false, fun _ => 0, 0, 0, 0, 100⟩

/-- What is asked of the synthesizers. -/
inductive Call where
  | audioNoteOn (note : UInt8)
  | audioNoteOff (note : UInt8)
  | audioAllNotesOff
  | midiNoteOn (note : UInt8)
  | midiNoteOff (note : UInt8)
  | midiAllNotesOff
deriving DecidableEq

/-- A key of the matrix, pressed or released. -/
structure KeyEvent where
  row : ℕ
  col : ℕ
  pressed : Bool

variable (c : Config)

/-- {lit}`music_noteon` -/
def noteOn (s : Settings) (note : UInt8) : List Call :=
  (if c.audio && s.musicActivated then [.audioNoteOn note] else []) ++
    if c.midi && s.midiActivated then [.midiNoteOn note] else []

/-- {lit}`music_noteoff` -/
def noteOff (s : Settings) (note : UInt8) : List Call :=
  (if c.audio && s.musicActivated then [.audioNoteOff note] else []) ++
    if c.midi && s.midiActivated then [.midiNoteOff note] else []

/-- {lit}`music_all_notes_off` -/
def allNotesOff (s : Settings) : List Call :=
  (if c.audio && s.musicActivated then [.audioAllNotesOff] else []) ++
    if c.midi && s.midiActivated then [.midiAllNotesOff] else []

/-! ## Keys -/

/-- The keys that work at any time. -/
inductive Switch where
  | musicOn
  | musicOff
  | midiOn
  | midiOff
  | modeNext
deriving DecidableEq

/-- The keys of the sequencer. -/
inductive Control where
  | startRecording
  | stop
  | startPlaying
  | faster
  | slower
deriving DecidableEq

def kcDown : ℕ := 0x51
def kcUp : ℕ := 0x52
def kcLeftCtrl : ℕ := 0xE0
def kcLeftAlt : ℕ := 0xE2
def kcLeftGui : ℕ := 0xE3
def qkMidiOn : ℕ := 0x7100
def qkMidiOff : ℕ := 0x7101
def qkMidiToggle : ℕ := 0x7102
def qkMusicOn : ℕ := 0x7490
def qkMusicOff : ℕ := 0x7491
def qkMusicToggle : ℕ := 0x7492
def qkMusicModeNext : ℕ := 0x7493

/-- The first branches of {lit}`process_music`. -/
def Settings.switchOf (s : Settings) (keycode : ℕ) : Option Switch :=
  if keycode = qkMusicOn then some .musicOn
  else if keycode = qkMusicOff then some .musicOff
  else if keycode = qkMusicToggle then
    some (if s.musicActivated then .musicOff else .musicOn)
  else if keycode = qkMidiOn then some .midiOn
  else if keycode = qkMidiOff then some .midiOff
  else if keycode = qkMidiToggle then
    some (if s.midiActivated then .midiOff else .midiOn)
  else if keycode = qkMusicModeNext then some .modeNext
  else none

/-- {lit}`music_on`, {lit}`music_off`, {lit}`midi_on`, {lit}`midi_off`,
{lit}`music_mode_cycle` -/
def Settings.switch (s : Settings) : Switch → Settings × List Call
  | .musicOn => ({ s with musicActivated := true }, [])
  | .musicOff => ({ s with musicActivated := false }, allNotesOff c s)
  | .midiOn => ({ s with midiActivated := true }, [])
  | .midiOff => ({ s with midiActivated := false }, if c.midi then [.midiAllNotesOff] else [])
  | .modeNext => ({ s with mode := s.mode.next }, allNotesOff c s)

/-- The branches for the sequencer. -/
def Sequencer.controlOf (q : Sequencer) (keycode : ℕ) : Option Control :=
  if keycode = kcLeftCtrl then some .startRecording
  else if keycode = kcLeftAlt then some .stop
  else if keycode = kcLeftGui ∧ q.recorded then some .startPlaying
  else if keycode = kcUp then some .faster
  else if keycode = kcDown then some .slower
  else none

def Sequencer.control (q : Sequencer) : Control → Sequencer
  | .startRecording =>
    { q with recording := true, recorded := false, playing := false, count := 0 }
  | .stop =>
    { q with recorded := q.recording || q.recorded, recording := false, playing := false }
  | .startPlaying => { q with recording := false, playing := true, position := 0, timer := 0 }
  | .faster => { q with interval := q.interval - 10 }
  | .slower => { q with interval := q.interval + 10 }

/-- The tempo keys leave the notes sounding. -/
def Control.calls (s : Settings) : Control → List Call
  | .faster | .slower => []
  | _ => allNotesOff c s

/-- The note of a key. -/
def noteOf (mode : Mode) (row col : ℕ) : UInt8 :=
  match c.musicMap with
  | some map =>
    let position := map row col
    if mode = .chromatic then .ofInt (c.startingNote + c.offset + 36 + position)
    else
      .ofInt (c.startingNote + c.offset + 36 + c.scale (position % 7 : ℕ) +
        (position / 7 : ℕ) * 12)
  | none =>
    match mode with
    | .chromatic => .ofInt ((c.startingNote + col + c.offset - 3) + 12 * (c.rows - row))
    | .guitar => .ofInt ((c.startingNote + col + c.offset + 32) + 5 * (c.rows - row))
    | .violin => .ofInt ((c.startingNote + col + c.offset + 32) + 7 * (c.rows - row))
    | .major => .ofInt ((c.startingNote + c.scale (col + c.offset) - 3) + 12 * (c.rows - row))

/-- Which branch a key event takes. -/
inductive Action where
  | switch (key : Switch)
  | control (key : Control)
  | press (note : UInt8)
  | release (note : UInt8)
  | ignore

def actionOf (s : State) (keycode : ℕ) (e : KeyEvent) : Action :=
  match if e.pressed then s.settings.switchOf keycode else none with
  | some key => .switch key
  | none =>
    if s.settings.musicActivated || s.settings.midiActivated then
      match if e.pressed then s.sequencer.controlOf keycode else none with
      | some key => .control key
      | none =>
        let note := noteOf c s.settings.mode e.row e.col
        if e.pressed then .press note else .release note
    else .ignore

/-- {lit}`music_sequence[i]` -/
def Sequencer.read (q : Sequencer) (i : ℤ) : Option UInt8 :=
  if h : 0 ≤ i ∧ i < 16 then some (q.sequence ⟨i.toNat, by omega⟩) else none

/-- {lit}`music_sequence[music_sequence_count] = note; music_sequence_count++;` -/
def Sequencer.append (q : Sequencer) (note : UInt8) : Option Sequencer :=
  if h : q.count < 16 then
    some { q with sequence := update q.sequence ⟨q.count, h⟩ note, count := q.count + 1 }
  else none

/-- The new state, the calls, and whether the key event goes on. -/
structure Result where
  state : State
  calls : List Call
  goesOn : Bool

/-- {lit}`process_music` -/
def processMusic (s : State) (keycode : ℕ) (e : KeyEvent) : Option Result :=
  match actionOf c s keycode e with
  | .switch key =>
    some ⟨⟨(s.settings.switch c key).1, s.sequencer⟩, (s.settings.switch c key).2, false⟩
  | .control key =>
    some ⟨⟨s.settings, s.sequencer.control key⟩, key.calls c s.settings, false⟩
  | .press note =>
    if s.sequencer.recording then
      (s.sequencer.append note).map fun q =>
        ⟨⟨s.settings, q⟩, noteOn c s.settings note, !c.mask keycode⟩
    else some ⟨s, noteOn c s.settings note, !c.mask keycode⟩
  | .release note => some ⟨s, noteOff c s.settings note, !c.mask keycode⟩
  | .ignore => some ⟨s, [], true⟩

/-! ## The task -/

/-- {lit}`(music_sequence_timer == 0) || (timer_elapsed(...) > music_sequence_interval)` -/
def Sequencer.due (q : Sequencer) (now : UInt16) : Bool :=
  q.timer == 0 || q.interval < now - q.timer

/-- The index of the note played last. -/
def Sequencer.previous (q : Sequencer) : ℤ :=
  if (q.position : ℤ) - 1 < 0 then q.position - 1 + q.count else q.position - 1

/-- {lit}`music_task` -/
def musicTask (s : State) (now : UInt16) : Option Result :=
  let q := s.sequencer
  if q.playing && q.due now then do
    let prevNote ← q.read q.previous
    let nextNote ← q.read q.position
    if q.count = 0 then none
    else
      some ⟨⟨s.settings, { q with timer := now, position := (q.position + 1) % q.count }⟩,
        noteOff c s.settings prevNote ++ noteOn c s.settings nextNote, true⟩
  else some ⟨s, [], true⟩

/-- Key events and calls of the task, in any order. -/
inductive Input where
  | key (keycode : ℕ) (e : KeyEvent)
  | task (now : UInt16)

def step (s : State) : Input → Option Result
  | .key keycode e => processMusic c s keycode e
  | .task now => musicTask c s now

/-! ## The tape -/

/-- The notes recorded since the latest start of recording, and how many the player has
played since its latest start. -/
structure Tape where
  notes : List UInt8
  played : ℕ
deriving DecidableEq

def Tape.next (s : State) (t : Tape) : Input → Tape
  | .key keycode e =>
    match actionOf c s keycode e with
    | .control .startRecording => ⟨[], 0⟩
    | .control .startPlaying => ⟨t.notes, 0⟩
    | .press note => if s.sequencer.recording then ⟨t.notes ++ [note], t.played⟩ else t
    | _ => t
  | .task now =>
    if s.sequencer.playing && s.sequencer.due now then ⟨t.notes, t.played + 1⟩ else t

/-- The note at a place of the loop. -/
def Tape.note (t : Tape) (i : ℕ) : UInt8 :=
  t.notes.getD (i % t.notes.length) 0

/-- The keyboard, and its tape beside it. -/
structure Tracked where
  state : State
  tape : Tape

def Tracked.boot : Tracked where
  state := .boot
  tape := ⟨[], 0⟩

/-- A step without a result leads nowhere. -/
def next (t : Tracked) (i : Input) : Tracked where
  state := ((step c t.state i).map Result.state).getD t.state
  tape := t.tape.next c t.state i

/-- The step has a result, and a note is played exactly as the tape goes round: the one before
it off and itself on. -/
def Right (t : Tracked) (i : Input) : Prop :=
  match i with
  | .key _ _ => (step c t.state i).isSome
  | .task now =>
    if t.state.sequencer.playing && t.state.sequencer.due now then
      t.tape.notes ≠ [] ∧ (step c t.state i).map Result.calls =
        some (noteOff c t.state.settings (t.tape.note (t.tape.played + t.tape.notes.length - 1)) ++
          noteOn c t.state.settings (t.tape.note t.tape.played))
    else (step c t.state i).map Result.calls = some []

/-- There is room for a note to be recorded, and there are notes to be played. -/
def Meets (t : Tracked) : Input → Prop
  | .key keycode e =>
    match actionOf c t.state keycode e with
    | .press _ => t.state.sequencer.recording → t.state.sequencer.count < 16
    | .control .startPlaying => 0 < t.state.sequencer.count
    | _ => True
  | .task _ => True

/-- The sequence holds the tape.  While it is played, nothing is recorded. -/
structure Sequencer.Holds (q : Sequencer) (t : Tape) : Prop where
  count_eq : q.count = t.notes.length
  count_le : q.count ≤ 16
  note_eq : ∀ i : Fin 16, i < q.count → q.sequence i = t.notes.getD i 0
  idle_of_recording : q.recording → q.recorded = false ∧ q.playing = false
  playing_pos : q.playing → 0 < q.count ∧ q.position = t.played % q.count

theorem holds_boot : State.boot.sequencer.Holds ⟨[], 0⟩ where
  count_eq := rfl
  count_le := Nat.zero_le 16
  note_eq := fun _ hi => absurd hi (Nat.not_lt_zero _)
  idle_of_recording := fun h => absurd h Bool.false_ne_true
  playing_pos := fun h => absurd h Bool.false_ne_true

/-- A note is recorded behind the others. -/
theorem Sequencer.Holds.append {q q' : Sequencer} {t : Tape} (h : q.Holds t)
    (hrecording : q.recording) {note : UInt8} (happend : q.append note = some q') :
    q'.Holds ⟨t.notes ++ [note], t.played⟩ := by
  unfold Sequencer.append at happend
  split_ifs at happend with hroom
  obtain rfl := Option.some.inj happend
  obtain ⟨hrecorded, hplaying⟩ := h.idle_of_recording hrecording
  refine ⟨?_, hroom, fun i hi => ?_, fun _ => ⟨hrecorded, hplaying⟩,
    fun hp => absurd (hplaying.symm.trans hp) Bool.false_ne_true⟩
  · rw [List.length_append, List.length_singleton, ← h.count_eq]
  · by_cases hlast : i.val = q.count
    · have hi' : i = ⟨q.count, hroom⟩ := Fin.ext hlast
      have hget : (t.notes ++ [note]).getD q.count 0 = note := by
        rw [h.count_eq]
        simp
      dsimp only
      rw [hi', update_self]
      exact hget.symm
    · have hi' : i.val < q.count := Nat.lt_of_le_of_ne (Nat.le_of_lt_succ hi) hlast
      dsimp only
      rw [update_of_ne fun heq => hlast (congrArg Fin.val heq), h.note_eq i hi']
      rw [List.getD_append _ _ _ _ (h.count_eq ▸ hi')]

/-- A read inside the sequence is one of the tape. -/
theorem Sequencer.Holds.read_eq {q : Sequencer} {t : Tape} (h : q.Holds t) {i : ℕ}
    (hi : i < q.count) : q.read i = some (t.notes.getD i 0) := by
  have hle := h.count_le
  unfold Sequencer.read
  rw [dif_pos ⟨by omega, by omega⟩]
  exact congrArg some (h.note_eq ⟨i, by omega⟩ hi)

/-- The note before is the one played last, and the last one at the first. -/
theorem Sequencer.Holds.previous_eq {q : Sequencer} {t : Tape} (h : q.Holds t)
    (hplaying : q.playing) :
    q.previous = ((t.played + q.count - 1) % q.count : ℕ) := by
  obtain ⟨hpos, hposition⟩ := h.playing_pos hplaying
  unfold Sequencer.previous
  rcases Nat.eq_zero_or_pos q.position with hzero | hsome
  · have hdvd : t.played % q.count = 0 := hposition.symm.trans hzero
    have hmod : (t.played + q.count - 1) % q.count = q.count - 1 := by
      rw [Nat.add_sub_assoc hpos, Nat.add_mod, hdvd, Nat.zero_add, Nat.mod_mod]
      exact Nat.mod_eq_of_lt (Nat.sub_lt hpos Nat.zero_lt_one)
    rw [if_pos (by omega), hmod, hzero]
    omega
  · have hlt : q.position < q.count := hposition ▸ Nat.mod_lt _ hpos
    have hmod : (t.played + q.count - 1) % q.count = q.position - 1 := by
      have hplayed : 0 < t.played := by
        rcases Nat.eq_zero_or_pos t.played with h0 | h0
        · rw [h0, Nat.zero_mod] at hposition
          omega
        · exact h0
      have hsplit : t.played + q.count - 1 =
          q.position - 1 + q.count * (t.played / q.count + 1) := by
        have hdiv := Nat.mod_add_div t.played q.count
        rw [← hposition] at hdiv
        rw [Nat.mul_add, Nat.mul_one]
        omega
      rw [hsplit, Nat.add_mul_mod_self_left]
      exact Nat.mod_eq_of_lt (by omega)
    rw [if_neg (by omega), hmod]
    omega

theorem Sequencer.Holds.control {q : Sequencer} {t : Tape} (h : q.Holds t) {key : Control}
    (hkey : key ≠ .startRecording) (hpos : key = .startPlaying → 0 < q.count) :
    (q.control key).Holds (if key = .startPlaying then ⟨t.notes, 0⟩ else t) := by
  cases key with
  | startRecording => exact absurd rfl hkey
  | stop =>
    exact ⟨h.count_eq, h.count_le, h.note_eq, fun hr => absurd hr Bool.false_ne_true,
      fun hp => absurd hp Bool.false_ne_true⟩
  | startPlaying =>
    exact ⟨h.count_eq, h.count_le, h.note_eq, fun hr => absurd hr Bool.false_ne_true,
      fun _ => ⟨hpos rfl, (Nat.zero_mod _).symm⟩⟩
  | faster => exact ⟨h.count_eq, h.count_le, h.note_eq, h.idle_of_recording, h.playing_pos⟩
  | slower => exact ⟨h.count_eq, h.count_le, h.note_eq, h.idle_of_recording, h.playing_pos⟩

/-- A recording starts with an empty tape. -/
theorem Sequencer.holds_startRecording (q : Sequencer) :
    (q.control .startRecording).Holds ⟨[], 0⟩ where
  count_eq := rfl
  count_le := Nat.zero_le 16
  note_eq := fun _ hi => absurd hi (Nat.not_lt_zero _)
  idle_of_recording := fun _ => ⟨rfl, rfl⟩
  playing_pos := fun h => absurd h Bool.false_ne_true

theorem Sequencer.Holds.advance {q : Sequencer} {t : Tape} (h : q.Holds t) (hplaying : q.playing)
    (now : UInt16) :
    Sequencer.Holds { q with timer := now, position := (q.position + 1) % q.count }
      ⟨t.notes, t.played + 1⟩ := by
  obtain ⟨hpos, hposition⟩ := h.playing_pos hplaying
  refine ⟨h.count_eq, h.count_le, h.note_eq, h.idle_of_recording, fun _ => ⟨hpos, ?_⟩⟩
  dsimp only
  rw [hposition, Nat.mod_add_mod]

/-! ## Runs -/

/-- The tape is in the sequence. -/
def Tracked.Ok (t : Tracked) : Prop :=
  t.state.sequencer.Holds t.tape

theorem ok_boot : Tracked.boot.Ok :=
  holds_boot

/-- A call of the task that is due. -/
theorem musicTask_eq {t : Tracked} (h : t.Ok) {now : UInt16}
    (hdue : (t.state.sequencer.playing && t.state.sequencer.due now) = true) :
    musicTask c t.state now = some
      ⟨⟨t.state.settings, { t.state.sequencer with
          timer := now
          position := (t.state.sequencer.position + 1) % t.state.sequencer.count }⟩,
        noteOff c t.state.settings (t.tape.note (t.tape.played + t.tape.notes.length - 1)) ++
          noteOn c t.state.settings (t.tape.note t.tape.played), true⟩ := by
  have hplaying : t.state.sequencer.playing = true := (Bool.and_eq_true_iff.mp hdue).1
  obtain ⟨hpos, hposition⟩ := h.playing_pos hplaying
  have hprev : t.state.sequencer.read t.state.sequencer.previous =
      some (t.tape.note (t.tape.played + t.tape.notes.length - 1)) := by
    rw [h.previous_eq hplaying, h.read_eq (Nat.mod_lt _ hpos), h.count_eq]
    rfl
  have hnext : t.state.sequencer.read t.state.sequencer.position =
      some (t.tape.note t.tape.played) := by
    rw [hposition, h.read_eq (Nat.mod_lt _ hpos), h.count_eq]
    rfl
  unfold musicTask
  simp only [hdue, if_true, hprev, hnext, Option.bind_eq_bind, Option.bind_some]
  rw [if_neg (Nat.ne_of_gt hpos)]

/-- A step that meets the condition keeps the tape. -/
theorem ok_next {t : Tracked} {i : Input} (h : t.Ok) (hmeets : Meets c t i) : (next c t i).Ok := by
  cases i with
  | key keycode e =>
    simp only [Meets] at hmeets
    simp only [next, Tracked.Ok, step, processMusic, Tape.next]
    cases haction : actionOf c t.state keycode e with
    | switch key => exact h
    | ignore => exact h
    | release note => exact h
    | control key =>
      rw [haction] at hmeets
      by_cases hkey : key = .startRecording
      · subst hkey
        exact Sequencer.holds_startRecording _
      · have hheld := Sequencer.Holds.control h hkey fun hplay => by
          subst hplay
          exact hmeets
        cases key with
        | startRecording => exact absurd rfl hkey
        | stop => exact hheld
        | startPlaying => exact hheld
        | faster => exact hheld
        | slower => exact hheld
    | press note =>
      rw [haction] at hmeets
      cases hrecording : t.state.sequencer.recording with
      | false => exact h
      | true =>
        have hroom := hmeets hrecording
        have happend : t.state.sequencer.append note = some _ := dif_pos hroom
        have hheld := Sequencer.Holds.append h hrecording happend
        simp only [if_true, happend, Option.map_some, Option.getD_some]
        exact hheld
  | task now =>
    simp only [next, step, Tape.next]
    by_cases hdue : (t.state.sequencer.playing && t.state.sequencer.due now) = true
    · rw [musicTask_eq c h hdue, if_pos hdue]
      exact h.advance (Bool.and_eq_true_iff.mp hdue).1 now
    · have hidle : musicTask c t.state now = some ⟨t.state, [], true⟩ := if_neg hdue
      rw [hidle, if_neg hdue]
      exact h

/-- A step that meets the condition is right. -/
theorem input_right_of_meets {t : Tracked} {i : Input} (h : t.Ok) (hmeets : Meets c t i) :
    Right c t i := by
  cases i with
  | key keycode e =>
    simp only [Meets] at hmeets
    simp only [Right, step, processMusic]
    cases haction : actionOf c t.state keycode e with
    | switch key => rfl
    | ignore => rfl
    | release note => rfl
    | control key => rfl
    | press note =>
      rw [haction] at hmeets
      cases hrecording : t.state.sequencer.recording with
      | false => rfl
      | true =>
        have happend : t.state.sequencer.append note = some _ := dif_pos (hmeets hrecording)
        simp only [if_true, happend, Option.map_some, Option.isSome_some]
  | task now =>
    simp only [Right, step]
    by_cases hdue : (t.state.sequencer.playing && t.state.sequencer.due now) = true
    · rw [if_pos hdue, musicTask_eq c h hdue]
      have hplaying : t.state.sequencer.playing = true := (Bool.and_eq_true_iff.mp hdue).1
      obtain ⟨hpos, -⟩ := h.playing_pos hplaying
      rw [h.count_eq] at hpos
      exact ⟨List.ne_nil_of_length_pos hpos, rfl⟩
    · have hidle : musicTask c t.state now = some ⟨t.state, [], true⟩ := if_neg hdue
      rw [if_neg hdue, hidle]
      rfl

/-- An empty sequence cannot be played: the task reads before its start. -/
theorem musicTask_eq_none {s : State} (hplaying : s.sequencer.playing = true)
    (hposition : s.sequencer.position = 0) (hcount : s.sequencer.count = 0) {now : UInt16}
    (hdue : s.sequencer.due now = true) : musicTask c s now = none := by
  have hprev : s.sequencer.read s.sequencer.previous = none := by
    unfold Sequencer.previous Sequencer.read
    rw [hposition, hcount]
    rfl
  unfold musicTask
  simp only [hplaying, hdue, Bool.and_self, if_true, hprev, Option.bind_eq_bind,
    Option.bind_none]

/-- After the play key the task comes at once. -/
theorem not_right_of_empty {t : Tracked} {keycode : ℕ} {e : KeyEvent}
    (haction : actionOf c t.state keycode e = .control .startPlaying)
    (hcount : t.state.sequencer.count = 0) (now : UInt16) :
    ¬ Right c (next c t (.key keycode e)) (.task now) := by
  have hnext : (next c t (.key keycode e)).state =
      ⟨t.state.settings, t.state.sequencer.control .startPlaying⟩ := by
    simp only [next, step, processMusic, haction, Option.map_some, Option.getD_some]
  have hnone : musicTask c (next c t (.key keycode e)).state now = none := by
    have hdue : (t.state.sequencer.control .startPlaying).due now = true :=
      Bool.or_eq_true_iff.mpr (.inl (beq_self_eq_true _))
    rw [hnext]
    exact musicTask_eq_none c (s := ⟨_, t.state.sequencer.control .startPlaying⟩) rfl rfl hcount
      hdue
  intro hright
  simp only [Right, step, hnone, Option.map_none] at hright
  rw [hnext] at hright
  exact absurd hright.2 (Option.some_ne_none _).symm

/-- A step that is right, and leaves the task right whenever it comes, meets the condition. -/
theorem meets_of_right {t : Tracked} {i : Input} (hright : Right c t i)
    (htask : ∀ now, Right c (next c t i) (.task now)) : Meets c t i := by
  cases i with
  | task now => trivial
  | key keycode e =>
    simp only [Right, step, processMusic] at hright
    simp only [Meets]
    cases haction : actionOf c t.state keycode e with
    | switch key => trivial
    | ignore => trivial
    | release note => trivial
    | press note =>
      intro hrecording
      rw [haction] at hright
      simp only [hrecording, if_true, Option.isSome_map, Sequencer.append] at hright
      split_ifs at hright with hroom
      · exact hroom
      · exact absurd hright Bool.false_ne_true
    | control key =>
      cases key with
      | startPlaying =>
        rcases Nat.eq_zero_or_pos t.state.sequencer.count with hempty | hpos
        · exact absurd (htask 0) (not_right_of_empty c haction hempty 0)
        · exact hpos
      | startRecording => trivial
      | stop => trivial
      | faster => trivial
      | slower => trivial

/-- The sequencer is safe and plays what was recorded, also if the task comes after any of the
steps, if and only if no step records a seventeenth note or starts to play an empty
sequence. -/
theorem safe_iff (is : List Input) :
    Along (next c) (Meets c) .boot is ↔
      ∀ js, js <+: is → ∀ now, Along (next c) (Right c) .boot (js ++ [.task now]) := by
  refine along_iff_probes Tracked.Ok Input.task (fun _ _ => ok_next c)
    (fun _ _ => input_right_of_meets c) (fun _ _ _ => ?_) (fun _ _ _ => meets_of_right c) is ok_boot
  trivial

/-- The seventeenth note does not fit, and a recording without notes cannot be played. -/
theorem not_safe :
    let press (keycode : ℕ) : Input := .key keycode ⟨1, 2, true⟩
    let start := [press qkMusicOn, press kcLeftCtrl]
    ¬ Along (next .default) (Right .default) .boot
        (start ++ List.replicate 16 (press 0x04) ++ [press 0x04]) ∧
      ¬ Along (next .default) (Right .default) .boot
        (start ++ [press kcLeftAlt, press kcLeftGui] ++ [.task 5]) := by
  refine ⟨fun h => ?_, fun h => ?_⟩
  · have hlast : (step .default _ _).isSome = true := (along_append.mp h).2.1
    exact absurd hlast (by decide +kernel)
  · have hlast := (along_append.mp h).2.1
    exact absurd hlast.1 (by decide +kernel)

end Music
end VialQmk
