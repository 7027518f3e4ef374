import Mathlib.Data.Int.Notation
import Mathlib.Tactic.Common

/-!
# Stenography keys

{lit}`process_steno.c` with {lit}`VIRTSER_ENABLE` and the default hooks.  The keys of a stroke are
collected in a chord, which is sent when no key is held any more.

Main results:

- Definition {lit}`processSteno`: one key event.
- Definition {lit}`keyBits`: where a key is in the chord.
-/

namespace VialQmk
namespace Steno

/-! ## The build -/

inductive StenoMode
  | gemini
  | bolt
deriving DecidableEq

/-- {lit}`STENO_ENABLE_ALL`, {lit}`STENO_ENABLE_GEMINI` or {lit}`STENO_ENABLE_BOLT` -/
inductive Enabled
  | all
  | only (mode : StenoMode)
deriving DecidableEq

structure Build where
  enabled : Enabled
  /-- {lit}`STENO_COMBINEDMAP` -/
  combinedMap : Bool
  /-- {lit}`__AVR__`, where {lit}`PROGMEM` is an address space of its own -/
  avr : Bool

/-- The build has the mode. -/
def Build.Has (b : Build) (mode : StenoMode) : Prop :=
  b.enabled = .all ∨ b.enabled = .only mode

def boltStrokeSize : ℕ := 4
def geminiStrokeSize : ℕ := 6

/-- {lit}`MAX_STROKE_SIZE` -/
def Build.maxStrokeSize (b : Build) : ℕ :=
  if b.enabled = .only .bolt then boltStrokeSize else geminiStrokeSize

/-! ## Keycodes -/

def qkSteno : ℕ := 0x74C0
def qkStenoMax : ℕ := 0x74FF
def stnMin : ℕ := 0x74C0
def stnMax : ℕ := 0x74E9
def qkStenoBolt : ℕ := 0x74F0
def qkStenoGemini : ℕ := 0x74F1
def qkStenoComb : ℕ := 0x74F2
def qkStenoCombMax : ℕ := 0x74FC

/-- The keycodes from {lit}`STN_FN` to {lit}`STN_ZR` by their number, for {lit}`STN_S1`,
{lit}`STN_TL`, {lit}`STN_PL`, {lit}`STN_HL`, {lit}`STN_FR`, {lit}`STN_PR`, {lit}`STN_LR`,
{lit}`STN_TR`, {lit}`STN_DR`, {lit}`STN_A` and {lit}`STN_E` -/
def combinedmapFirst : List ℕ :=
  [7, 9, 11, 13, 26, 28, 30, 32, 34, 15, 24].map (qkSteno + ·)

/-- {lit}`STN_S2`, {lit}`STN_KL`, {lit}`STN_WL`, {lit}`STN_RL`, {lit}`STN_RR`, {lit}`STN_BR`,
{lit}`STN_GR`, {lit}`STN_SR`, {lit}`STN_ZR`, {lit}`STN_O` and {lit}`STN_U` -/
def combinedmapSecond : List ℕ :=
  [8, 10, 12, 14, 27, 29, 31, 33, 41, 16, 25].map (qkSteno + ·)

/-- The words at the addresses of {lit}`combinedmap_first` and {lit}`combinedmap_second` -/
structure Words where
  first : ℕ → ℕ
  second : ℕ → ℕ

/-- The two tables -/
def tables : Words :=
  ⟨fun i => combinedmapFirst.getD i 0, fun i => combinedmapSecond.getD i 0⟩

/-- What plain indexing reads.  The tables are {lit}`PROGMEM`; on AVR their addresses, taken as
addresses of data, lead to words of RAM. -/
def Build.indexed (b : Build) (ram : Words) : Words :=
  if b.avr then ram else tables

/-! ## Bytes of the keys -/

/-- {lit}`TXB_NUM` -/
def txbNum : UInt8 := 0xD0

/-- {lit}`TXB_STR` -/
def txbStr : UInt8 := 0x48

/-- {lit}`boltmap`, without the zeros at its end -/
def boltmap : List UInt8 :=
  [0x00, txbNum, txbNum, txbNum, txbNum, txbNum, txbNum, 0x01, 0x01, 0x02, 0x04, 0x08, 0x10, 0x20,
    0x41, 0x42, 0x44, txbStr, txbStr, 0x00, 0x00, 0x00, txbStr, txbStr, 0x50, 0x60, 0x81, 0x82,
    0x84, 0x88, 0x90, 0xA0, 0xC1, 0xC2, 0xC4, txbNum, txbNum, txbNum, txbNum, txbNum, txbNum, 0xC8]

/-- {lit}`TXB_GET_GROUP` -/
def txbGetGroup (code : UInt8) : ℕ :=
  ((code &&& 0xC0) >>> 6).toNat

/-- The group of a key and its bits there, in {lit}`add_gemini_key_to_chord` and
{lit}`add_bolt_key_to_chord` -/
def keyBits : StenoMode → ℕ → ℕ × UInt8
  | .gemini, key =>
    let groupIdx := key / 7
    let intraGroupIdx := key - groupIdx * 7
    (groupIdx, 1 <<< UInt8.ofNat (6 - intraGroupIdx))
  | .bolt, key =>
    let boltcode := boltmap.getD key 0
    (txbGetGroup boltcode, boltcode)

/-- {lit}`add_gemini_key_to_chord` and {lit}`add_bolt_key_to_chord` -/
def addKeyToChord (mode : StenoMode) (key : ℕ) (chord : List UInt8) : List UInt8 :=
  chord.modify (keyBits mode key).1 (· ||| (keyBits mode key).2)

/-- {lit}`send_steno_chord_gemini` and {lit}`send_steno_chord_bolt` -/
def sendStenoChord (mode : StenoMode) (chord : List UInt8) : List UInt8 :=
  match mode with
  | .gemini => (chord.modify 0 (· ||| 0x80)).take geminiStrokeSize
  | .bolt => (chord.take boltStrokeSize).filter (· ≠ 0) ++ [0]

/-! ## Key events -/

structure State where
  chord : List UInt8
  /-- {lit}`n_pressed_keys`, of 8 bits with a sign -/
  nPressedKeys : ℤ
  mode : StenoMode

/-- The parts of {lit}`keyrecord_t` that are read. -/
structure Record where
  pressed : Bool
  isNoevent : Bool

/-- The new state, the bytes that are sent, and whether the key event goes on. -/
structure Result where
  state : State
  sent : List UInt8
  goesOn : Bool

/-- {lit}`steno_clear_chord` -/
def stenoClearChord (b : Build) (s : State) : State :=
  { s with chord := List.replicate b.maxStrokeSize 0 }

/-- {lit}`steno_set_mode`, without the write to the EEPROM -/
def stenoSetMode (b : Build) (newMode : StenoMode) (s : State) : State :=
  { stenoClearChord b s with mode := newMode }

/-- The branch of {lit}`process_steno` for the keys from {lit}`STN__MIN` to {lit}`STN__MAX` -/
def processKey (b : Build) (keycode : ℕ) (pressed : Bool) (s : State) : Result :=
  if pressed then
    ⟨⟨addKeyToChord s.mode (keycode - qkSteno) s.chord, (s.nPressedKeys + 1).bmod 256, s.mode⟩,
      [], false⟩
  else
    let nPressedKeys := (s.nPressedKeys - 1).bmod 256
    if 0 < nPressedKeys then ⟨⟨s.chord, nPressedKeys, s.mode⟩, [], false⟩
    else ⟨stenoClearChord b ⟨s.chord, 0, s.mode⟩, sendStenoChord s.mode s.chord, false⟩

/-- {lit}`process_steno` for keys that are not combined ones -/
def processSingle (b : Build) (keycode : ℕ) (record : Record) (s : State) : Result :=
  if keycode < qkSteno ∨ qkStenoMax < keycode then ⟨s, [], true⟩
  else if record.isNoevent then ⟨s, [], true⟩
  else if b.enabled = .all ∧ keycode = qkStenoBolt then
    ⟨if record.pressed then stenoSetMode b .bolt s else s, [], false⟩
  else if b.enabled = .all ∧ keycode = qkStenoGemini then
    ⟨if record.pressed then stenoSetMode b .gemini s else s, [], false⟩
  else if stnMin ≤ keycode ∧ keycode ≤ stnMax then processKey b keycode record.pressed s
  else ⟨s, [], false⟩

/-- One event after the other. -/
def Result.andThen (r : Result) (next : State → Result) : Result :=
  let r' := next r.state
  ⟨r'.state, r.sent ++ r'.sent, r.goesOn && r'.goesOn⟩

/-- {lit}`process_steno`.  The tables of the combined map are indexed without
{lit}`pgm_read_word`.  There is no result where it calls itself deeper than the fuel. -/
def processSteno (b : Build) (ram : Words) (record : Record) : ℕ → ℕ → State → Option Result
  | 0, _, _ => none
  | fuel + 1, keycode, s =>
    if record.isNoevent = false ∧ b.combinedMap ∧ qkStenoComb ≤ keycode ∧
        keycode ≤ qkStenoCombMax then
      let index := keycode - qkStenoComb
      (processSteno b ram record fuel ((b.indexed ram).first index) s).bind fun r =>
        (processSteno b ram record fuel ((b.indexed ram).second index) r.state).map fun r' =>
          r.andThen fun _ => r'
    else some (processSingle b keycode record s)

end Steno
end VialQmk
