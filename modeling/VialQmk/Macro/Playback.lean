import VialQmk.Keys.Action
import VialQmk.Vial.Keyboard

/-!
# Macros - playback

The macros stand one behind the other in their region of the EEPROM, each with a NUL at its
end, as the host has written them.  {lit}`dynamic_keymap_macro_send` skips as many NULs as
the number of the macro says and plays what follows, command by command, until it reads
another NUL where it looks for one.

A keycode beyond the modified ones goes through the whole keyboard, which may start other
macros before it returns: the one of a macro keycode, but also one that a tap dance, a combo or a
Repeat key sends.  The rest of the firmware is a parameter.

Main results:

- Definition {lit}`playRound`: one round of the playback, with the bytes it reads.
- Definition {lit}`dynamicKeymapMacroSend`: the playback of a macro.
- Definition {lit}`Firmware`: the macros that are started in the course of an act.
-/

namespace VialQmk
namespace Macro

/-! ## Strings -/

/-- {lit}`SS_QMK_PREFIX` -/
def ssQmkPrefix : UInt8 := 1
def ssTapCode : UInt8 := 1
def ssDownCode : UInt8 := 2
def ssUpCode : UInt8 := 3
def ssDelayCode : UInt8 := 4
def vialMacroExtTap : UInt8 := 5
def vialMacroExtDown : UInt8 := 6
def vialMacroExtUp : UInt8 := 7

/-- What a playback does.  {lit}`outOfTable` is a lookup behind the end of the ASCII
tables, and {lit}`waitOverflow` a delay whose digits an {lit}`int` cannot hold. -/
inductive Act
  | registerCode (keycode : ℕ)
  | unregisterCode (keycode : ℕ)
  | tapCode (keycode : ℕ)
  | tapCodeDelay (keycode : ℕ) (delay : UInt8)
  | waitMs (ms : ℕ)
  | waitOverflow
  | vialKeycodeTap (keycode : ℕ)
  | vialKeycodeDown (keycode : ℕ)
  | vialKeycodeUp (keycode : ℕ)
  | outOfTable (asciiCode : UInt8)
deriving DecidableEq

/-- The tables of {lit}`send_string.c`, which a keyboard can replace, the delays, and the largest
{lit}`int` of the processor. -/
structure Tables where
  asciiToKeycodeLut : Fin 128 → UInt8
  asciiToShiftLut : Fin 16 → UInt8
  asciiToAltgrLut : Fin 16 → UInt8
  asciiToDeadLut : Fin 16 → UInt8
  tapCodeDelay : UInt8
  dynamicKeymapMacroDelay : UInt8
  intMax : ℕ

/-- The tables of {lit}`send_string.c`, where no key needs AltGr or is dead, on AVR. -/
def defaultTables : Tables where
  asciiToKeycodeLut pos := [
    0x00, 0x00, 0x00, 0x00, 0x00, 0x00, 0x00, 0x00, 0x2A, 0x2B, 0x28, 0x00, 0x00, 0x00, 0x00,
    0x00, 0x00, 0x00, 0x00, 0x00, 0x00, 0x00, 0x00, 0x00, 0x00, 0x00, 0x00, 0x29, 0x00, 0x00,
    0x00, 0x00, 0x2C, 0x1E, 0x34, 0x20, 0x21, 0x22, 0x24, 0x34, 0x26, 0x27, 0x25, 0x2E, 0x36,
    0x2D, 0x37, 0x38, 0x27, 0x1E, 0x1F, 0x20, 0x21, 0x22, 0x23, 0x24, 0x25, 0x26, 0x33, 0x33,
    0x36, 0x2E, 0x37, 0x38, 0x1F, 0x04, 0x05, 0x06, 0x07, 0x08, 0x09, 0x0A, 0x0B, 0x0C, 0x0D,
    0x0E, 0x0F, 0x10, 0x11, 0x12, 0x13, 0x14, 0x15, 0x16, 0x17, 0x18, 0x19, 0x1A, 0x1B, 0x1C,
    0x1D, 0x2F, 0x31, 0x30, 0x23, 0x2D, 0x35, 0x04, 0x05, 0x06, 0x07, 0x08, 0x09, 0x0A, 0x0B,
    0x0C, 0x0D, 0x0E, 0x0F, 0x10, 0x11, 0x12, 0x13, 0x14, 0x15, 0x16, 0x17, 0x18, 0x19, 0x1A,
    0x1B, 0x1C, 0x1D, 0x2F, 0x31, 0x30, 0x35, 0x4C].get (pos.cast rfl)
  asciiToShiftLut i := [
    0x00, 0x00, 0x00, 0x00, 0x7E, 0x0F, 0x00, 0xD4, 0xFF, 0xFF, 0xFF, 0xC7, 0x00, 0x00, 0x00,
    0x78].get (i.cast rfl)
  asciiToAltgrLut _ := 0
  asciiToDeadLut _ := 0
  tapCodeDelay := 0
  dynamicKeymapMacroDelay := 0
  intMax := 32767

/-- {lit}`PGM_LOADBIT` -/
def pgmLoadBit (mem : Fin 16 → UInt8) (pos : Fin 128) : Bool :=
  (mem ⟨pos / 8, by omega⟩ >>> UInt8.ofNat (pos % 8)) &&& 0x01 ≠ 0

variable (t : Tables)

/-- {lit}`send_char_with_delay` -/
def sendCharWithDelay (asciiCode interval : UInt8) : List Act :=
  if h : asciiCode.toNat < 128 then
    let pos : Fin 128 := ⟨asciiCode.toNat, h⟩
    let isShifted := pgmLoadBit t.asciiToShiftLut pos
    let isAltgred := pgmLoadBit t.asciiToAltgrLut pos
    let isDead := pgmLoadBit t.asciiToDeadLut pos
    let wait := Act.waitMs interval.toNat
    (if isShifted then [.registerCode Keys.kcLeftShift, wait] else []) ++
      (if isAltgred then [.registerCode Keys.kcRightAlt, wait] else []) ++
      [.tapCodeDelay (t.asciiToKeycodeLut pos).toNat interval, wait] ++
      (if isAltgred then [.unregisterCode Keys.kcRightAlt, wait] else []) ++
      (if isShifted then [.unregisterCode Keys.kcLeftShift, wait] else []) ++
      if isDead then [.tapCode Keys.kcSpace, wait] else []
  else [.outOfTable asciiCode]

/-- {lit}`isdigit` -/
def isDigit (keycode : UInt8) : Bool :=
  0x30 ≤ keycode && keycode ≤ 0x39

/-- The wait of a delay.  The number has grown with each digit, so the {lit}`int` has held all
of them just if it holds the last one. -/
def delayAct (ms : ℕ) : Act :=
  if ms ≤ t.intMax then .waitMs ms else .waitOverflow

/-- {lit}`send_string_with_delay`.  Inside of a delay the first argument is the number
so far. -/
def sendStringWithDelay (interval : UInt8) : Option ℕ → List UInt8 → List Act
  | _, [] => []
  | some ms, keycode :: string =>
    if isDigit keycode then
      sendStringWithDelay interval (some (ms * 10 + (keycode.toNat - 0x30))) string
    else delayAct t ms :: .waitMs interval.toNat :: sendStringWithDelay interval none string
  | none, asciiCode :: string =>
    if asciiCode = 0 then []
    else if asciiCode = ssQmkPrefix then
      match string with
      | [] => []
      | code :: string =>
        if code = ssTapCode ∨ code = ssDownCode ∨ code = ssUpCode then
          match string with
          | [] => []
          | keycode :: string =>
            (if code = ssTapCode then .tapCode keycode.toNat
              else if code = ssDownCode then .registerCode keycode.toNat
              else .unregisterCode keycode.toNat) ::
              .waitMs interval.toNat :: sendStringWithDelay interval none string
        else if code = ssDelayCode then sendStringWithDelay interval (some 0) string
        else .waitMs interval.toNat :: sendStringWithDelay interval none string
    else sendCharWithDelay t asciiCode interval ++ sendStringWithDelay interval none string

/-! ## One round -/

/-- {lit}`decode_keycode` -/
def decodeKeycode (kc : ℕ) : ℕ :=
  if 0xFF00 < kc then (kc &&& 0xFF) <<< 8 else kc

/-- The keycode in two bytes of a macro. -/
def extKeycode (low high : UInt8) : ℕ :=
  decodeKeycode (Vial.keycode high low)

/-- The milliseconds of a delay. -/
def delayMs (d0 d1 : UInt8) : ℕ :=
  (d0.toNat - 1) + (d1.toNat - 1) * 255

/-- What a keycode with one of Vial's codes does. -/
def extAct (code : UInt8) (kc : ℕ) : Act :=
  if code = vialMacroExtTap then .vialKeycodeTap kc
  else if code = vialMacroExtDown then .vialKeycodeDown kc
  else .vialKeycodeUp kc

/-- A round of the playback: the bytes it has read, from {lit}`start` on, and what it has
done. -/
structure Round where
  start : ℕ
  length : ℕ
  acts : List Act

/-- A round of the loop in {lit}`dynamic_keymap_macro_send`, and whether another one
follows. -/
def playRound (m : Memory UInt8) (p : ℕ) : Bool × Round :=
  let data0 := m p
  if data0 = 0 then (false, ⟨p, 1, []⟩)
  else if data0 = ssQmkPrefix then
    let data1 := m (p + 1)
    if data1 = 0 then (false, ⟨p, 2, []⟩)
    else if data1 = ssTapCode ∨ data1 = ssDownCode ∨ data1 = ssUpCode then
      let data2 := m (p + 2)
      (true, ⟨p, 3,
        if data2 ≠ 0 then sendStringWithDelay t t.tapCodeDelay none [data0, data1, data2, 0]
        else []⟩)
    else if data1 = vialMacroExtTap ∨ data1 = vialMacroExtDown ∨ data1 = vialMacroExtUp then
      let data2 := m (p + 2)
      if data2 ≠ 0 then
        let data3 := m (p + 3)
        (true, ⟨p, 4, if data3 ≠ 0 then [extAct data1 (extKeycode data2 data3)] else []⟩)
      else (true, ⟨p, 3, []⟩)
    else if data1 = ssDelayCode then
      let d0 := m (p + 2)
      let d1 := m (p + 3)
      if d0 = 0 ∨ d1 = 0 then (false, ⟨p, 4, []⟩)
      else (true, ⟨p, 4, [.waitMs (delayMs d0 d1)]⟩)
    else (true, ⟨p, 2, []⟩)
  else (true, ⟨p, 1, sendStringWithDelay t t.dynamicKeymapMacroDelay none [data0, 0, 0, 0]⟩)

/-- The rounds from an address on, if the loop ends. -/
def playback (m : Memory UInt8) : ℕ → ℕ → Option (List Round)
  | 0, _ => none
  | fuel + 1, p =>
    match playRound t m p with
    | (false, round) => some [round]
    | (true, round) => (playback m fuel (p + round.length)).map (round :: ·)

/-! ## The macro -/

/-- The loop that skips {lit}`id` NULs, over the bytes from {lit}`p` to the end of the
region.  There is no result if there are not as many. -/
def skipMacros (m : Memory UInt8) : ℕ → ℕ → ℕ → Option ℕ
  | _, p, 0 => some p
  | 0, _, _ + 1 => none
  | bytes + 1, p, id + 1 => skipMacros m bytes (p + 1) (if m p = 0 then id else id + 1)

/-- The addresses read in front of the macro, and the rounds of its playback. -/
structure Playback where
  skipped : List ℕ
  rounds : List Round

variable {L : Type} (c : Vial.Config L)

/-- {lit}`dynamic_keymap_macro_send` -/
def dynamicKeymapMacroSend (m : Memory UInt8) (fuel : ℕ) (id : UInt8) : Option Playback :=
  if c.dynamicKeymapMacroCount ≤ id.toNat then some ⟨[], []⟩
  else
    let addr := c.dynamicKeymapMacroEepromAddr
    let size := c.dynamicKeymapMacroEepromSize
    let last := addr + size - 1
    if m last ≠ 0 then some ⟨[last], []⟩
    else
      match skipMacros m size addr id.toNat with
      | none => some ⟨last :: List.range' addr size, []⟩
      | some p => (playback t m fuel p).map (⟨last :: List.range' addr (p - addr), ·⟩)

/-! ## Macros that start others -/

/-- What a playback does, in its order. -/
def Playback.acts (play : Playback) : List Act :=
  play.rounds.flatMap Round.acts

/-- {lit}`QK_MODS_MAX` -/
def qkModsMax : ℕ := 0x1FFF

/-- {lit}`vial_keycode_down`, {lit}`vial_keycode_up`: the act is an event of the magic key, which
goes through {lit}`action_exec`, or two of them. -/
def Act.execs : Act → Bool
  | .vialKeycodeTap keycode | .vialKeycodeDown keycode | .vialKeycodeUp keycode =>
    qkModsMax < keycode
  | _ => false

/-- The rest of the firmware.  What it makes of an act depends on its state at the start of the
playback and on the acts since then. -/
structure Firmware (σ : Type) where
  /-- in the course of the act it starts a macro, in the state it is in by then -/
  starts : σ → List Act → Act → UInt8 → σ → Prop
  /-- it returns from the act if the macros it starts end -/
  returns : σ → List Act → Act → Prop

/-- {lit}`QK_MACRO` -/
def qkMacro : ℕ := 0x7700

/-- {lit}`QK_MACRO_MAX` -/
def qkMacroMax : ℕ := 0x777F

/-- {lit}`process_record_via`: the macro it starts. -/
def processRecordVia (keycode : ℕ) (pressed : Bool) : Option UInt8 :=
  if pressed then
    if qkMacro ≤ keycode ∧ keycode ≤ qkMacroMax then some (UInt8.ofNat (keycode - qkMacro))
    else none
  else none

end Macro
end VialQmk
