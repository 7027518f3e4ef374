import VialQmk.Library.BoundedLoop
import VialQmk.Tapping.ProcessTapping
import Mathlib.Data.Int.Notation
import Mathlib.Logic.Function.Basic

/-!
# Dynamic macros - the recorder

{lit}`process_dynamic_macro.c`: two macros share one buffer of key records, the first one
written upwards from its beginning, the second one downwards from its end.

A pointer into the buffer is an index, which may also be the one before the first element
or the one behind the last.  The playback loop hands a pointer to the stored record to
{lit}`process_record`, which may come back to {lit}`process_dynamic_macro` with it, under
whatever keycode the layers now give, and may start a playback of its own; so the
playbacks that run form a stack, and the rest of the firmware is any sequence of calls.

Main results:

- Definition {lit}`processDynamicMacro`: what one key event does.
- Definition {lit}`step`: what one call of the rest of the firmware does.
-/

namespace VialQmk
namespace DynamicMacro

open Tapping (KeyRecord)

variable {K : Type}

/-! ## State -/

/-- The two macros, {lit}`macro_id` 1 and 2. -/
inductive Slot
  | one | two
deriving DecidableEq

namespace Slot

/-- Which way the buffer is iterated. -/
def direction : Slot → ℤ
  | one => 1
  | two => -1

/-- {lit}`macro_buffer` and {lit}`r_macro_buffer`, for {lit}`DYNAMIC_MACRO_SIZE` elements. -/
def macroBuffer (size : ℕ) : Slot → ℤ
  | one => 0
  | two => size - 1

def other : Slot → Slot
  | one => two
  | two => one

end Slot

/-- The local variables of a {lit}`dynamic_macro_play` whose loop has not ended. -/
structure Playback where
  macroBuffer : ℤ
  macroEnd : ℤ
  direction : ℤ
deriving DecidableEq

/-- The static variables, the playbacks that run, the innermost first, and the indices
written so far.  {lit}`macro_id` 0 is {lit}`none`. -/
structure Recorder (K : Type) where
  macroBuffer : ℤ → KeyRecord K
  macroEnd : ℤ
  rMacroEnd : ℤ
  macroPointer : ℤ
  macroId : Option Slot
  playing : List Playback
  writes : List ℤ

/-- After power-up.  {lit}`macro_pointer` is not read before a recording sets it. -/
def Recorder.initial (size : ℕ) (zero : KeyRecord K) : Recorder K where
  macroBuffer := fun _ => zero
  macroEnd := Slot.one.macroBuffer size
  rMacroEnd := Slot.two.macroBuffer size
  macroPointer := 0
  macroId := none
  playing := []
  writes := []

/-- {lit}`macro_end` or {lit}`r_macro_end` -/
def Recorder.endOf (s : Recorder K) : Slot → ℤ
  | .one => s.macroEnd
  | .two => s.rMacroEnd

def Recorder.setEnd (s : Recorder K) (macroEnd : ℤ) : Slot → Recorder K
  | .one => { s with macroEnd := macroEnd }
  | .two => { s with rMacroEnd := macroEnd }

/-- Assign to an element of the buffer. -/
def Recorder.write (s : Recorder K) (i : ℤ) (record : KeyRecord K) : Recorder K :=
  { s with
    macroBuffer := Function.update s.macroBuffer i record
    writes := i :: s.writes }

/-! ## Recording and playback -/

/-- {lit}`dynamic_macro_record_start` -/
def dynamicMacroRecordStart (macroBuffer : ℤ) (s : Recorder K) : Recorder K :=
  { s with macroPointer := macroBuffer }

/-- {lit}`dynamic_macro_play`, up to the first record or the end of an empty macro. -/
def dynamicMacroPlay (macroBuffer macroEnd direction : ℤ) (s : Recorder K) : Recorder K :=
  if macroBuffer ≠ macroEnd then
    { s with playing := ⟨macroBuffer, macroEnd, direction⟩ :: s.playing }
  else s

/-- The playback loop goes on after one record. -/
def Playback.next (p : Playback) : Option Playback :=
  if p.macroBuffer + p.direction ≠ p.macroEnd then
    some { p with macroBuffer := p.macroBuffer + p.direction }
  else none

/-- {lit}`dynamic_macro_record_key` -/
def dynamicMacroRecordKey (macroBuffer macro2End direction : ℤ) (record : KeyRecord K)
    (s : Recorder K) : Recorder K :=
  if ¬ record.event.pressed ∧ s.macroPointer = macroBuffer then s
  -- the other end of the other macro is the last element it is safe to use
  else if s.macroPointer - direction ≠ macro2End then
    { s.write s.macroPointer record with macroPointer := s.macroPointer + direction }
  else s

/-- The loop of {lit}`dynamic_macro_record_end` goes on. -/
def trims (macroBuffer direction : ℤ) (s : Recorder K) (macroPointer : ℤ) : Bool :=
  macroPointer ≠ macroBuffer ∧ (s.macroBuffer (macroPointer - direction)).event.pressed

/-- {lit}`dynamic_macro_record_end`: the new end of the macro.  The loop moves back to the
base of the buffer at most. -/
def dynamicMacroRecordEnd (macroBuffer macroPointer direction : ℤ) (s : Recorder K) : ℤ :=
  BoundedLoop.run (trims macroBuffer direction s) (fun macroPointer => macroPointer - direction)
    (direction * (macroPointer - macroBuffer)).toNat macroPointer

/-- {lit}`dynamic_macro_stop_recording` -/
def dynamicMacroStopRecording (size : ℕ) (s : Recorder K) : Recorder K :=
  match s.macroId with
  | some .one =>
    { s with
      macroEnd := dynamicMacroRecordEnd (Slot.one.macroBuffer size) s.macroPointer 1 s
      macroId := none }
  | some .two =>
    { s with
      rMacroEnd := dynamicMacroRecordEnd (Slot.two.macroBuffer size) s.macroPointer (-1) s
      macroId := none }
  | none => { s with macroId := none }

/-! ## Key events -/

/-- {lit}`QK_DYNAMIC_MACRO_RECORD_START_1` -/
def qkDynamicMacroRecordStart1 : UInt16 := 0x7C53
/-- {lit}`QK_DYNAMIC_MACRO_RECORD_START_2` -/
def qkDynamicMacroRecordStart2 : UInt16 := 0x7C54
/-- {lit}`QK_DYNAMIC_MACRO_RECORD_STOP` -/
def qkDynamicMacroRecordStop : UInt16 := 0x7C55
/-- {lit}`QK_DYNAMIC_MACRO_PLAY_1` -/
def qkDynamicMacroPlay1 : UInt16 := 0x7C56
/-- {lit}`QK_DYNAMIC_MACRO_PLAY_2` -/
def qkDynamicMacroPlay2 : UInt16 := 0x7C57

/-- The build: {lit}`DYNAMIC_MACRO_SIZE`, and whether {lit}`DYNAMIC_MACRO_NO_NESTING` is
defined. -/
structure Build where
  size : ℕ
  noNesting : Bool

/-- {lit}`process_dynamic_macro`, with the answer of {lit}`dynamic_macro_valid_key_user`,
and whether the key is processed further. -/
def processDynamicMacro (build : Build) (keycode : UInt16) (record : KeyRecord K) (valid : Bool)
    (s : Recorder K) : Recorder K × Bool :=
  match s.macroId with
  | none =>
    if ¬ record.event.pressed then
      if keycode = qkDynamicMacroRecordStart1 then
        ({ dynamicMacroRecordStart (Slot.one.macroBuffer build.size) s with
          macroId := some .one }, false)
      else if keycode = qkDynamicMacroRecordStart2 then
        ({ dynamicMacroRecordStart (Slot.two.macroBuffer build.size) s with
          macroId := some .two }, false)
      else if keycode = qkDynamicMacroPlay1 then
        (dynamicMacroPlay (Slot.one.macroBuffer build.size) s.macroEnd 1 s, false)
      else if keycode = qkDynamicMacroPlay2 then
        (dynamicMacroPlay (Slot.two.macroBuffer build.size) s.rMacroEnd (-1) s, false)
      else (s, true)
    else (s, true)
  | some slot =>
    if keycode = qkDynamicMacroRecordStart1 ∨ keycode = qkDynamicMacroRecordStart2 ∨
        keycode = qkDynamicMacroRecordStop then
      -- the release just after the start is ignored for {lit}`DM_RSTP`
      if xor record.event.pressed (keycode ≠ qkDynamicMacroRecordStop) then
        (dynamicMacroStopRecording build.size s, false)
      else (s, false)
    else if build.noNesting ∧ (keycode = qkDynamicMacroPlay1 ∨ keycode = qkDynamicMacroPlay2) then
      (s, false)
    else if valid then
      match slot with
      | .one =>
        (dynamicMacroRecordKey (Slot.one.macroBuffer build.size) s.rMacroEnd 1 record s, true)
      | .two =>
        (dynamicMacroRecordKey (Slot.two.macroBuffer build.size) s.macroEnd (-1) record s, true)
    else (s, true)

/-! ## The rest of the firmware -/

/-- What the rest of the firmware does.  {lit}`replay`, {lit}`releaseOneshot`,
{lit}`cancelTap`, {lit}`resetTap` and {lit}`next` belong to the innermost playback. -/
inductive Call (K : Type)
  /-- {lit}`process_dynamic_macro` on a record outside the buffer. -/
  | key (keycode : UInt16) (record : KeyRecord K) (valid : Bool)
  /-- {lit}`process_dynamic_macro` on the record that is played. -/
  | replay (keycode : UInt16) (valid : Bool)
  /-- {lit}`process_action` ends a one-shot layer with this press, and turns the record
  into a release. -/
  | releaseOneshot
  /-- {lit}`process_action` cancels the tap of a mod-tap key that was interrupted. -/
  | cancelTap
  /-- {lit}`process_action` resets the record to a zero record when a swap-hands
  key that was tapped is released. -/
  | resetTap (zero : KeyRecord K)
  /-- {lit}`process_record` returns, and the loop goes on. -/
  | next
  /-- {lit}`dynamic_macro_stop_recording`, called by the keyboard. -/
  | stopRecording

/-- The record that is played, after {lit}`process_action` wrote through its pointer. -/
def Call.rewritten : Call K → KeyRecord K → KeyRecord K
  | .releaseOneshot, r => { r with event := { r.event with pressed := false } }
  | .cancelTap, r => { r with tap := { r.tap with count := 0 } }
  | .resetTap zero, _ => zero
  | _, r => r

/-- One call.  Without a playback there is no record that is played. -/
def step (build : Build) (s : Recorder K) (call : Call K) : Recorder K :=
  match call, s.playing with
  | .key keycode record valid, _ => (processDynamicMacro build keycode record valid s).1
  | .stopRecording, _ => dynamicMacroStopRecording build.size s
  | .replay keycode valid, p :: _ =>
    (processDynamicMacro build keycode (s.macroBuffer p.macroBuffer) valid s).1
  | .releaseOneshot, p :: _ =>
    s.write p.macroBuffer (Call.releaseOneshot.rewritten (s.macroBuffer p.macroBuffer))
  | .cancelTap, p :: _ =>
    s.write p.macroBuffer (Call.cancelTap.rewritten (s.macroBuffer p.macroBuffer))
  | .resetTap zero, p :: _ =>
    s.write p.macroBuffer ((Call.resetTap zero).rewritten (s.macroBuffer p.macroBuffer))
  | .next, p :: playing => { s with playing := p.next.toList ++ playing }
  | _, [] => s

end DynamicMacro
end VialQmk
