import VialQmk.Keys.Action
import Mathlib.Logic.Function.Basic

/-!
# Auto Shift - a key held long is shifted

{lit}`process_auto_shift.c`, as the QMK settings build it: the press of an auto-shifted key
is kept back until it is clear how long the key is held, and then sent with or without
shift.  One set of static variables serves all keys.  Retro Shift is off, and so is the
hold on other key press for all keys.

What is kept are the calls of {lit}`autoshift_press_user` and {lit}`autoshift_release_user`.
Weak mods, one-shot layers and the wait between press and release are left out, and so is
the timer report.

Main results:

- Definition {lit}`autoshiftEnd`: the key kept back is sent, or a release is.
- Definition {lit}`processAutoShift`, {lit}`matrixScan`: key events and the timeout.
-/

namespace VialQmk
namespace AutoShift

open Function (update)
open Keys (kcNo)

/-! ## Keycodes -/

def kcLsft : ℕ := 0xE1
def kcRsft : ℕ := 0xE5
def asDown : ℕ := 0x7C10
def asUp : ℕ := 0x7C11
def asOn : ℕ := 0x7C13
def asOff : ℕ := 0x7C14
def asTogg : ℕ := 0x7C15

/-- {lit}`IS_RETRO`: mod-tap and layer-tap keys. -/
def isRetro (keycode : ℕ) : Bool :=
  0x2000 ≤ keycode && keycode ≤ 0x4FFF

/-- {lit}`MOD_BIT(KC_LSFT)` -/
def lshift : UInt8 := 0x02

/-- {lit}`MOD_BIT(KC_RSFT)` -/
def rshift : UInt8 := 0x20

/-! ## State -/

/-- The bits of {lit}`QS.auto_shift`. -/
structure Settings where
  enable : Bool
  modifiers : Bool
  noSpecial : Bool
  noNumeric : Bool
  noAlpha : Bool
  repeats : Bool
  noAutoRepeat : Bool
deriving DecidableEq

/-- {lit}`keyrecord_t` -/
structure KeyRecord (K : Type) where
  key : K
  pressed : Bool
deriving DecidableEq

/-- {lit}`autoshift_press_user` and {lit}`autoshift_release_user` -/
inductive Call (K : Type)
  | pressUser (keycode : ℕ) (shifted : Bool) (record : Option (KeyRecord K))
  | releaseUser (keycode : ℕ) (shifted : Bool) (record : Option (KeyRecord K))
deriving DecidableEq

/-- The mods of the keyboard, and the shift keys that are held but have been taken out. -/
structure Shifts where
  mods : UInt8
  cancellingLshift : Bool
  cancellingRshift : Bool
deriving DecidableEq

/-- The static variables, the settings, the mods, and the calls made for the current event.
A zeroed record is {lit}`none`. -/
structure State (K : Type) where
  settings : Settings
  time : UInt16
  timeout : UInt16
  lastkey : ℕ
  lastrecord : Option (KeyRecord K)
  shiftStates : ℕ → Bool
  enabled : Bool
  lastshifted : Bool
  inProgress : Bool
  shifts : Shifts
  oneshotMods : UInt8
  calls : List (Call K)

/-- What the build and the keymap add. -/
structure Config where
  /-- {lit}`AUTO_SHIFT_NO_SETUP` is not defined. -/
  setup : Bool
  /-- {lit}`GET_TAPPING_TERM` -/
  tappingTerm : ℕ → UInt16

variable {K : Type} (c : Config)

/-- At startup, with the settings and the timeout as loaded. -/
def State.boot (settings : Settings) (timeout : UInt16) : State K where
  settings := settings
  time := 0
  timeout := timeout
  lastkey := kcNo
  lastrecord := none
  shiftStates := fun _ => false
  enabled := true
  lastshifted := false
  inProgress := false
  shifts := ⟨0, false, false⟩
  oneshotMods := 0
  calls := []

def State.pressUser (s : State K) (keycode : ℕ) (shifted : Bool)
    (record : Option (KeyRecord K)) : State K :=
  { s with calls := s.calls ++ [.pressUser keycode shifted record] }

def State.releaseUser (s : State K) (keycode : ℕ) (shifted : Bool)
    (record : Option (KeyRecord K)) : State K :=
  { s with calls := s.calls ++ [.releaseUser keycode shifted record] }

/-- {lit}`get_auto_shifted_key` -/
def getAutoShiftedKey (settings : Settings) (keycode : ℕ) : Bool :=
  if 0x04 ≤ keycode && keycode ≤ 0x1D then !settings.noAlpha
  else if 0x1E ≤ keycode && keycode ≤ 0x27 then !settings.noNumeric
  else if keycode = 0x2B || (0x2D ≤ keycode && keycode ≤ 0x38) || keycode = 0x64 then
    !settings.noSpecial
  else false

/-- {lit}`set_autoshift_shift_state`: keycodes count without their modifiers. -/
def State.setShiftState (s : State K) (keycode : ℕ) (shifted : Bool) : State K :=
  { s with shiftStates := update s.shiftStates (keycode % 256) shifted }

/-- {lit}`get_autoshift_shift_state` -/
def State.getShiftState (s : State K) (keycode : ℕ) : Bool :=
  s.shiftStates (keycode % 256)

/-! ## Shift keys held by the user -/

/-- The shift keys that are down are taken out of the mods. -/
def Shifts.cancel (h : Shifts) : Shifts :=
  let h := if h.mods &&& lshift ≠ 0 then
    { h with cancellingLshift := true, mods := h.mods &&& ~~~lshift } else h
  if h.mods &&& rshift ≠ 0 then
    { h with cancellingRshift := true, mods := h.mods &&& ~~~rshift } else h

/-- They are put back. -/
def Shifts.flush (h : Shifts) : Shifts :=
  let h := if h.cancellingLshift then
    { h with cancellingLshift := false, mods := h.mods ||| lshift } else h
  if h.cancellingRshift then
    { h with cancellingRshift := false, mods := h.mods ||| rshift } else h

def State.cancelShifts (s : State K) : State K :=
  { s with shifts := s.shifts.cancel }

/-- {lit}`autoshift_flush_shift` -/
def State.flushShift (s : State K) : State K :=
  { s with shifts := s.shifts.flush }

/-! ## Auto Shift -/

/-- There are mods other than the left shift. -/
def State.otherMods (s : State K) : Bool :=
  (s.shifts.mods ||| s.oneshotMods) &&& ~~~lshift ≠ 0

/-- The left shift is held, or will be applied to the next key. -/
def State.shiftHeld (s : State K) : Bool :=
  (s.shifts.mods ||| s.oneshotMods) &&& lshift ≠ 0

/-- The key is sent at once, without shift. -/
def State.sendPlain (s : State K) (keycode : ℕ) (record : KeyRecord K) : State K :=
  let s := (s.setShiftState keycode false).pressUser keycode false (some record)
  { s with oneshotMods := s.oneshotMods &&& ~~~lshift }

/-- A key tapped and then held is repeated. -/
def State.tapThenHold (s : State K) (keycode : ℕ) (now : UInt16) : Bool :=
  keycode = s.lastkey && s.settings.repeats && (!s.lastshifted || s.settings.noAutoRepeat)
    && now - s.time < c.tappingTerm s.lastkey

/-- The key is kept back. -/
def State.takeOver (s : State K) (keycode : ℕ) (now : UInt16) : State K :=
  { s with
    lastshifted := s.shiftHeld
    oneshotMods := s.oneshotMods &&& ~~~lshift
    lastkey := keycode
    time := now
    inProgress := true }

/-- {lit}`autoshift_press` -/
def autoshiftPress (s : State K) (keycode : ℕ) (now : UInt16) (record : KeyRecord K) :
    State K :=
  let s := if s.otherMods then { s with lastkey := kcNo } else s
  if s.otherMods && !s.settings.modifiers then s.sendPlain keycode record
  else
    let s := { s with lastrecord := some record }
    if s.tapThenHold c keycode now then
      s.cancelShifts.pressUser s.lastkey s.lastshifted (some record)
    else s.takeOver keycode now

/-- It is decided whether the key kept back is shifted. -/
def State.decideShift (s : State K) (now : UInt16) : State K :=
  let shifted := s.lastshifted || s.timeout ≤ now - s.time
  { s with inProgress := false, lastshifted := shifted }.setShiftState s.lastkey shifted

/-- The key kept back is sent.  The timeout leaves a key that repeats down. -/
def State.sendLastkey (s : State K) (now : UInt16) (matrixTrigger : Bool)
    (record : Option (KeyRecord K)) : State K :=
  let s := (s.decideShift now).cancelShifts
  let s := s.pressUser s.lastkey s.lastshifted record
  if matrixTrigger && s.settings.repeats && !s.settings.noAutoRepeat then s
  else { (s.releaseUser s.lastkey s.lastshifted record).flushShift with time := now }

/-- The key sent before is released. -/
def State.releaseKey (s : State K) (keycode : ℕ) (now : UInt16)
    (record : Option (KeyRecord K)) : State K :=
  let s := s.releaseUser keycode (s.getShiftState keycode) record
  let s := if keycode = s.lastkey then s.flushShift else s
  { s with time := now }

/-- {lit}`autoshift_end` -/
def autoshiftEnd (s : State K) (keycode : ℕ) (now : UInt16) (matrixTrigger : Bool)
    (record : Option (KeyRecord K)) : State K :=
  if s.inProgress && (keycode = s.lastkey || keycode = kcNo) then
    s.sendLastkey now matrixTrigger record
  else s.releaseKey keycode now record

/-- {lit}`autoshift_matrix_scan` -/
def matrixScan (s : State K) (now : UInt16) : State K :=
  if !s.settings.enable then s
  else if s.inProgress && s.timeout ≤ now - s.time then
    autoshiftEnd s s.lastkey now true s.lastrecord
  else s

/-- The keycodes that set up Auto Shift. -/
def setupKey (s : State K) (keycode : ℕ) : State K :=
  if keycode = asTogg then { s with enabled := !s.enabled }.flushShift
  else if keycode = asOn then { s with enabled := true }
  else if keycode = asOff then { s with enabled := false }.flushShift
  else if c.setup && keycode = asUp then { s with timeout := s.timeout + 5 }
  else if c.setup && keycode = asDown then { s with timeout := s.timeout - 5 }
  else s

/-- A press first settles the key kept back. -/
def finishPrevious (s : State K) (now : UInt16) : State K :=
  if s.inProgress then autoshiftEnd s kcNo now false s.lastrecord else s

/-- The press itself. -/
def pressKey (s : State K) (keycode : ℕ) (now : UInt16) (record : KeyRecord K) :
    State K × Bool :=
  let s := setupKey c s keycode
  if isRetro keycode then ({ s with lastkey := kcNo }, true)
  else if !s.enabled then (s, true)
  else if getAutoShiftedKey s.settings keycode then (autoshiftPress c s keycode now record, false)
  else ({ s with lastkey := kcNo }, true)

/-- {lit}`process_auto_shift` for a press. -/
def processPress (s : State K) (keycode : ℕ) (now : UInt16) (record : KeyRecord K) :
    State K × Bool :=
  pressKey c (finishPrevious s now) keycode now record

/-- {lit}`process_auto_shift` for a release. -/
def processRelease (s : State K) (keycode : ℕ) (now : UInt16) (record : KeyRecord K) :
    State K × Bool :=
  let s :=
    if keycode = kcLsft then { s with shifts := { s.shifts with cancellingLshift := false } }
    else if keycode = kcRsft then { s with shifts := { s.shifts with cancellingRshift := false } }
    else s
  if isRetro keycode then (s, true)
  else if !s.enabled then (s, true)
  else if getAutoShiftedKey s.settings keycode then
    (autoshiftEnd s keycode now false (some record), false)
  else (s, true)

/-- {lit}`process_auto_shift`: what is left of the state, and whether the record is processed
further. -/
def processAutoShift (s : State K) (keycode : ℕ) (now : UInt16) (record : KeyRecord K) :
    State K × Bool :=
  if !s.settings.enable then (s, true)
  else if record.pressed then processPress c s keycode now record
  else processRelease s keycode now record

/-! ## What is written -/

/-- No shift key is taken out. -/
def Shifts.Clear (h : Shifts) : Prop :=
  h.cancellingLshift = false ∧ h.cancellingRshift = false

theorem restore_shifts (mods : UInt8) :
    (mods &&& lshift ≠ 0 → mods &&& ~~~lshift ||| lshift = mods) ∧
    (mods &&& rshift ≠ 0 → mods &&& ~~~rshift ||| rshift = mods) ∧
    (mods &&& lshift ≠ 0 → mods &&& rshift ≠ 0 →
      mods &&& ~~~lshift &&& ~~~rshift ||| lshift ||| rshift = mods) ∧
    (mods &&& ~~~lshift &&& rshift ≠ 0 ↔ mods &&& rshift ≠ 0) := by
  have h : ∀ bits : BitVec 8,
      let mods := UInt8.ofBitVec bits
      (mods &&& lshift ≠ 0 → mods &&& ~~~lshift ||| lshift = mods) ∧
      (mods &&& rshift ≠ 0 → mods &&& ~~~rshift ||| rshift = mods) ∧
      (mods &&& lshift ≠ 0 → mods &&& rshift ≠ 0 →
        mods &&& ~~~lshift &&& ~~~rshift ||| lshift ||| rshift = mods) ∧
      (mods &&& ~~~lshift &&& rshift ≠ 0 ↔ mods &&& rshift ≠ 0) := by
    decide +kernel
  exact h mods.toBitVec

/-- Shift keys that are taken out for one key are put back behind it. -/
theorem cancel_flush {h : Shifts} (hclear : h.Clear) : h.cancel.flush = h := by
  obtain ⟨mods, left, right⟩ := h
  obtain ⟨rfl, rfl⟩ := hclear
  obtain ⟨hleft, hright, hboth, hiff⟩ := restore_shifts mods
  unfold Shifts.cancel Shifts.flush
  dsimp only
  by_cases hl : mods &&& lshift = 0
  · by_cases hr : mods &&& rshift = 0
    · simp [hl, hr]
    · simp [hl, hr, hright hr]
  · by_cases hr : mods &&& rshift = 0
    · have hr' : mods &&& ~~~lshift &&& rshift = 0 := by
        by_contra hne
        exact hiff.mp hne hr
      simp [hl, hr', hleft hl]
    · simp [hl, hiff.mpr hr, hboth hl hr]

theorem flush_of_clear {h : Shifts} (hclear : h.Clear) : h.flush = h := by
  simp [Shifts.flush, hclear.1, hclear.2]

variable {s : State K} {keycode : ℕ} {now : UInt16}

/-- Without repeats the key kept back goes down and up at once. -/
theorem sendLastkey_eq (hrepeat : s.settings.repeats = false) (matrixTrigger : Bool)
    (record : Option (KeyRecord K)) :
    let shifted := s.lastshifted || s.timeout ≤ now - s.time
    s.sendLastkey now matrixTrigger record =
      { s with
        time := now
        shiftStates := update s.shiftStates (s.lastkey % 256) shifted
        inProgress := false
        lastshifted := shifted
        shifts := s.shifts.cancel.flush
        calls := s.calls ++
          [.pressUser s.lastkey shifted record, .releaseUser s.lastkey shifted record] } := by
  have hkept : ¬ (matrixTrigger && s.settings.repeats && !s.settings.noAutoRepeat) = true := by
    simp [hrepeat]
  refine (if_neg hkept).trans ?_
  simp [State.decideShift, State.setShiftState, State.cancelShifts, State.pressUser,
    State.releaseUser, State.flushShift]

/-- The release of a key sent before changes no more than the time and the shift keys. -/
theorem releaseKey_eq (keycode : ℕ) (record : Option (KeyRecord K)) :
    s.releaseKey keycode now record =
      { s with
        time := now
        shifts := if keycode = s.lastkey then s.shifts.flush else s.shifts
        calls := s.calls ++ [.releaseUser keycode (s.getShiftState keycode) record] } := by
  unfold State.releaseKey
  by_cases hlast : keycode = s.lastkey
  · simp [State.releaseUser, State.flushShift, hlast]
  · simp [State.releaseUser, hlast]

/-- The setup keys leave the keys alone. -/
theorem setupKey_eq (hclear : s.shifts.Clear) (keycode : ℕ) : ∃ enabled timeout,
    setupKey c s keycode = { s with enabled := enabled, timeout := timeout } := by
  have hflush : s.shifts.flush = s.shifts := flush_of_clear hclear
  unfold setupKey
  split_ifs
  · exact ⟨!s.enabled, s.timeout, by simp [State.flushShift, hflush]⟩
  · exact ⟨true, s.timeout, rfl⟩
  · exact ⟨false, s.timeout, by simp [State.flushShift, hflush]⟩
  · exact ⟨s.enabled, s.timeout + 5, rfl⟩
  · exact ⟨s.enabled, s.timeout - 5, rfl⟩
  · exact ⟨s.enabled, s.timeout, rfl⟩

/-- What a press does when no key is kept back: it may be sent at once, or be taken over. -/
inductive PressResult (v : State K) (keycode : ℕ) (now : UInt16) (record : KeyRecord K)
    (t : State K) : Prop
  | passed (inProgress : t.inProgress = false)
      (calls : t.calls = v.calls ∨
        t.calls = v.calls ++ [.pressUser keycode false (some record)])
  | takenOver (inProgress : t.inProgress = true) (calls : t.calls = v.calls)
      (enabled : t.enabled = true) (shifted : getAutoShiftedKey v.settings keycode = true)
      (lastkey : t.lastkey = keycode) (lastshifted : t.lastshifted = v.shiftHeld)
      (time : t.time = now) (lastrecord : t.lastrecord = some record)

theorem autoshiftPress_result (hrepeat : s.settings.repeats = false)
    (hidle : s.inProgress = false) (henabled : s.enabled = true)
    (hshifted : getAutoShiftedKey s.settings keycode = true) (now : UInt16)
    (record : KeyRecord K) :
    let t := autoshiftPress c s keycode now record
    t.settings = s.settings ∧ t.shifts = s.shifts ∧ PressResult s keycode now record t := by
  have hkeeps : ∀ v : State K, v.settings = s.settings →
      ¬ v.tapThenHold c keycode now = true := by
    intro v hv
    simp [State.tapThenHold, hv, hrepeat]
  unfold autoshiftPress
  by_cases hother : s.otherMods
  · rw [if_pos hother]
    dsimp only
    split_ifs with hplain hhold
    · exact ⟨rfl, rfl, .passed hidle (.inr rfl)⟩
    · exact absurd hhold (hkeeps _ rfl)
    · exact ⟨rfl, rfl, .takenOver rfl rfl henabled hshifted rfl rfl rfl rfl⟩
  · rw [if_neg hother]
    dsimp only
    split_ifs with hplain hhold
    · exact ⟨rfl, rfl, .passed hidle (.inr rfl)⟩
    · exact absurd hhold (hkeeps _ rfl)
    · exact ⟨rfl, rfl, .takenOver rfl rfl henabled hshifted rfl rfl rfl rfl⟩

theorem pressKey_result (hrepeat : s.settings.repeats = false) (hclear : s.shifts.Clear)
    (hidle : s.inProgress = false) (keycode : ℕ) (now : UInt16) (record : KeyRecord K) :
    let t := (pressKey c s keycode now record).1
    t.settings = s.settings ∧ t.shifts = s.shifts ∧ PressResult s keycode now record t := by
  obtain ⟨enabled, timeout, hsetup⟩ := setupKey_eq c hclear keycode
  unfold pressKey
  rw [hsetup]
  dsimp only
  split_ifs with hretro henabled hshifted
  · exact ⟨rfl, rfl, .passed hidle (.inl rfl)⟩
  · exact ⟨rfl, rfl, .passed hidle (.inl rfl)⟩
  · obtain ⟨hsettings, hshifts, hresult⟩ := autoshiftPress_result c
      (s := { s with enabled := enabled, timeout := timeout }) hrepeat hidle
      (by simpa using henabled) hshifted now record
    refine ⟨hsettings, hshifts, ?_⟩
    cases hresult with
    | passed inProgress calls => exact .passed inProgress calls
    | takenOver inProgress calls enabled shifted lastkey lastshifted time lastrecord =>
      exact .takenOver inProgress calls enabled shifted lastkey lastshifted time lastrecord
  · exact ⟨rfl, rfl, .passed hidle (.inl rfl)⟩

end AutoShift
end VialQmk
