import VialQmk.Library.Runs
import VialQmk.Library.Stamp
import Mathlib.Algebra.Order.Group.Unbundled.Int

/-!
# Pointing device - the automatic mouse layer

{lit}`pointing_device_auto_mouse.c` with the feature enabled: movement turns the target layer
on, mouse keys hold it, and other keys and a timeout turn it off.  Of the layers only the
target layer is seen; others may turn it on and off as well.

Main results:

- Definition {lit}`pointingDeviceTaskAutoMouse`: one report.
- Definition {lit}`processAutoMouse`: one key event.
- Theorem {lit}`tracker_processAutoMouse`: what a key event does to the tracker.
-/

namespace VialQmk
namespace PointingDevice

/-! ## Configuration -/

/-- A report of the pointing device. -/
structure Report where
  x : ℤ
  y : ℤ
  h : ℤ
  v : ℤ
  buttons : UInt8

/-- {lit}`keyrecord_t` with its keycode. -/
structure KeyRecord (κ : Type*) where
  key : κ
  keycode : UInt16
  tapCount : ℕ
  pressed : Bool
  /-- {lit}`IS_NOEVENT` -/
  noEvent : Bool

/-- The configuration, with the macros of a build. -/
structure Config (κ : Type*) where
  /-- {lit}`AUTO_MOUSE_TARGET_LAYER` -/
  layer : UInt16
  timeout : UInt16
  debounce : UInt8
  /-- {lit}`AUTO_MOUSE_DELAY` -/
  delay : ℕ
  /-- {lit}`AUTO_MOUSE_THRESHOLD` -/
  threshold : ℕ
  /-- {lit}`MOUSE_EXTENDED_REPORT` -/
  extended : Bool
  /-- {lit}`NO_ACTION_ONESHOT` is not set. -/
  oneshot : Bool
  /-- {lit}`NO_ACTION_TAPPING` is not set. -/
  tapping : Bool
  /-- {lit}`TAPPING_TOGGLE` -/
  tappingToggle : ℕ
  /-- {lit}`is_mouse_record_kb` -/
  isMouseRecordKb : KeyRecord κ → Bool

/-- {lit}`total_mouse_movement_t` -/
structure Movement where
  x : ℤ
  y : ℤ
  h : ℤ
  v : ℤ
deriving DecidableEq

def Movement.none : Movement :=
  ⟨0, 0, 0, 0⟩

/-- The context, the bit of the target layer, and whether the one shot layer is the target
layer; and the last times of an activation and of a key event that started the delay, which no
function reads. -/
structure State where
  /-- {lit}`timer.active` -/
  active : Stamp
  /-- {lit}`timer.delay` -/
  delay : Stamp
  isActivated : Bool
  isToggled : Bool
  mouseKeyTracker : ℤ
  totalMovement : Movement
  layerOn : Bool
  oneshotLayer : Bool
  lastActivation : Option ℕ
  lastDelay : Option ℕ

variable {κ : Type*} (c : Config κ)

/-- {lit}`is_auto_mouse_active` -/
def isAutoMouseActive (s : State) : Prop :=
  s.isActivated = true ∨ s.mouseKeyTracker ≠ 0 ∨ s.isToggled = true ∨
    c.oneshot = true ∧ s.oneshotLayer = true

instance (s : State) : Decidable (isAutoMouseActive c s) :=
  inferInstanceAs (Decidable (_ ∨ _ ∨ _ ∨ _))

/-- {lit}`auto_mouse_reset` -/
def autoMouseReset (s : State) : State :=
  { s with
    active := Stamp.clear
    delay := Stamp.clear
    isActivated := false
    isToggled := false
    mouseKeyTracker := 0 }

/-- {lit}`auto_mouse_toggle` -/
def autoMouseToggle (s : State) : State :=
  { s with
    isToggled := !s.isToggled
    delay := Stamp.clear }

/-! ## Reports -/

/-- The modulus of {lit}`mouse_xy_report_t` -/
def xyModulus : ℕ :=
  if c.extended then 65536 else 256

/-- The movement with that of a report, in the integer types of its fields. -/
def Movement.add (m : Movement) (r : Report) : Movement where
  x := (m.x + r.x).bmod (xyModulus c)
  y := (m.y + r.y).bmod (xyModulus c)
  h := (m.h + r.h).bmod 256
  v := (m.v + r.v).bmod 256

/-- A field exceeds the threshold.  {lit}`abs` is the absolute value: its overflow for the lowest
{lit}`int16_t` where {lit}`int` has 16 bits is left out. -/
def Movement.Exceeds (m : Movement) (threshold : ℕ) : Prop :=
  m.x.natAbs > threshold ∨ m.y.natAbs > threshold ∨ m.h.natAbs > threshold ∨
    m.v.natAbs > threshold

instance (m : Movement) (threshold : ℕ) : Decidable (m.Exceeds threshold) :=
  inferInstanceAs (Decidable (_ ∨ _ ∨ _ ∨ _))

/-- {lit}`auto_mouse_activation` -/
def autoMouseActivation (r : Report) (s : State) : State × Bool :=
  let total := s.totalMovement.add c r
  ({ s with totalMovement := total },
    decide (total.Exceeds c.threshold) || decide (r.buttons ≠ 0))

/-- The report is skipped: the delay timer runs, or debounce. -/
def Skips (now : ℕ) (s : State) : Prop :=
  s.active.elapsed now ≤ c.debounce.toNat ∨ s.delay.elapsed now ≤ c.delay

instance (now : ℕ) (s : State) : Decidable (Skips c now s) :=
  inferInstanceAs (Decidable (_ ∨ _))

/-- {lit}`pointing_device_task_auto_mouse` -/
def pointingDeviceTaskAutoMouse (r : Report) (now : ℕ) (s : State) : State :=
  if Skips c now s then s
  else
    let activation := autoMouseActivation c r s
    let s := { activation.1 with isActivated := activation.2 }
    if isAutoMouseActive c s then
      { s with
        totalMovement := Movement.none
        active := Stamp.set now
        delay := Stamp.clear
        layerOn := true
        lastActivation := some now }
    else if s.layerOn ∧ s.active.elapsed now > c.timeout.toNat then
      { s with
        layerOn := false
        active := Stamp.clear
        totalMovement := Movement.none }
    else s

/-! ## Keys -/

/-- {lit}`mouse_key_tracker++` of a signed byte -/
def int8Succ (n : ℤ) : ℤ :=
  if n = 127 then -128 else n + 1

/-- {lit}`mouse_key_tracker--` -/
def int8Pred (n : ℤ) : ℤ :=
  if n = -128 then 127 else n - 1

/-- {lit}`auto_mouse_keyevent` -/
def autoMouseKeyevent (pressed : Bool) (s : State) : State :=
  { s with
    mouseKeyTracker := if pressed then int8Succ s.mouseKeyTracker else int8Pred s.mouseKeyTracker
    delay := Stamp.clear }

/-- {lit}`auto_mouse_reset_trigger` -/
def autoMouseResetTrigger (pressed : Bool) (now : ℕ) (s : State) : State :=
  let s := if pressed then autoMouseReset { s with layerOn := false } else s
  { s with
    delay := Stamp.set now
    lastDelay := some now }

/-- The cases of the switch in {lit}`process_auto_mouse`. -/
inductive KeyKind where
  /-- Modifiers, and other keys that are not processed -/
  | skipped
  | toLayer (layer : UInt16)
  | toggleLayer (layer : UInt16)
  | momentary (layer : UInt16)
  | layerMod (layer : UInt16)
  | layerTapToggle (layer : UInt16)
  | layerTap (layer : UInt16)
  | modTap
  | other
deriving DecidableEq

def keyKind (keycode : UInt16) : KeyKind :=
  if 0xE0 ≤ keycode ∧ keycode ≤ 0xE7 then .skipped
  else if 0x0100 ≤ keycode ∧ keycode ≤ 0x1FFF then .skipped
  else if 0x5200 ≤ keycode ∧ keycode ≤ 0x521F then .toLayer (keycode &&& 0x1F)
  else if 0x5260 ≤ keycode ∧ keycode ≤ 0x527F then .toggleLayer (keycode &&& 0x1F)
  else if 0x5220 ≤ keycode ∧ keycode ≤ 0x523F then .momentary (keycode &&& 0x1F)
  else if 0x5240 ≤ keycode ∧ keycode ≤ 0x525F then .skipped
  else if c.oneshot ∧ 0x5280 ≤ keycode ∧ keycode ≤ 0x52BF then .skipped
  else if 0x5000 ≤ keycode ∧ keycode ≤ 0x51FF then .layerMod ((keycode >>> 5) &&& 0xF)
  else if c.tapping ∧ 0x52C0 ≤ keycode ∧ keycode ≤ 0x52DF then .layerTapToggle (keycode &&& 0x1F)
  else if c.tapping ∧ 0x4000 ≤ keycode ∧ keycode ≤ 0x4FFF then
    .layerTap ((keycode >>> 8) &&& 0xF)
  else if c.tapping ∧ 0x2000 ≤ keycode ∧ keycode ≤ 0x3FFF then .modTap
  else .other

/-- {lit}`is_mouse_record` -/
def isMouseRecord (e : KeyRecord κ) : Prop :=
  c.isMouseRecordKb e = true ∨ 0xCD ≤ e.keycode ∧ e.keycode ≤ 0xDF

instance (e : KeyRecord κ) : Decidable (isMouseRecord c e) :=
  inferInstanceAs (Decidable (_ ∨ _))

/-- The default case. -/
def processDefault (e : KeyRecord κ) (now : ℕ) (s : State) : State :=
  if e.noEvent then s
  else if isMouseRecord c e then autoMouseKeyevent e.pressed s
  else if ¬ isAutoMouseActive c s then autoMouseResetTrigger e.pressed now s
  else s

/-- {lit}`TT` of the target layer. -/
def processTapToggle (e : KeyRecord κ) (s : State) : State :=
  let s := autoMouseKeyevent e.pressed s
  if c.tappingToggle ≠ 0 ∧ e.tapCount = c.tappingToggle then
    if e.pressed then { s with mouseKeyTracker := int8Pred s.mouseKeyTracker }
    else
      let s := autoMouseToggle s
      { s with mouseKeyTracker := int8Succ s.mouseKeyTracker }
  else s

/-- The switch of {lit}`process_auto_mouse`. -/
def processKey (e : KeyRecord κ) (now : ℕ) (s : State) : State :=
  match keyKind c e.keycode with
  | .skipped => s
  | .toLayer layer | .toggleLayer layer =>
    if layer = c.layer ∧ ¬ e.pressed then autoMouseToggle s else s
  | .momentary layer | .layerMod layer =>
    if layer = c.layer then autoMouseKeyevent e.pressed s else s
  | .layerTapToggle layer => if layer = c.layer then processTapToggle c e s else s
  | .layerTap layer =>
    if e.tapCount = 0 then if layer = c.layer then autoMouseKeyevent e.pressed s else s
    else processDefault c e now s
  | .modTap => if e.tapCount = 0 then s else processDefault c e now s
  | .other => processDefault c e now s

/-- {lit}`process_auto_mouse` -/
def processAutoMouse (e : KeyRecord κ) (now : ℕ) (s : State) : State :=
  let s := processKey c e now s
  if s.mouseKeyTracker < 0 then { s with mouseKeyTracker := 0 } else s

/-! ## Mouse keys -/

/-- The keys that hold the layer: those of {lit}`is_mouse_record`, {lit}`MO` and {lit}`LM` of
the target layer, {lit}`LT` while it is held, and {lit}`TT` unless it is tapped to toggle. -/
def mouseType (e : KeyRecord κ) : Bool :=
  match keyKind c e.keycode with
  | .skipped | .toLayer _ | .toggleLayer _ => false
  | .momentary layer | .layerMod layer => decide (layer = c.layer)
  | .layerTapToggle layer =>
    decide (layer = c.layer ∧ ¬ (c.tappingToggle ≠ 0 ∧ e.tapCount = c.tappingToggle))
  | .layerTap layer =>
    if e.tapCount = 0 then decide (layer = c.layer) else !e.noEvent && decide (isMouseRecord c e)
  | .modTap => !decide (e.tapCount = 0) && !e.noEvent && decide (isMouseRecord c e)
  | .other => !e.noEvent && decide (isMouseRecord c e)

/-! ## The tracker -/

theorem int8Pred_int8Succ {n : ℤ} (h : -128 ≤ n) (hle : n ≤ 127) : int8Pred (int8Succ n) = n := by
  unfold int8Pred int8Succ
  split_ifs <;> omega

theorem int8Succ_int8Pred {n : ℤ} (h : -128 ≤ n) (hle : n ≤ 127) : int8Succ (int8Pred n) = n := by
  unfold int8Pred int8Succ
  split_ifs <;> omega

/-- The tracker after a key event. -/
def trackerAfter (e : KeyRecord κ) (tracker : ℤ) : ℤ :=
  if mouseType c e then if e.pressed then int8Succ tracker else int8Pred tracker else tracker

theorem tracker_processDefault (e : KeyRecord κ) (now : ℕ) (s : State) :
    (processDefault c e now s).mouseKeyTracker =
      if !e.noEvent && decide (isMouseRecord c e) then
        if e.pressed then int8Succ s.mouseKeyTracker else int8Pred s.mouseKeyTracker
      else s.mouseKeyTracker := by
  unfold processDefault
  cases e.noEvent with
  | true => rfl
  | false =>
    by_cases hmouse : isMouseRecord c e
    · simp [hmouse, autoMouseKeyevent]
    · by_cases hactive : isAutoMouseActive c s
      · simp [hmouse, hactive]
      · -- what is not active is reset, and no key is counted
        have hzero : s.mouseKeyTracker = 0 := by
          by_contra hne
          exact hactive (.inr (.inl hne))
        unfold autoMouseResetTrigger autoMouseReset
        cases e.pressed <;> simp [hmouse, hactive, hzero]

theorem tracker_processTapToggle (e : KeyRecord κ) {s : State} (h : -128 ≤ s.mouseKeyTracker)
    (hle : s.mouseKeyTracker ≤ 127) :
    (processTapToggle c e s).mouseKeyTracker =
      if c.tappingToggle ≠ 0 ∧ e.tapCount = c.tappingToggle then s.mouseKeyTracker
      else if e.pressed then int8Succ s.mouseKeyTracker else int8Pred s.mouseKeyTracker := by
  unfold processTapToggle autoMouseKeyevent autoMouseToggle
  dsimp only
  by_cases htoggle : c.tappingToggle ≠ 0 ∧ e.tapCount = c.tappingToggle
  · rw [if_pos htoggle, if_pos htoggle]
    cases e.pressed with
    | true => exact int8Pred_int8Succ h hle
    | false => exact int8Succ_int8Pred h hle
  · rw [if_neg htoggle, if_neg htoggle]

/-- Mouse keys are counted up and down, and no other key changes the tracker. -/
theorem tracker_processKey (e : KeyRecord κ) (now : ℕ) {s : State} (h : -128 ≤ s.mouseKeyTracker)
    (hle : s.mouseKeyTracker ≤ 127) :
    (processKey c e now s).mouseKeyTracker = trackerAfter c e s.mouseKeyTracker := by
  unfold processKey trackerAfter mouseType
  cases keyKind c e.keycode with
  | skipped => rfl
  | toLayer layer =>
    rw [if_neg Bool.false_ne_true]
    dsimp only
    split_ifs <;> rfl
  | toggleLayer layer =>
    rw [if_neg Bool.false_ne_true]
    dsimp only
    split_ifs <;> rfl
  | momentary layer =>
    by_cases hlayer : layer = c.layer <;> simp [hlayer, autoMouseKeyevent]
  | layerMod layer =>
    by_cases hlayer : layer = c.layer <;> simp [hlayer, autoMouseKeyevent]
  | layerTapToggle layer =>
    dsimp only
    by_cases hlayer : layer = c.layer
    · rw [if_pos hlayer, tracker_processTapToggle c e h hle]
      by_cases htoggle : c.tappingToggle ≠ 0 ∧ e.tapCount = c.tappingToggle
      · rw [if_pos htoggle, if_neg (by simp [htoggle])]
      · rw [if_neg htoggle, if_pos (decide_eq_true ⟨hlayer, htoggle⟩)]
    · rw [if_neg hlayer, if_neg (by simp [hlayer])]
  | layerTap layer =>
    dsimp only
    by_cases hheld : e.tapCount = 0
    · simp only [if_pos hheld]
      by_cases hlayer : layer = c.layer <;> simp [hlayer, autoMouseKeyevent]
    · simp only [if_neg hheld]
      exact tracker_processDefault c e now s
  | modTap =>
    dsimp only
    by_cases hheld : e.tapCount = 0
    · rw [if_pos hheld, if_neg (by simp [hheld])]
    · rw [if_neg hheld, tracker_processDefault]
      simp [hheld]
  | other => exact tracker_processDefault c e now s

/-- The tracker is no longer negative after a key event. -/
theorem tracker_processAutoMouse (e : KeyRecord κ) (now : ℕ) {s : State}
    (h : -128 ≤ s.mouseKeyTracker) (hle : s.mouseKeyTracker ≤ 127) :
    (processAutoMouse c e now s).mouseKeyTracker =
      max 0 (trackerAfter c e s.mouseKeyTracker) := by
  unfold processAutoMouse
  dsimp only
  split_ifs with hnegative
  · rw [tracker_processKey c e now h hle] at hnegative
    exact (max_eq_left (Int.le_of_lt hnegative)).symm
  · rw [tracker_processKey c e now h hle] at hnegative ⊢
    exact (max_eq_right (not_lt.mp hnegative)).symm

end PointingDevice
end VialQmk
