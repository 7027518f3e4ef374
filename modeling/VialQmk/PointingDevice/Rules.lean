import VialQmk.PointingDevice.AutoMouse

/-!
# Pointing device - the rules of the automatic mouse layer

Reports, key events and the passing of time in any order.  The context is compared with the
times and the held keys as they are: the layer is turned on by movement, and off by a report
after the timeout, and the tracker counts the mouse keys that are held.

Main results:

- Definition {lit}`Rules`: what holds of each step.
- Definition {lit}`Meets`: no stamp looks fresh that is not, no movement is lost to an overflow,
  and at most 127 mouse keys are held.
- Theorem {lit}`rules_iff`: exactly those runs follow the rules that meet the condition.
-/

namespace VialQmk
namespace PointingDevice

open StateMachine

/-! ## Runs -/

/-- The context at a time, with the mouse keys that are held. -/
structure World (κ : Type*) where
  state : State
  clock : ℕ
  held : List κ

/-- A report, a key event, or a change of the layers by other keys. -/
inductive Event (κ : Type*)
  | report (r : Report)
  | key (e : KeyRecord κ)
  | layers (layerOn oneshotLayer : Bool)

variable {κ : Type*} (c : Config κ)

/-- The feature was just enabled. -/
def World.start (clock : ℕ) (layerOn oneshotLayer : Bool) : World κ where
  state := ⟨Stamp.clear, Stamp.clear, false, false, 0, Movement.none, layerOn, oneshotLayer, none,
    none⟩
  clock := clock
  held := []

variable [DecidableEq κ]

/-- The mouse keys that are held after a key event. -/
def heldAfter (e : KeyRecord κ) (held : List κ) : List κ :=
  if e.pressed then if mouseType c e then held ++ [e.key] else held
  else held.erase e.key

/-- An event after some time. -/
def World.step (w : World κ) (input : ℕ × Event κ) : World κ :=
  let now := w.clock + input.1
  match input.2 with
  | .report r => ⟨pointingDeviceTaskAutoMouse c r now w.state, now, w.held⟩
  | .key e => ⟨processAutoMouse c e now w.state, now, heldAfter c e w.held⟩
  | .layers layerOn oneshotLayer =>
    ⟨{ w.state with layerOn := layerOn, oneshotLayer := oneshotLayer }, now, w.held⟩

/-- A key that is pressed was up, and it is released as it was pressed. -/
def KeysOk (w : World κ) (input : ℕ × Event κ) : Prop :=
  match input.2 with
  | .key e => if e.pressed then e.key ∉ w.held else mouseType c e = true ↔ e.key ∈ w.held
  | _ => True

/-! ## The rules -/

/-- The accumulated movement exceeds the threshold, or a button is down.  What was accumulated
before the report is the total of the code, wrapped as it is. -/
def Moved (s : State) (r : Report) : Prop :=
  (⟨s.totalMovement.x + r.x, s.totalMovement.y + r.y, s.totalMovement.h + r.h,
    s.totalMovement.v + r.v⟩ : Movement).Exceeds c.threshold ∨ r.buttons ≠ 0

/-- The previous activation was at most the debounce time ago, or a key event started the delay
at most {lit}`AUTO_MOUSE_DELAY` ago. -/
def Recent (now : ℕ) (s : State) : Prop :=
  (∃ time ∈ s.lastActivation, now - time ≤ c.debounce.toNat) ∨
    ∃ time ∈ s.lastDelay, now - time ≤ c.delay

instance (s : State) (r : Report) : Decidable (Moved c s r) :=
  inferInstanceAs (Decidable (_ ∨ _))

instance (now : ℕ) (s : State) : Decidable (Recent c now s) :=
  inferInstanceAs (Decidable (_ ∨ _))

/-- The report is processed and no activation, no mouse key is held, the layer is neither
toggled nor one shot, and the last activation is more than the timeout ago. -/
def Quiet (now : ℕ) (w : World κ) (r : Report) : Prop :=
  ¬ Skips c now w.state ∧ ¬ Moved c w.state r ∧ w.held = [] ∧ w.state.isToggled = false ∧
    w.state.oneshotLayer = false ∧
      ∀ time ∈ w.state.lastActivation, c.timeout.toNat < now - time

instance (now : ℕ) (w : World κ) (r : Report) : Decidable (Quiet c now w r) :=
  inferInstanceAs (Decidable (_ ∧ _ ∧ _ ∧ _ ∧ _ ∧ _))

/-- What holds of a step. -/
structure Rules (w : World κ) (input : ℕ × Event κ) : Prop where
  turnsOn : ∀ r, input.2 = .report r → Moved c w.state r → ¬ Recent c (w.clock + input.1) w.state →
    (w.step c input).state.layerOn = true
  tracker : (w.step c input).state.mouseKeyTracker = (w.step c input).held.length
  turnsOff : ∀ r, input.2 = .report r → Quiet c (w.clock + input.1) w r →
    (w.step c input).state.layerOn = false

/-! ## The condition -/

/-- The movement is seen, as no field overflows into the threshold. -/
def Seen (s : State) (r : Report) : Prop :=
  (s.totalMovement.add c r).Exceeds c.threshold ∨ r.buttons ≠ 0

instance (s : State) (r : Report) : Decidable (Seen c s r) :=
  inferInstanceAs (Decidable (_ ∨ _))

/-- The layer stays on, or is turned on, without a movement. -/
def StaysOn (now : ℕ) (s : State) : Prop :=
  s.mouseKeyTracker ≠ 0 ∨ s.isToggled = true ∨ c.oneshot = true ∧ s.oneshotLayer = true ∨
    s.layerOn = true ∧ s.active.elapsed now ≤ c.timeout.toNat

instance (now : ℕ) (s : State) : Decidable (StaysOn c now s) :=
  inferInstanceAs (Decidable (_ ∨ _ ∨ _ ∨ _))

/-- A movement finds both stamps in time, if the layer is off, and is seen; a report after the
timeout finds the stamp of the activation in time; and a mouse key is at most the 127th that is
held. -/
def Meets (w : World κ) (input : ℕ × Event κ) : Prop :=
  let now := w.clock + input.1
  match input.2 with
  | .report r =>
    (Moved c w.state r → ¬ Recent c now w.state →
      (w.state.layerOn = false → w.state.active.InTime c.debounce.toNat now ∧
        w.state.delay.InTime c.delay now) ∧
      (¬ Skips c now w.state → Seen c w.state r ∨ StaysOn c now w.state)) ∧
    (Quiet c now w r → w.state.layerOn = true → w.state.active.InTime c.timeout.toNat now)
  | .key e => e.pressed = true → mouseType c e = true → w.held.length < 127
  | .layers _ _ => True

instance (w : World κ) : (input : ℕ × Event κ) → Decidable (KeysOk c w input)
  | (_, .report _) => inferInstanceAs (Decidable True)
  | (_, .key e) =>
    inferInstanceAs (Decidable (if e.pressed then e.key ∉ w.held else mouseType c e = true ↔ _))
  | (_, .layers _ _) => inferInstanceAs (Decidable True)

instance (w : World κ) : (input : ℕ × Event κ) → Decidable (Meets c w input)
  | (wait, .report r) =>
    inferInstanceAs (Decidable ((Moved c w.state r → ¬ Recent c (w.clock + wait) w.state → _ ∧ _) ∧
      (Quiet c (w.clock + wait) w r → _ → _)))
  | (_, .key e) => inferInstanceAs (Decidable (e.pressed = true → mouseType c e = true → _))
  | (_, .layers _ _) => inferInstanceAs (Decidable True)

/-! ## Stamps -/

/-- The stamps were set before, each at the last time of what it stands for. -/
structure Timed (now : ℕ) (s : State) : Prop where
  active_before : s.active.Before now
  delay_before : s.delay.Before now
  active_last : ∀ time ∈ s.active.since, time ∈ s.lastActivation
  delay_last : ∀ time ∈ s.delay.since, time ∈ s.lastDelay

theorem Timed.mono {now later : ℕ} {s : State} (h : Timed now s) (hle : now ≤ later) :
    Timed later s where
  active_before := h.active_before.mono hle
  delay_before := h.delay_before.mono hle
  active_last := h.active_last
  delay_last := h.delay_last

/-- The stamps are kept, cleared, or set. -/
theorem Timed.of_stamps {now : ℕ} {s s' : State} (h : Timed now s)
    (hlast : s'.lastActivation = s.lastActivation)
    (hactive : s'.active = s.active ∨ s'.active = Stamp.clear)
    (hdelay : s'.delay = s.delay ∧ s'.lastDelay = s.lastDelay ∨ s'.delay = Stamp.clear ∨
      s'.delay = Stamp.set now ∧ s'.lastDelay = some now) : Timed now s' := by
  obtain ⟨hbefore, hsince⟩ : s'.active.Before now ∧
      ∀ time ∈ s'.active.since, time ∈ s'.lastActivation := by
    rcases hactive with hsame | hclear
    · rw [hsame, hlast]
      exact ⟨h.active_before, h.active_last⟩
    · rw [hclear]
      exact ⟨Stamp.before_clear now, fun time htime => absurd htime (by simp [Stamp.clear])⟩
  obtain ⟨hbefore', hsince'⟩ : s'.delay.Before now ∧
      ∀ time ∈ s'.delay.since, time ∈ s'.lastDelay := by
    rcases hdelay with ⟨hsame, hlast'⟩ | hclear | ⟨hset, hlast'⟩
    · rw [hsame, hlast']
      exact ⟨h.delay_before, h.delay_last⟩
    · rw [hclear]
      exact ⟨Stamp.before_clear now, fun time htime => absurd htime (by simp [Stamp.clear])⟩
    · rw [hset, hlast']
      exact ⟨Stamp.before_set (Nat.le_refl now), fun _ htime => htime⟩
  exact ⟨hbefore, hbefore', hsince, hsince'⟩

theorem timed_keyevent {now : ℕ} {s : State} (h : Timed now s) (pressed : Bool) :
    Timed now (autoMouseKeyevent pressed s) :=
  h.of_stamps rfl (.inl rfl) (.inr (.inl rfl))

theorem timed_toggle {now : ℕ} {s : State} (h : Timed now s) : Timed now (autoMouseToggle s) :=
  h.of_stamps rfl (.inl rfl) (.inr (.inl rfl))

theorem timed_resetTrigger {now : ℕ} {s : State} (h : Timed now s) (pressed : Bool) :
    Timed now (autoMouseResetTrigger pressed now s) := by
  cases pressed with
  | true => exact h.of_stamps rfl (.inr rfl) (.inr (.inr ⟨rfl, rfl⟩))
  | false => exact h.of_stamps rfl (.inl rfl) (.inr (.inr ⟨rfl, rfl⟩))

section Stamps

variable {κ : Type*} (c : Config κ) {now : ℕ} {s : State}

theorem timed_processDefault (h : Timed now s) (e : KeyRecord κ) :
    Timed now (processDefault c e now s) := by
  unfold processDefault
  split_ifs
  · exact h
  · exact timed_keyevent h e.pressed
  · exact h
  · exact timed_resetTrigger h e.pressed

theorem timed_processTapToggle (h : Timed now s) (e : KeyRecord κ) :
    Timed now (processTapToggle c e s) := by
  unfold processTapToggle
  dsimp only
  split_ifs
  · exact h.of_stamps rfl (.inl rfl) (.inr (.inl rfl))
  · exact h.of_stamps rfl (.inl rfl) (.inr (.inl rfl))
  · exact timed_keyevent h e.pressed

theorem timed_processAutoMouse (h : Timed now s) (e : KeyRecord κ) :
    Timed now (processAutoMouse c e now s) := by
  have hkey : Timed now (processKey c e now s) := by
    unfold processKey
    cases keyKind c e.keycode with
    | skipped => exact h
    | toLayer layer | toggleLayer layer =>
      dsimp only
      split_ifs
      · exact timed_toggle h
      · exact h
    | momentary layer | layerMod layer =>
      dsimp only
      split_ifs
      · exact timed_keyevent h e.pressed
      · exact h
    | layerTapToggle layer =>
      dsimp only
      split_ifs
      · exact timed_processTapToggle c h e
      · exact h
    | layerTap layer =>
      dsimp only
      split_ifs
      · exact timed_keyevent h e.pressed
      · exact h
      · exact timed_processDefault c h e
    | modTap =>
      dsimp only
      split_ifs
      · exact h
      · exact timed_processDefault c h e
    | other => exact timed_processDefault c h e
  unfold processAutoMouse
  dsimp only
  split_ifs
  · exact hkey.of_stamps rfl (.inl rfl) (.inl ⟨rfl, rfl⟩)
  · exact hkey

theorem timed_task (h : Timed now s) (r : Report) :
    Timed now (pointingDeviceTaskAutoMouse c r now s) := by
  unfold pointingDeviceTaskAutoMouse autoMouseActivation
  dsimp only
  split_ifs
  · exact h
  · exact ⟨Stamp.before_set (Nat.le_refl now), Stamp.before_clear now, fun _ htime => htime,
      fun time htime => absurd htime (by simp [Stamp.clear])⟩
  · exact h.of_stamps rfl (.inr rfl) (.inl ⟨rfl, rfl⟩)
  · exact h.of_stamps rfl (.inl rfl) (.inl ⟨rfl, rfl⟩)

/-! ## Reports -/

theorem natAbs_bmod_le (x : ℤ) : (x.bmod 256).natAbs ≤ x.natAbs ∧
    (x.bmod 65536).natAbs ≤ x.natAbs := by
  rw [Int.bmod_def, Int.bmod_def]
  constructor
  · split_ifs <;> omega
  · split_ifs <;> omega

/-- Overflows lose movement only. -/
theorem moved_of_seen {r : Report} (h : Seen c s r) : Moved c s r := by
  refine h.imp (fun hexceeds => ?_) id
  have hxy : ∀ x : ℤ, (x.bmod (xyModulus c)).natAbs ≤ x.natAbs := by
    intro x
    unfold xyModulus
    split_ifs
    · exact (natAbs_bmod_le x).2
    · exact (natAbs_bmod_le x).1
  have hx := hxy (s.totalMovement.x + r.x)
  have hy := hxy (s.totalMovement.y + r.y)
  have hh := (natAbs_bmod_le (s.totalMovement.h + r.h)).1
  have hv := (natAbs_bmod_le (s.totalMovement.v + r.v)).1
  rcases hexceeds with hlarge | hlarge | hlarge | hlarge
  · exact .inl (Nat.lt_of_lt_of_le hlarge hx)
  · exact .inr (.inl (Nat.lt_of_lt_of_le hlarge hy))
  · exact .inr (.inr (.inl (Nat.lt_of_lt_of_le hlarge hh)))
  · exact .inr (.inr (.inr (Nat.lt_of_lt_of_le hlarge hv)))

theorem tracker_task (r : Report) (now : ℕ) (s : State) :
    (pointingDeviceTaskAutoMouse c r now s).mouseKeyTracker = s.mouseKeyTracker := by
  unfold pointingDeviceTaskAutoMouse autoMouseActivation
  dsimp only
  split_ifs <;> rfl

/-- The layer after a report that is processed. -/
theorem layerOn_task (hskips : ¬ Skips c now s) (r : Report) :
    (pointingDeviceTaskAutoMouse c r now s).layerOn = true ↔ Seen c s r ∨ StaysOn c now s := by
  unfold pointingDeviceTaskAutoMouse autoMouseActivation
  rw [if_neg hskips]
  dsimp only
  have hactive : isAutoMouseActive c
      { s with
        totalMovement := s.totalMovement.add c r
        isActivated := decide ((s.totalMovement.add c r).Exceeds c.threshold) ||
          decide (r.buttons ≠ 0) } ↔
      Seen c s r ∨ s.mouseKeyTracker ≠ 0 ∨ s.isToggled = true ∨
        c.oneshot = true ∧ s.oneshotLayer = true := by
    unfold isAutoMouseActive Seen
    simp only [Bool.or_eq_true, decide_eq_true_eq]
  unfold StaysOn
  by_cases hon : Seen c s r ∨ s.mouseKeyTracker ≠ 0 ∨ s.isToggled = true ∨
      c.oneshot = true ∧ s.oneshotLayer = true
  · rw [if_pos (hactive.mpr hon)]
    refine iff_of_true rfl ?_
    rcases hon with hseen | htracker | htoggled | honeshot
    · exact .inl hseen
    · exact .inr (.inl htracker)
    · exact .inr (.inr (.inl htoggled))
    · exact .inr (.inr (.inr (.inl honeshot)))
  · rw [if_neg fun h => hon (hactive.mp h)]
    simp only [not_or] at hon
    obtain ⟨hseen, htracker, htoggled, honeshot⟩ := hon
    simp only [hseen, htracker, htoggled, honeshot, Bool.false_eq_true, false_or]
    by_cases hover : s.layerOn = true ∧ s.active.elapsed now > c.timeout.toNat
    · rw [if_pos hover]
      exact iff_of_false Bool.false_ne_true fun h => Nat.not_lt_of_le h.2 hover.2
    · rw [if_neg hover]
      refine ⟨fun hlayer => ⟨hlayer, ?_⟩, And.left⟩
      exact Nat.le_of_not_lt fun hlate => hover ⟨hlayer, hlate⟩

/-- Of a report that is not recent: it is skipped unless both stamps are in time. -/
theorem skips_iff (h : Timed now s) (hrecent : ¬ Recent c now s) :
    ¬ Skips c now s ↔ s.active.InTime c.debounce.toNat now ∧ s.delay.InTime c.delay now := by
  unfold Recent at hrecent
  unfold Skips
  rw [not_or] at hrecent ⊢
  rw [Nat.not_le, Nat.not_le]
  refine and_congr (Stamp.lt_elapsed_iff h.active_before fun time htime => ?_)
    (Stamp.lt_elapsed_iff h.delay_before fun time htime => ?_)
  · exact Nat.lt_of_not_le fun hle => hrecent.1 ⟨time, h.active_last time htime, hle⟩
  · exact Nat.lt_of_not_le fun hle => hrecent.2 ⟨time, h.delay_last time htime, hle⟩

end Stamps

/-! ## Steps -/

/-- The invariant of the runs. -/
structure Inv (w : World κ) : Prop where
  timed : Timed w.clock w.state
  tracker_eq : w.state.mouseKeyTracker = w.held.length
  held_le : w.held.length ≤ 127

variable {w : World κ}

omit [DecidableEq κ] in
theorem inv_start (clock : ℕ) (layerOn oneshotLayer : Bool) :
    Inv (World.start clock layerOn oneshotLayer : World κ) where
  timed := ⟨Stamp.before_clear clock, Stamp.before_clear clock,
    fun time htime => absurd htime (by simp [World.start, Stamp.clear]),
    fun time htime => absurd htime (by simp [World.start, Stamp.clear])⟩
  tracker_eq := rfl
  held_le := Nat.zero_le _

/-- Of a key event the tracker is right just if the key is at most the 127th that is held. -/
theorem tracker_key_iff (h : Inv w) {wait : ℕ} {e : KeyRecord κ}
    (hkeys : KeysOk c w (wait, .key e)) :
    (processAutoMouse c e (w.clock + wait) w.state).mouseKeyTracker =
        (heldAfter c e w.held).length ↔
      (e.pressed = true → mouseType c e = true → w.held.length < 127) := by
  have htracker := h.tracker_eq
  have hle := h.held_le
  rw [tracker_processAutoMouse c e _ (by omega) (by omega), htracker]
  unfold trackerAfter heldAfter
  unfold KeysOk at hkeys
  dsimp only at hkeys
  cases hpressed : e.pressed with
  | true =>
    simp only [if_true, forall_const]
    cases hmouse : mouseType c e with
    | false =>
      simp only [Bool.false_eq_true, if_false, false_imp_iff, iff_true]
      exact max_eq_right (Int.natCast_nonneg _)
    | true =>
      simp only [if_true, forall_const, List.length_append, List.length_singleton]
      unfold int8Succ
      split_ifs with hfull
      · rw [max_eq_left (by decide)]
        exact iff_of_false (by omega) (by omega)
      · rw [max_eq_right (by omega)]
        exact iff_of_true (by omega) (by omega)
  | false =>
    simp only [hpressed, Bool.false_eq_true, if_false, false_imp_iff, iff_true] at hkeys ⊢
    cases hmouse : mouseType c e with
    | false =>
      have hup : e.key ∉ w.held := fun hdown => by
        have htype := hkeys.mpr hdown
        rw [hmouse] at htype
        exact Bool.false_ne_true htype
      simp only [Bool.false_eq_true, if_false, List.erase_of_not_mem hup]
      exact max_eq_right (Int.natCast_nonneg _)
    | true =>
      have hdown := hkeys.mp hmouse
      have hpos := List.length_pos_of_mem hdown
      simp only [if_true, List.length_erase_of_mem hdown]
      unfold int8Pred
      rw [if_neg (by omega), max_eq_right (by omega)]
      omega

theorem heldAfter_length_le (h : w.held.length ≤ 127) {e : KeyRecord κ}
    (hroom : e.pressed = true → mouseType c e = true → w.held.length < 127) :
    (heldAfter c e w.held).length ≤ 127 := by
  unfold heldAfter
  split_ifs with hpressed hmouse
  · have hlt := hroom hpressed hmouse
    rw [List.length_append, List.length_singleton]
    omega
  · exact h
  · exact Nat.le_trans List.length_erase_le h

/-- Of a report the rules hold just if it meets the condition. -/
theorem rules_report_iff (h : Inv w) (wait : ℕ) (r : Report) :
    Rules c w (wait, .report r) ↔ Meets c w (wait, .report r) := by
  have htimed := h.timed.mono (Nat.le_add_right w.clock wait)
  have hon : (Moved c w.state r → ¬ Recent c (w.clock + wait) w.state →
      (pointingDeviceTaskAutoMouse c r (w.clock + wait) w.state).layerOn = true) ↔
      (Moved c w.state r → ¬ Recent c (w.clock + wait) w.state →
        (w.state.layerOn = false → w.state.active.InTime c.debounce.toNat (w.clock + wait) ∧
          w.state.delay.InTime c.delay (w.clock + wait)) ∧
        (¬ Skips c (w.clock + wait) w.state →
          Seen c w.state r ∨ StaysOn c (w.clock + wait) w.state)) := by
    refine imp_congr_right fun _ => imp_congr_right fun hrecent => ?_
    rw [← skips_iff c htimed hrecent]
    by_cases hskips : Skips c (w.clock + wait) w.state
    · have hsame : pointingDeviceTaskAutoMouse c r (w.clock + wait) w.state = w.state :=
        if_pos hskips
      rw [hsame]
      simp only [hskips, not_true_eq_false, false_imp_iff, and_true]
      exact ⟨fun hlayer hoff => Bool.false_ne_true (hoff.symm.trans hlayer),
        fun hlayer => Bool.not_eq_false _ ▸ hlayer⟩
    · rw [layerOn_task c hskips r]
      simp only [hskips, not_false_eq_true, imp_true_iff, true_and, true_imp_iff]
  have hoff : (Quiet c (w.clock + wait) w r →
      (pointingDeviceTaskAutoMouse c r (w.clock + wait) w.state).layerOn = false) ↔
      (Quiet c (w.clock + wait) w r → w.state.layerOn = true →
        w.state.active.InTime c.timeout.toNat (w.clock + wait)) := by
    refine imp_congr_right fun hquiet => ?_
    obtain ⟨hskips, hmoved, hheld, htoggled, honeshot, hlast⟩ := hquiet
    have hseen : ¬ Seen c w.state r := fun hseen => hmoved (moved_of_seen c hseen)
    have htracker : w.state.mouseKeyTracker = 0 := by
      rw [h.tracker_eq, hheld]
      rfl
    rw [← Bool.not_eq_true, layerOn_task c hskips r, ← Stamp.lt_elapsed_iff htimed.active_before
      fun time htime => hlast time (htimed.active_last time htime)]
    unfold StaysOn
    simp only [hseen, htracker, htoggled, honeshot, ne_eq, not_true_eq_false, Bool.false_eq_true,
      and_false, false_or, not_and, Nat.not_le]
  have htracker : (pointingDeviceTaskAutoMouse c r (w.clock + wait) w.state).mouseKeyTracker =
      w.held.length := (tracker_task c r _ w.state).trans h.tracker_eq
  refine Iff.trans ?_ (and_congr hon hoff)
  constructor
  · intro hrules
    exact ⟨hrules.turnsOn r rfl, hrules.turnsOff r rfl⟩
  · rintro ⟨hon, hoff⟩
    refine ⟨?_, htracker, ?_⟩
    · rintro r' hreport
      obtain rfl : r = r' := Event.report.inj hreport
      exact hon
    · rintro r' hreport
      obtain rfl : r = r' := Event.report.inj hreport
      exact hoff

theorem rules_iff_meets (h : Inv w) {input : ℕ × Event κ} (hkeys : KeysOk c w input) :
    Rules c w input ↔ Meets c w input := by
  obtain ⟨wait, event⟩ := input
  cases event with
  | report r => exact rules_report_iff c h wait r
  | key e =>
    refine Iff.trans ?_ (tracker_key_iff c h hkeys)
    exact ⟨fun hrules => hrules.tracker,
      fun htracker => ⟨fun r hreport => by simp at hreport, htracker,
        fun r hreport => by simp at hreport⟩⟩
  | layers layerOn oneshotLayer =>
    exact iff_of_true ⟨fun r hreport => by simp at hreport, h.tracker_eq,
      fun r hreport => by simp at hreport⟩ trivial

theorem inv_step (h : Inv w) {input : ℕ × Event κ} (hkeys : KeysOk c w input)
    (hmeets : Meets c w input) : Inv (w.step c input) := by
  obtain ⟨wait, event⟩ := input
  have htimed := h.timed.mono (Nat.le_add_right w.clock wait)
  cases event with
  | report r =>
    exact ⟨timed_task c htimed r, (tracker_task c r _ w.state).trans h.tracker_eq, h.held_le⟩
  | key e =>
    exact ⟨timed_processAutoMouse c htimed e, (tracker_key_iff c h hkeys).mpr hmeets,
      heldAfter_length_le c h.held_le hmeets⟩
  | layers layerOn oneshotLayer =>
    exact ⟨htimed.of_stamps rfl (.inl rfl) (.inl ⟨rfl, rfl⟩), h.tracker_eq, h.held_le⟩

/-- Exactly those runs follow the rules where no movement and no timeout meets a stamp that
looks fresh, no movement is lost to an overflow, and at most 127 mouse keys are held. -/
theorem rules_iff (clock : ℕ) (layerOn oneshotLayer : Bool) (inputs : List (ℕ × Event κ))
    (hkeys : Along (World.step c) (KeysOk c) (World.start clock layerOn oneshotLayer) inputs) :
    Along (World.step c) (Rules c) (World.start clock layerOn oneshotLayer) inputs ↔
      Along (World.step c) (Meets c) (World.start clock layerOn oneshotLayer) inputs :=
  along_iff_on Inv (fun _ _ h hkeys => rules_iff_meets c h hkeys)
    (fun _ _ h hkeys hmeets => inv_step c h hkeys hmeets) (inv_start clock layerOn oneshotLayer)
    hkeys

/-- The defaults; keys are numbers. -/
def defaults : Config ℕ where
  layer := 1
  timeout := 650
  debounce := 25
  delay := 200
  threshold := 10
  extended := false
  oneshot := true
  tapping := true
  tappingToggle := 5
  isMouseRecordKb := fun _ => false

/-- A movement, a click, and a report after the timeout. -/
def click : List (ℕ × Event ℕ) :=
  [(300, .report ⟨20, 0, 0, 0, 0⟩), (10, .key ⟨7, 0xD1, 0, true, false⟩),
    (50, .key ⟨7, 0xD1, 0, false, false⟩), (800, .report ⟨0, 0, 0, 0, 0⟩)]

theorem rules_click : Along (World.step defaults) (Rules defaults) (World.start 0 false false)
    click :=
  (rules_iff defaults 0 false false click (by decide +kernel)).mpr (by decide +kernel)

/-- Ten milliseconds after the timer starts again a stamp that is not set looks fresh, and a
movement does not turn the layer on. -/
theorem not_rules :
    ¬ ∀ (c : Config ℕ) (clock : ℕ) (layerOn oneshotLayer : Bool) (inputs : List (ℕ × Event ℕ)),
      Along (World.step c) (KeysOk c) (World.start clock layerOn oneshotLayer) inputs →
        Along (World.step c) (Rules c) (World.start clock layerOn oneshotLayer) inputs := by
  intro h
  have hrules := (h defaults 0 false false [(65546, .report ⟨100, 0, 0, 0, 0⟩)] (by decide)).1
  have hon := hrules.turnsOn ⟨100, 0, 0, 0, 0⟩ rfl (by decide +kernel) (by decide +kernel)
  exact absurd hon (by decide +kernel)

end PointingDevice
end VialQmk
