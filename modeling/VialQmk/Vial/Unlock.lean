import VialQmk.Vial.Effects

/-!
# Vial - unlocking

The host starts an unlock and then polls; the keyboard counts polls in which all unlock
keys are down, each more than 100 ms after the last one that counted.  What the counter
stands for is read off the reports of the run: the latest start and the polls since.

Main results:

- Definition {lit}`sinceStart`: the latest start of an unlock, and the polls since.
- Theorem {lit}`run_counting`: while an unlock is in progress, the counter says how many
  polls in a row have counted.
- Theorem {lit}`unlock_held`: what has happened when the keyboard becomes unlocked.
-/

namespace VialQmk
namespace Vial

variable {L : Type} {c : Config L}

/-! ## Reading a run -/

/-- The Vial command in a report. -/
def vialCommand (i : Input) : Option VialCommandId :=
  if ViaCommandId.ofByte (i.report 0) = some .vialPrefix then VialCommandId.ofByte (i.report 1)
  else none

/-- The latest start of an unlock, and the polls since. -/
def sinceStart (is : List Input) : Option (Input × List Input) :=
  is.foldl (fun latest i =>
    match vialCommand i with
    | some .unlockStart => some (i, [])
    | some .unlockPoll => latest.map fun p => (p.1, p.2 ++ [i])
    | _ => latest) none

/-- The poll finds all unlock keys down, more than 100 ms after {lit}`stamp`. -/
def Counts (c : Config L) (stamp : UInt16) (i : Input) : Prop :=
  100 < (i.readings.timerNow - stamp).toNat ∧ holding c i.readings = true

instance (c : Config L) (stamp : UInt16) (i : Input) : Decidable (Counts c stamp i) :=
  inferInstanceAs (Decidable (_ ∧ _))

/-- The stamp after some polls: each one that counts leaves its own. -/
def stampAfter (c : Config L) (stamp : UInt16) : List Input → UInt16
  | [] => stamp
  | i :: is => stampAfter c (if Counts c stamp i then i.readings.timerStamp else stamp) is

/-- All the polls count, each from the stamp of the one before. -/
def AllCount (c : Config L) (stamp : UInt16) : List Input → Prop
  | [] => True
  | i :: is => Counts c stamp i ∧ AllCount c i.readings.timerStamp is

/-- Since the latest start, the last {lit}`n` polls all counted. -/
def HeldFor (c : Config L) (n : ℕ) (is : List Input) : Prop :=
  ∃ start early recent, sinceStart is = some (start, early ++ recent) ∧ recent.length = n ∧
    AllCount c (stampAfter c start.readings.timerStamp early) recent

theorem stampAfter_append (stamp : UInt16) (is js : List Input) :
    stampAfter c stamp (is ++ js) = stampAfter c (stampAfter c stamp is) js := by
  induction is generalizing stamp with
  | nil => rfl
  | cons i is ih => exact ih _

/-- One more poll counts, from the stamp of the ones before. -/
theorem allCount_append_singleton {stamp : UInt16} {is : List Input} {i : Input}
    (h : AllCount c stamp is) (hi : Counts c (stampAfter c stamp is) i) :
    AllCount c stamp (is ++ [i]) := by
  induction is generalizing stamp with
  | nil => exact ⟨hi, trivial⟩
  | cons j is ih =>
    rw [stampAfter, if_pos h.1] at hi
    exact ⟨h.1, ih h.2 hi⟩

theorem sinceStart_start {is : List Input} {i : Input}
    (h : vialCommand i = some .unlockStart) : sinceStart (is ++ [i]) = some (i, []) := by
  rw [sinceStart, List.foldl_append, List.foldl_cons, List.foldl_nil, h]

theorem sinceStart_poll {is : List Input} {i start : Input} {polls : List Input}
    (h : vialCommand i = some .unlockPoll) (hsince : sinceStart is = some (start, polls)) :
    sinceStart (is ++ [i]) = some (start, polls ++ [i]) := by
  rw [sinceStart, List.foldl_append, List.foldl_cons, List.foldl_nil, h]
  change (sinceStart is).map _ = _
  rw [hsince]
  rfl

theorem sinceStart_other {is : List Input} {i : Input} (hstart : vialCommand i ≠ some .unlockStart)
    (hpoll : vialCommand i ≠ some .unlockPoll) : sinceStart (is ++ [i]) = sinceStart is := by
  rw [sinceStart, List.foldl_append, List.foldl_cons, List.foldl_nil]
  split
  · exact absurd ‹_› hstart
  · exact absurd ‹_› hpoll
  · rfl

/-! ## The unlock variables -/

/-- {lit}`vial_unlock_in_progress`, {lit}`vial_unlock_counter` and
{lit}`vial_unlock_timer` -/
def progress (s : State L) : Bool × Int × UInt16 :=
  (s.vialUnlockInProgress, s.vialUnlockCounter, s.vialUnlockTimer)

/-- Nothing but start, poll and lock touches the lock and the progress. -/
structure SameUnlock (s s' : State L) : Prop where
  unlocked : s'.vialUnlocked = s.vialUnlocked
  progress : progress s' = progress s

theorem SameUnlock.refl (s : State L) : SameUnlock s s :=
  ⟨rfl, rfl⟩

theorem sameUnlock_qmkSettingsSet (qsid maxsz p : ℕ) (data : Memory UInt8) (s : State L) :
    SameUnlock s (qmkSettingsSet c qsid maxsz p data s).2 := by
  unfold qmkSettingsSet
  cases findSetting c qsid with
  | none => exact .refl s
  | some proto =>
    rcases proto with ⟨qsid', field⟩
    cases field with
    | none | some field =>
      simp only [Proto.set]
      split_ifs <;> exact ⟨rfl, rfl⟩

theorem sameUnlock_qmkSettingsReset (s : State L) : SameUnlock s (qmkSettingsReset c s) :=
  ⟨rfl, rfl⟩

/-- A reset of the keymap unlocks the keyboard only for itself. -/
theorem sameUnlock_dynamicKeymapReset (s : State L) : SameUnlock s (dynamicKeymapReset c s) := by
  refine ⟨rfl, ?_⟩
  simp only [dynamicKeymapReset]
  split_ifs <;> rfl

theorem sameUnlock_eeconfigInitVia (s : State L) : SameUnlock s (eeconfigInitVia c s) := by
  refine ⟨rfl, ?_⟩
  exact (sameUnlock_dynamicKeymapReset (c := c) _).progress

theorem sameUnlock_dynamicEntryOp (msg : Memory UInt8) (s : State L) :
    SameUnlock s (dynamicEntryOp c msg s).2 := by
  unfold dynamicEntryOp
  cases DynamicVialOp.ofByte (msg 2) with
  | none => exact .refl s
  | some op =>
    cases op with
    | getNumberOfEntries | tapDanceGet | comboGet | keyOverrideGet => exact .refl s
    | tapDanceSet | comboSet | keyOverrideSet =>
      dsimp only
      split_ifs <;> exact ⟨rfl, rfl⟩

/-- The Vial commands but start, poll and lock. -/
theorem sameUnlock_vialHandleCmd (r : Readings) (msg : Memory UInt8) (s : State L)
    (hstart : VialCommandId.ofByte (msg 1) ≠ some .unlockStart)
    (hpoll : VialCommandId.ofByte (msg 1) ≠ some .unlockPoll)
    (hlock : VialCommandId.ofByte (msg 1) ≠ some .lock) :
    SameUnlock s (vialHandleCmd c r msg s).2 := by
  unfold vialHandleCmd
  cases hid : VialCommandId.ofByte (msg 1) with
  | none => exact .refl s
  | some id =>
    cases id with
    | unlockStart => exact absurd hid hstart
    | unlockPoll => exact absurd hid hpoll
    | lock => exact absurd hid hlock
    | getKeyboardId | getSize | getDef | getEncoder | getUnlockStatus | qmkSettingsQuery =>
      exact .refl s
    | setEncoder =>
      dsimp only
      split_ifs <;> exact ⟨rfl, rfl⟩
    | qmkSettingsGet =>
      dsimp only
      split_ifs <;> exact .refl s
    | qmkSettingsSet =>
      dsimp only
      split_ifs
      · exact sameUnlock_qmkSettingsSet _ _ _ _ s
      · exact .refl s
    | qmkSettingsReset =>
      dsimp only
      split_ifs
      · exact sameUnlock_qmkSettingsReset s
      · exact .refl s
    | dynamicEntryOp => exact sameUnlock_dynamicEntryOp msg s

/-- The VIA commands. -/
theorem sameUnlock_rawHidCommand (r : Readings) (data : Memory UInt8) (s : State L)
    (h : ViaCommandId.ofByte (data 0) ≠ some .vialPrefix) :
    SameUnlock s (rawHidCommand c r data s).2 := by
  unfold rawHidCommand
  cases hid : ViaCommandId.ofByte (data 0) with
  | none => exact .refl s
  | some id =>
    cases id with
    | vialPrefix => exact absurd hid h
    | dynamicKeymapReset => exact sameUnlock_dynamicKeymapReset s
    | setKeyboardValue =>
      simp only [setKeyboardValue]
      split_ifs <;> exact ⟨rfl, rfl⟩
    | eepromReset =>
      dsimp only
      split_ifs
      · have hinit := sameUnlock_eeconfigInitVia (c := c) (s.mapEeprom (viaEepromSetValid c false))
        exact ⟨hinit.unlocked, hinit.progress⟩
      · exact .refl s
    | bootloaderJump | dynamicKeymapMacroSetBuffer | dynamicKeymapSetBuffer =>
      dsimp only
      split_ifs <;> exact ⟨rfl, rfl⟩
    | _ => exact ⟨rfl, rfl⟩

/-! ## Reports -/

theorem eq_of_ofByte_vialPrefix {b : UInt8} (h : ViaCommandId.ofByte b = some .vialPrefix) :
    b = 0xFE := by
  unfold ViaCommandId.ofByte at h
  split at h
  case h_20 hb => exact UInt8.toNat_inj.mp hb
  all_goals exact absurd h (by decide)

theorem vialCommand_eq_some {i : Input} {id : VialCommandId} (h : vialCommand i = some id) :
    ViaCommandId.ofByte (i.report 0) = some .vialPrefix ∧
      VialCommandId.ofByte (i.report 1) = some id := by
  unfold vialCommand at h
  split_ifs at h with hvial
  exact ⟨hvial, h⟩

/-- The commands the gate lets through while an unlock is in progress. -/
def gateCommands : List VialCommandId :=
  [.getKeyboardId, .getSize, .getDef, .getUnlockStatus, .unlockStart, .unlockPoll]

theorem passesGate_iff (s : State L) (i : Input) :
    passesGate (buffer s i.report) = true ↔ ∃ id ∈ gateCommands, vialCommand i = some id := by
  have hfirst : buffer s i.report 0 = i.report 0 := rfl
  have hsecond : buffer s i.report 1 = i.report 1 := rfl
  rw [passesGate, hfirst, hsecond, Bool.and_eq_true, beq_iff_eq]
  constructor
  · rintro ⟨hvial, hid⟩
    have hcommand : vialCommand i = VialCommandId.ofByte (i.report 1) := by
      rw [vialCommand, hvial]
      rfl
    rw [hcommand]
    split at hid
    case h_7 => exact absurd hid Bool.false_ne_true
    all_goals
      refine ⟨_, ?_, ‹_›⟩
      decide
  · rintro ⟨id, hmem, hid⟩
    rcases vialCommand_eq_some hid with ⟨hvial, hid⟩
    refine ⟨eq_of_ofByte_vialPrefix hvial, ?_⟩
    rw [hid]
    revert hmem
    cases id <;> decide

/-- While an unlock is in progress, a command the gate does not let through leaves the
keyboard as it is, and the report comes back. -/
theorem step_gate {s : State L} {i : Input} (hprogress : s.vialUnlockInProgress = true)
    (h : ∀ id ∈ gateCommands, vialCommand i ≠ some id) :
    step c s i = s ∧ reply c s i = i.report := by
  have hgate : passesGate (buffer s i.report) = false := by
    rw [Bool.eq_false_iff]
    intro hpass
    rcases (passesGate_iff s i).mp hpass with ⟨id, hmem, hid⟩
    exact h id hmem hid
  have hreceive := receive_blocked (c := c) (i := i) ⟨hprogress, hgate⟩
  constructor
  · unfold step
    rw [hreceive]
    have hstray : (fun k => buffer s i.report (k + 32)) = s.stray := by
      funext k
      rw [buffer, dif_neg (by omega), Nat.add_sub_cancel]
    rw [hstray]
  · funext k
    unfold reply
    rw [hreceive]
    exact dif_pos k.isLt

/-- A Vial command of a report that is not held back. -/
theorem receive_vialCommand {s : State L} {i : Input} {id : VialCommandId} (hopen : ¬ Blocked s i)
    (h : vialCommand i = some id) :
    receive c s i = vialHandleCmd c i.readings (buffer s i.report) s := by
  rw [receive_open hopen, rawHidCommand]
  rw [show ViaCommandId.ofByte (buffer s i.report 0) = _ from (vialCommand_eq_some h).1]

theorem not_blocked_of_gateCommand {s : State L} {i : Input} {id : VialCommandId}
    (hmem : id ∈ gateCommands) (h : vialCommand i = some id) : ¬ Blocked s i := by
  rintro ⟨-, hgate⟩
  have hpass := (passesGate_iff s i).mpr ⟨id, hmem, h⟩
  exact absurd (hgate.symm.trans hpass) Bool.false_ne_true

/-- A start, in any state. -/
theorem step_start {s : State L} {i : Input} (h : vialCommand i = some .unlockStart) :
    (step c s i).vialUnlocked = s.vialUnlocked ∧
      progress (step c s i) = (true, vialUnlockCounterMax, i.readings.timerStamp) := by
  have hreceive := receive_vialCommand (c := c) (s := s) (not_blocked_of_gateCommand (by decide) h) h
  rw [vialHandleCmd] at hreceive
  rw [show VialCommandId.ofByte (buffer s i.report 1) = _ from (vialCommand_eq_some h).2]
    at hreceive
  unfold step
  rw [hreceive]
  exact ⟨rfl, rfl⟩

/-- A poll, in any state. -/
theorem step_poll {s : State L} {i : Input} (h : vialCommand i = some .unlockPoll) :
    SameUnlock (vialUnlockPoll c i.readings s) (step c s i) := by
  have hreceive := receive_vialCommand (c := c) (s := s) (not_blocked_of_gateCommand (by decide) h) h
  rw [vialHandleCmd] at hreceive
  rw [show VialCommandId.ofByte (buffer s i.report 1) = _ from (vialCommand_eq_some h).2]
    at hreceive
  unfold step
  rw [hreceive]
  exact ⟨rfl, rfl⟩

/-- Any other report can only lock. -/
theorem step_other {s : State L} {i : Input} (hstart : vialCommand i ≠ some .unlockStart)
    (hpoll : vialCommand i ≠ some .unlockPoll) :
    ((step c s i).vialUnlocked = true → s.vialUnlocked = true) ∧
      progress (step c s i) = progress s := by
  by_cases hblocked : Blocked s i
  · unfold step
    rw [receive_blocked hblocked]
    exact ⟨id, rfl⟩
  by_cases hvial : ViaCommandId.ofByte (i.report 0) = some .vialPrefix
  · have hcommand : vialCommand i = VialCommandId.ofByte (i.report 1) := if_pos hvial
    have hreceive : receive c s i = vialHandleCmd c i.readings (buffer s i.report) s := by
      rw [receive_open hblocked, rawHidCommand]
      rw [show ViaCommandId.ofByte (buffer s i.report 0) = _ from hvial]
    unfold step
    rw [hreceive]
    by_cases hlock : VialCommandId.ofByte (i.report 1) = some .lock
    · rw [vialHandleCmd, show VialCommandId.ofByte (buffer s i.report 1) = _ from hlock]
      exact ⟨fun h => absurd h Bool.false_ne_true, rfl⟩
    · have hsame := sameUnlock_vialHandleCmd (c := c) i.readings (buffer s i.report) s
        (fun h => hstart (hcommand.trans h)) (fun h => hpoll (hcommand.trans h)) hlock
      exact ⟨fun h => hsame.unlocked.symm.trans h, hsame.progress⟩
  · have hsame := sameUnlock_rawHidCommand (c := c) i.readings (buffer s i.report) s hvial
    unfold step
    rw [receive_open hblocked]
    exact ⟨fun h => hsame.unlocked.symm.trans h, hsame.progress⟩

/-! ## Runs -/

/-- While an unlock is in progress, the timer holds the stamp of the last poll that
counted, or of the start, and the counter says how many polls in a row have counted. -/
def Counting (c : Config L) (is : List Input) (s : State L) : Prop :=
  s.vialUnlockInProgress = true → ∃ start early recent,
    sinceStart is = some (start, early ++ recent) ∧
      AllCount c (stampAfter c start.readings.timerStamp early) recent ∧
      recent.length < vialUnlockCounterMax.toNat ∧
      progress s = (true, vialUnlockCounterMax - recent.length,
        stampAfter c start.readings.timerStamp (early ++ recent))

/-- The unlock variables after a poll of an unlock in progress. -/
theorem vialUnlockPoll_counts {s : State L} {i : Input}
    (hprogress : s.vialUnlockInProgress = true) (h : Counts c s.vialUnlockTimer i) :
    if s.vialUnlockCounter = 1 then
      (vialUnlockPoll c i.readings s).vialUnlocked = true ∧
        (vialUnlockPoll c i.readings s).vialUnlockInProgress = false
    else
      (vialUnlockPoll c i.readings s).vialUnlocked = s.vialUnlocked ∧
        progress (vialUnlockPoll c i.readings s) =
          (true, s.vialUnlockCounter - 1, i.readings.timerStamp) := by
  unfold Counts at h
  unfold vialUnlockPoll
  rw [if_pos hprogress, if_pos h]
  dsimp only
  by_cases hlast : s.vialUnlockCounter = 1
  · rw [if_pos hlast, if_pos (by omega)]
    exact ⟨rfl, rfl⟩
  · rw [if_neg hlast, if_neg (by omega)]
    exact ⟨rfl, by rw [progress, hprogress]⟩

theorem vialUnlockPoll_restarts {s : State L} {i : Input}
    (hprogress : s.vialUnlockInProgress = true) (h : ¬ Counts c s.vialUnlockTimer i) :
    (vialUnlockPoll c i.readings s).vialUnlocked = s.vialUnlocked ∧
      progress (vialUnlockPoll c i.readings s) =
        (true, vialUnlockCounterMax, s.vialUnlockTimer) := by
  unfold Counts at h
  unfold vialUnlockPoll
  rw [if_pos hprogress, if_neg h]
  exact ⟨rfl, by rw [progress, hprogress]⟩

/-- A poll that does not count leaves the stamp. -/
theorem stampAfter_of_not_counts {stamp : UInt16} {is : List Input} {i : Input}
    (h : ¬ Counts c (stampAfter c stamp is) i) :
    stampAfter c stamp (is ++ [i]) = stampAfter c stamp is := by
  rw [stampAfter_append, stampAfter, if_neg h, stampAfter]

theorem stampAfter_of_counts {stamp : UInt16} {is : List Input} {i : Input}
    (h : Counts c (stampAfter c stamp is) i) :
    stampAfter c stamp (is ++ [i]) = i.readings.timerStamp := by
  rw [stampAfter_append, stampAfter, if_pos h, stampAfter]

/-- One report keeps the count. -/
theorem Counting.step {is : List Input} {s : State L} (h : Counting c is s) (i : Input) :
    Counting c (is ++ [i]) (step c s i) := by
  by_cases hstart : vialCommand i = some .unlockStart
  · intro _
    exact ⟨i, [], [], sinceStart_start hstart, trivial, by decide, (step_start hstart).2⟩
  by_cases hpoll : vialCommand i = some .unlockPoll
  · have hsame := step_poll (c := c) (s := s) hpoll
    by_cases hprogress : s.vialUnlockInProgress = true
    · rcases h hprogress with ⟨start, early, recent, hsince, hall, hlt, hs⟩
      have hcounter : s.vialUnlockCounter = vialUnlockCounterMax - recent.length :=
        congrArg (fun p => p.2.1) hs
      have htimer : s.vialUnlockTimer = stampAfter c start.readings.timerStamp (early ++ recent) :=
        congrArg (fun p => p.2.2) hs
      have hsince' := sinceStart_poll hpoll hsince
      by_cases hcounts : Counts c s.vialUnlockTimer i
      · have hpolled := vialUnlockPoll_counts hprogress hcounts
        rw [htimer] at hcounts
        split_ifs at hpolled with hlast
        · intro hgoing
          have hdone := congrArg (fun p => p.1) hsame.progress
          exact absurd ((hpolled.2.symm.trans hdone.symm).trans hgoing) Bool.false_ne_true
        · intro _
          refine ⟨start, early, recent ++ [i], ?_, ?_, ?_, ?_⟩
          · rw [hsince', List.append_assoc]
          · rw [stampAfter_append] at hcounts
            exact allCount_append_singleton hall hcounts
          · rw [List.length_append, List.length_singleton]
            rw [hcounter] at hlast
            simp only [vialUnlockCounterMax] at hlast hlt ⊢
            omega
          · rw [hsame.progress, hpolled.2, ← List.append_assoc, stampAfter_of_counts hcounts,
              hcounter, List.length_append, List.length_singleton]
            push_cast
            rw [Int.sub_sub]
      · have hpolled := vialUnlockPoll_restarts hprogress hcounts
        rw [htimer] at hcounts
        intro _
        refine ⟨start, early ++ recent ++ [i], [], ?_, trivial, by decide, ?_⟩
        · rw [hsince', List.append_nil]
        · rw [hsame.progress, hpolled.2, List.append_nil, stampAfter_of_not_counts hcounts, htimer]
          rfl
    · intro hgoing
      have hidle := congrArg (fun p => p.1) hsame.progress
      rw [vialUnlockPoll, if_neg hprogress] at hidle
      exact absurd (hidle.symm.trans hgoing) hprogress
  · have hother := (step_other (c := c) (s := s) hstart hpoll).2
    intro hgoing
    rcases h ((congrArg (fun p => p.1) hother).symm.trans hgoing) with
      ⟨start, early, recent, hsince, hall, hlt, hs⟩
    exact ⟨start, early, recent, (sinceStart_other hstart hpoll).trans hsince, hall, hlt,
      hother.trans hs⟩

/-- Along every run that starts without an unlock in progress. -/
theorem run_counting {s : State L} (hidle : s.vialUnlockInProgress = false) (is : List Input) :
    Counting c is (StateMachine.run (step c) s is) := by
  apply StateMachine.run_history (Counting c) (fun _ => True) (fun _ _ => id)
  · exact fun is s i h _ _ => h.step i
  · intro hprogress
    exact absurd (hidle.symm.trans hprogress) Bool.false_ne_true
  · exact StateMachine.along_trivial s is
  · trivial

/-- When a report unlocks the keyboard, it ends a run of polls that all counted. -/
theorem heldFor_of_unlock {is : List Input} {s : State L} (h : Counting c is s) {i : Input}
    (hlocked : s.vialUnlocked = false) (hunlocked : (step c s i).vialUnlocked = true) :
    HeldFor c vialUnlockCounterMax.toNat (is ++ [i]) := by
  by_cases hstart : vialCommand i = some .unlockStart
  · have hsame := (step_start (c := c) (s := s) hstart).1
    exact absurd (hlocked.symm.trans (hsame.symm.trans hunlocked)) Bool.false_ne_true
  by_cases hpoll : vialCommand i = some .unlockPoll
  · have hsame := (step_poll (c := c) (s := s) hpoll).unlocked
    by_cases hprogress : s.vialUnlockInProgress = true
    · rcases h hprogress with ⟨start, early, recent, hsince, hall, hlt, hs⟩
      have hcounter : s.vialUnlockCounter = vialUnlockCounterMax - recent.length :=
        congrArg (fun p => p.2.1) hs
      have htimer : s.vialUnlockTimer = stampAfter c start.readings.timerStamp (early ++ recent) :=
        congrArg (fun p => p.2.2) hs
      by_cases hcounts : Counts c s.vialUnlockTimer i
      · have hpolled := vialUnlockPoll_counts hprogress hcounts
        split_ifs at hpolled with hlast
        · refine ⟨start, early, recent ++ [i], ?_, ?_, ?_⟩
          · rw [sinceStart_poll hpoll hsince, List.append_assoc]
          · rw [List.length_append, List.length_singleton]
            rw [hcounter] at hlast
            simp only [vialUnlockCounterMax] at hlast hlt ⊢
            omega
          · rw [htimer, stampAfter_append] at hcounts
            exact allCount_append_singleton hall hcounts
        · rw [hpolled.1, hlocked] at hsame
          exact absurd (hsame.symm.trans hunlocked) Bool.false_ne_true
      · rw [(vialUnlockPoll_restarts hprogress hcounts).1, hlocked] at hsame
        exact absurd (hsame.symm.trans hunlocked) Bool.false_ne_true
    · rw [vialUnlockPoll, if_neg hprogress, hlocked] at hsame
      exact absurd (hsame.symm.trans hunlocked) Bool.false_ne_true
  · have hbefore := (step_other (c := c) (s := s) hstart hpoll).1 hunlocked
    exact absurd (hlocked.symm.trans hbefore) Bool.false_ne_true

/-- A poll that does not count restarts the count. -/
theorem step_restarts {is : List Input} {s : State L} (h : Counting c is s) {i start : Input}
    {polls : List Input} (hsince : sinceStart is = some (start, polls))
    (hprogress : s.vialUnlockInProgress = true) (hpoll : vialCommand i = some .unlockPoll)
    (hcounts : ¬ Counts c (stampAfter c start.readings.timerStamp polls) i) :
    (step c s i).vialUnlockInProgress = true ∧
      (step c s i).vialUnlockCounter = vialUnlockCounterMax := by
  rcases h hprogress with ⟨start', early, recent, hsince', -, -, hs⟩
  have heq := Option.some.inj (hsince.symm.trans hsince')
  have htimer : s.vialUnlockTimer = stampAfter c start'.readings.timerStamp (early ++ recent) :=
    congrArg (fun p => p.2.2) hs
  rw [show start = start' from congrArg Prod.fst heq,
    show polls = early ++ recent from congrArg Prod.snd heq, ← htimer] at hcounts
  have hpolled := (vialUnlockPoll_restarts hprogress hcounts).2
  have hstep := (step_poll (c := c) (s := s) hpoll).progress.trans hpolled
  exact ⟨congrArg (fun p => p.1) hstep, congrArg (fun p => p.2.1) hstep⟩

/-- From a locked keyboard without an unlock in progress: a report unlocks it only at the
end of a hold, a poll that does not count restarts the hold, and while an unlock is in
progress only the commands of the gate do anything. -/
theorem unlock_held {s₀ : State L} (hidle : s₀.vialUnlockInProgress = false) (is : List Input)
    (i : Input) :
    let s := StateMachine.run (step c) s₀ is
    (s.vialUnlocked = false → (step c s i).vialUnlocked = true →
      HeldFor c vialUnlockCounterMax.toNat (is ++ [i])) ∧
    (∀ start polls, sinceStart is = some (start, polls) → s.vialUnlockInProgress = true →
      vialCommand i = some .unlockPoll →
      ¬ Counts c (stampAfter c start.readings.timerStamp polls) i →
      (step c s i).vialUnlockInProgress = true ∧
        (step c s i).vialUnlockCounter = vialUnlockCounterMax) ∧
    (s.vialUnlockInProgress = true → (∀ id ∈ gateCommands, vialCommand i ≠ some id) →
      step c s i = s ∧ reply c s i = i.report) := by
  have hcounting := run_counting (c := c) hidle is
  refine ⟨?_, ?_, ?_⟩
  · exact heldFor_of_unlock hcounting
  · intro start polls hsince hprogress hpoll hcounts
    exact step_restarts hcounting hsince hprogress hpoll hcounts
  · exact step_gate

/-- A start, and fifty polls 101 ms apart while the key of the small keyboard is down. -/
def heldRun : List Input :=
  inputOf [0xFE, 0x06] :: (List.range 50).map fun k =>
    { inputOf [0xFE, 0x07] with
      readings := { (inputOf []).readings with
        timerNow := 101 * UInt16.ofNat (k + 1)
        timerStamp := 101 * UInt16.ofNat (k + 1)
        matrixIsOn := fun _ _ => true } }

/-- The last poll of this run unlocks the keyboard. -/
theorem unlock_held_heldRun : HeldFor smallKeyboard 50 heldRun := by
  have hidle : smallState.vialUnlockInProgress = false := rfl
  exact (unlock_held hidle heldRun.dropLast (heldRun.getLast (by decide))).1 (by decide +kernel)
    (by decide +kernel)

end Vial
end VialQmk
