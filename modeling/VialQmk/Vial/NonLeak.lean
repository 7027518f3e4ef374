import VialQmk.Vial.RawHid

/-!
# Vial - what a locked keyboard tells the host

Two runs over the same reports with the same timers, in which different keys are down.
As long as the keyboard is locked the switch matrix enters the replies only through the
question whether all unlock keys are down, and only in a poll of an unlock in progress.

Main results:

- Theorem {lit}`rawHidCommand_congr`: a command of a locked keyboard does the same for
  all matrices that answer this question alike.
- Theorem {lit}`replies_eq`: two such runs have the same replies.
-/

namespace VialQmk
namespace Vial

variable {L : Type} {c : Config L}

/-- The reply to the report tells the host whether the unlock keys are down: it is a poll
of an unlock in progress. -/
def PollsUnlock (s : State L) (report : Fin 32 → UInt8) : Prop :=
  s.vialUnlockInProgress = true ∧ ViaCommandId.ofByte (report 0) = some .vialPrefix ∧
    VialCommandId.ofByte (report 1) = some .unlockPoll

/-- Two locked keyboards get the same report with the same timers.  Nothing is asked of
the matrices, except in a poll of an unlock in progress. -/
structure SameButKeys (c : Config L) (s : State L × State L) (i : Input × Input) : Prop where
  locked : s.1.vialUnlocked = false
  locked' : s.2.vialUnlocked = false
  report : i.1.report = i.2.report
  timer32 : i.1.readings.timer32 = i.2.readings.timer32
  timerNow : i.1.readings.timerNow = i.2.readings.timerNow
  timerStamp : i.1.readings.timerStamp = i.2.readings.timerStamp
  holding : PollsUnlock s.1 i.1.report → holding c i.1.readings = holding c i.2.readings

/-! ## Commands -/

section Commands

variable {r r' : Readings}

/-- The matrix is only read for an unlocked keyboard. -/
theorem getKeyboardValue_congr (htimer : r.timer32 = r'.timer32) (data : Memory UInt8)
    {s : State L} (hlocked : s.vialUnlocked = false) :
    getKeyboardValue c r data s = getKeyboardValue c r' data s := by
  unfold getKeyboardValue
  rw [htimer, hlocked]
  rfl

/-- A poll asks one question about the matrix. -/
theorem vialUnlockPoll_congr (hnow : r.timerNow = r'.timerNow)
    (hstamp : r.timerStamp = r'.timerStamp) {s : State L}
    (hholding : s.vialUnlockInProgress = true → holding c r = holding c r') :
    vialUnlockPoll c r s = vialUnlockPoll c r' s := by
  unfold vialUnlockPoll
  by_cases hprogress : s.vialUnlockInProgress = true
  · rw [if_pos hprogress, if_pos hprogress, hnow, hstamp, hholding hprogress]
  · rw [if_neg hprogress, if_neg hprogress]

theorem vialHandleCmd_congr (hnow : r.timerNow = r'.timerNow)
    (hstamp : r.timerStamp = r'.timerStamp) (msg : Memory UInt8) {s : State L}
    (hholding : s.vialUnlockInProgress = true →
      VialCommandId.ofByte (msg 1) = some .unlockPoll → holding c r = holding c r') :
    vialHandleCmd c r msg s = vialHandleCmd c r' msg s := by
  unfold vialHandleCmd
  cases hid : VialCommandId.ofByte (msg 1) with
  | none => rfl
  | some id =>
    cases id with
    | unlockStart =>
      dsimp only [vialUnlockStart]
      rw [hstamp]
    | unlockPoll =>
      dsimp only
      rw [vialUnlockPoll_congr hnow hstamp fun hprogress => hholding hprogress hid]
    | _ => rfl

/-- A command of a locked keyboard does the same for all matrices that answer alike
whether all unlock keys are down. -/
theorem rawHidCommand_congr (htimer : r.timer32 = r'.timer32) (hnow : r.timerNow = r'.timerNow)
    (hstamp : r.timerStamp = r'.timerStamp) (data : Memory UInt8) {s : State L}
    (hlocked : s.vialUnlocked = false)
    (hholding : s.vialUnlockInProgress = true → ViaCommandId.ofByte (data 0) = some .vialPrefix →
      VialCommandId.ofByte (data 1) = some .unlockPoll → holding c r = holding c r') :
    rawHidCommand c r data s = rawHidCommand c r' data s := by
  unfold rawHidCommand
  cases hid : ViaCommandId.ofByte (data 0) with
  | none => rfl
  | some id =>
    cases id with
    | getKeyboardValue =>
      dsimp only
      rw [getKeyboardValue_congr htimer data hlocked]
    | vialPrefix =>
      exact vialHandleCmd_congr hnow hstamp data fun hprogress => hholding hprogress hid
    | _ => rfl

end Commands

/-! ## Reports -/

/-- One report to two keyboards in the same state. -/
theorem receive_congr {s : State L} {i i' : Input} (h : SameButKeys c (s, s) (i, i')) :
    receive c s i = receive c s i' := by
  unfold receive rawHidReceive
  rw [← h.report]
  have hcommand : rawHidCommand c i.readings (buffer s i.report) s =
      rawHidCommand c i'.readings (buffer s i.report) s :=
    rawHidCommand_congr h.timer32 h.timerNow h.timerStamp _ h.locked
      fun hprogress hvial hpoll => h.holding ⟨hprogress, hvial, hpoll⟩
  rw [hcommand]

/-- Two runs over the same reports with the same timers have the same replies, whatever
keys are down, if all unlock keys are down in the same polls of an unlock in progress. -/
theorem replies_eq {s : State L} {is : List (Input × Input)}
    (h : StateMachine.Along (StateMachine.pair (step c) (step c)) (SameButKeys c) (s, s) is) :
    StateMachine.outputs (step c) (reply c) s (is.map Prod.fst) =
      StateMachine.outputs (step c) (reply c) s (is.map Prod.snd) := by
  apply StateMachine.outputs_eq Eq _ rfl h
  rintro s t i rfl hsame
  have hreceive := receive_congr hsame
  constructor
  · unfold reply
    rw [hreceive]
  · unfold step
    rw [hreceive]

/-- The small keyboard with its key up and down, asked for its matrix. -/
theorem replies_eq_smallKeyboard :
    StateMachine.outputs (step smallKeyboard) (reply smallKeyboard) smallState
        [inputOf [0x02, 0x03]] =
      StateMachine.outputs (step smallKeyboard) (reply smallKeyboard) smallState
        [{ inputOf [0x02, 0x03] with
            readings := { (inputOf []).readings with
              matrixGetRow := fun _ => 1, matrixIsOn := fun _ _ => true } }] := by
  have h : StateMachine.Along (StateMachine.pair (step smallKeyboard) (step smallKeyboard))
      (SameButKeys smallKeyboard) (smallState, smallState)
      [(inputOf [0x02, 0x03], { inputOf [0x02, 0x03] with
        readings := { (inputOf []).readings with
          matrixGetRow := fun _ => 1, matrixIsOn := fun _ _ => true } })] := by
    refine ⟨⟨rfl, rfl, rfl, rfl, rfl, rfl, ?_⟩, trivial⟩
    rintro ⟨hprogress, -⟩
    exact absurd hprogress Bool.false_ne_true
  exact replies_eq h

end Vial
end VialQmk
