import Mathlib.Algebra.Group.Nat.Defs
import Mathlib.Data.List.Basic
import Mathlib.Tactic.Common

/-!
# Tapping - the state machine

{lit}`action_tapping.c`: a key that does one thing when tapped and another when held is
kept back until this is settled, together with the events behind it.  The model follows
the default build, with tapping terms, permissive hold and hold on other key press per
key; whether a key is a tap-hold key is a function of the key.

Calls of {lit}`process_record` are collected in the state.  The ring of the waiting buffer
is a list that starts at {lit}`waiting_buffer_tail`.  What {lit}`process_record` does to this state
is left out: {lit}`process_action` empties the record at the release of a tapped swap-hands key and
turns the press that ends a one-shot layer into a release, and a macro or a tap dance may send
events of its own while a record is processed.

Main results:

- Definition {lit}`processTapping`: what one record does, with its three states of the
  tapping key.
- Definition {lit}`actionTappingProcess`: one event, and the drain of the waiting buffer.
-/

namespace VialQmk
namespace Tapping

/-! ## Records -/

/-- {lit}`keyevent_type_t` -/
inductive KeyEventType
  | tick | key | encoderCw | encoderCcw | combo | dipSwitchOn | dipSwitchOff
deriving DecidableEq

/-- {lit}`keyevent_t` -/
structure KeyEvent (K : Type) where
  key : K
  time : UInt16
  type : KeyEventType
  pressed : Bool
deriving DecidableEq

/-- {lit}`tap_t` -/
structure Tap where
  interrupted : Bool
  count : ℕ
deriving DecidableEq

/-- {lit}`keyrecord_t` -/
structure KeyRecord (K : Type) where
  event : KeyEvent K
  tap : Tap
deriving DecidableEq

/-- A call of {lit}`process_record`: on a record, or on the release the code makes up when
a new tap interrupts a repeated one. -/
inductive Call (K : Type)
  | record (r : KeyRecord K)
  | madeUp (r : KeyRecord K)
deriving DecidableEq

/-- The keys of a keyboard, as {lit}`process_tapping` asks for them. -/
structure Config (K : Type) where
  /-- {lit}`GET_TAPPING_TERM` -/
  tappingTerm : K → ℕ
  /-- {lit}`GET_QUICK_TAP_TERM` -/
  quickTapTerm : K → ℕ
  /-- {lit}`get_permissive_hold` -/
  permissiveHold : K → Bool
  /-- {lit}`get_hold_on_other_key_press` -/
  holdOnOtherKeyPress : K → Bool
  /-- {lit}`is_tap_record` -/
  isTapRecord : K → Bool
  /-- The release of the key, with this tap count, is retained till the end of a tapping. -/
  retained : K → ℕ → Bool

/-- The static variables, and the calls made so far.  A zeroed {lit}`tapping_key` is
{lit}`none`. -/
structure State (K : Type) where
  tappingKey : Option (KeyRecord K)
  waitingBuffer : List (KeyRecord K)
  calls : List (Call K)

/-- {lit}`WAITING_BUFFER_SIZE` -/
def waitingBufferSize : ℕ :=
  8

variable {K : Type}

/-- {lit}`IS_EVENT` -/
def KeyEvent.isEvent (e : KeyEvent K) : Bool :=
  e.type ≠ .tick

/-- A record with its tap count set. -/
def KeyRecord.setCount (r : KeyRecord K) (count : ℕ) : KeyRecord K :=
  { r with tap := { r.tap with count := count } }

/-- A record that other keys have interrupted. -/
def KeyRecord.setInterrupted (r : KeyRecord K) : KeyRecord K :=
  { r with tap := { r.tap with interrupted := true } }

/-- {lit}`process_record` -/
def State.processRecord (s : State K) (r : KeyRecord K) : State K :=
  { s with calls := s.calls ++ [.record r] }

/-- {lit}`tapping_key = ...` -/
def State.setTappingKey (s : State K) (tk : Option (KeyRecord K)) : State K :=
  { s with tappingKey := tk }

/-- {lit}`WITHIN_TAPPING_TERM` -/
def withinTappingTerm (c : Config K) (tk : KeyRecord K) (e : KeyEvent K) : Bool :=
  (e.time - tk.event.time).toNat < c.tappingTerm tk.event.key

/-- {lit}`WITHIN_QUICK_TAP_TERM` -/
def withinQuickTapTerm (c : Config K) (tk : KeyRecord K) (e : KeyEvent K) : Bool :=
  (e.time - tk.event.time).toNat < c.quickTapTerm tk.event.key

variable [DecidableEq K]

/-! ## Waiting buffer -/

/-- {lit}`waiting_buffer_typed` -/
def waitingBufferTyped (s : State K) (e : KeyEvent K) : Bool :=
  s.waitingBuffer.any fun r => e.key = r.event.key && e.pressed != r.event.pressed

/-- The record releases the tapping key in time. -/
def isCandidate (c : Config K) (tk r : KeyRecord K) : Bool :=
  r.event.isEvent && r.event.key = tk.event.key && !r.event.pressed &&
    withinTappingTerm c tk r.event

/-- The buffer with the first candidate marked as a tap, if there is one. -/
def markCandidate (c : Config K) (tk : KeyRecord K) :
    List (KeyRecord K) → Option (List (KeyRecord K))
  | [] => none
  | r :: rs =>
    if isCandidate c tk r then some (r.setCount 1 :: rs)
    else (markCandidate c tk rs).map (r :: ·)

/-- {lit}`waiting_buffer_scan_tap`, for the tapping key {lit}`tk`. -/
def waitingBufferScanTap (c : Config K) (tk : KeyRecord K) (s : State K) : State K :=
  if 0 < tk.tap.count ∨ tk.event.pressed = false then s
  else
    match markCandidate c tk s.waitingBuffer with
    | none => s
    | some waiting =>
      ({ s with tappingKey := some (tk.setCount 1), waitingBuffer := waiting } : State K).processRecord
        (tk.setCount 1)

/-! ## One record -/

/-- The "pressed" state within the tapping term, with {lit}`tap.count` zero. -/
def processUndecided (c : Config K) (tk keyp : KeyRecord K) (s : State K) :
    Bool × KeyRecord K × State K :=
  let e := keyp.event
  if e.key = tk.event.key ∧ e.pressed = false then
    -- first tap
    (false, { keyp with tap := (tk.setCount 1).tap },
      (s.setTappingKey (some (tk.setCount 1))).processRecord (tk.setCount 1))
  else if e.pressed = false ∧ waitingBufferTyped s e = true ∧
      c.permissiveHold tk.event.key = true then
    (false, keyp, (s.processRecord tk).setTappingKey none)
  else if e.pressed = false ∧ waitingBufferTyped s e = false then
    -- the key was pressed before the tapping key
    if c.retained e.key keyp.tap.count then (false, keyp, s)
    else (true, keyp, s.processRecord keyp)
  else if e.pressed = true then
    if c.holdOnOtherKeyPress tk.event.key then
      (false, keyp, (s.processRecord tk.setInterrupted).setTappingKey none)
    else (false, keyp, s.setTappingKey (some tk.setInterrupted))
  else (false, keyp, s)

/-- A new tap while the last one is down; a repeated one is released first. -/
def startNewTap (c : Config K) (tk keyp : KeyRecord K) (s : State K) : State K :=
  let release : KeyRecord K :=
    { event := { tk.event with time := keyp.event.time, pressed := false }, tap := tk.tap }
  let s := if 1 < tk.tap.count then { s with calls := s.calls ++ [.madeUp release] } else s
  waitingBufferScanTap c keyp (s.setTappingKey (some keyp))

/-- The "pressed" state with {lit}`tap.count` positive.  Within the tapping term the release
of the key becomes the tapping key, after it the machine is reset. -/
def processTapped (c : Config K) (tk keyp : KeyRecord K) (s : State K) :
    Bool × KeyRecord K × State K :=
  let e := keyp.event
  if e.key = tk.event.key ∧ e.pressed = false then
    let keyp := { keyp with tap := tk.tap }
    (true, keyp, (s.processRecord keyp).setTappingKey
      (if withinTappingTerm c tk e then some keyp else none))
  else if c.isTapRecord e.key = true ∧ e.pressed = true then (true, keyp, startNewTap c tk keyp s)
  else (true, keyp, s.processRecord keyp)

/-- The "pressed" state of the tapping key. -/
def processPressed (c : Config K) (tk keyp : KeyRecord K) (s : State K) :
    Bool × KeyRecord K × State K :=
  if tk.tap.count = 0 then
    if withinTappingTerm c tk keyp.event then
      if keyp.event.isEvent then processUndecided c tk keyp s else (true, keyp, s)
    else (false, keyp, (s.processRecord tk).setTappingKey none)
  else if keyp.event.isEvent then processTapped c tk keyp s
  else (true, keyp, s)

/-- The press of a key within the tapping term of one that is released. -/
def processReleasedPress (c : Config K) (tk keyp : KeyRecord K) (s : State K) :
    Bool × KeyRecord K × State K :=
  let e := keyp.event
  if e.key = tk.event.key then
    if withinQuickTapTerm c tk e = true ∧ tk.tap.interrupted = false ∧ 0 < tk.tap.count then
      -- sequential tap
      let keyp := { keyp with tap := tk.tap }
      let keyp := if keyp.tap.count < 15 then keyp.setCount (keyp.tap.count + 1) else keyp
      (true, keyp, (s.processRecord keyp).setTappingKey (some keyp))
    else (true, keyp, s.setTappingKey (some keyp))
  else if c.isTapRecord e.key then
    (true, keyp, waitingBufferScanTap c keyp (s.setTappingKey (some keyp)))
  else (true, keyp, (s.setTappingKey (some tk.setInterrupted)).processRecord keyp)

/-- The "released" state of the tapping key. -/
def processReleased (c : Config K) (tk keyp : KeyRecord K) (s : State K) :
    Bool × KeyRecord K × State K :=
  if withinTappingTerm c tk keyp.event then
    if keyp.event.isEvent then
      if keyp.event.pressed then processReleasedPress c tk keyp s
      else (true, keyp, s.processRecord keyp)
    else (true, keyp, s)
  else (false, keyp, s.setTappingKey none)

/-- The "reset" state. -/
def processReset (c : Config K) (keyp : KeyRecord K) (s : State K) :
    Bool × KeyRecord K × State K :=
  if keyp.event.isEvent then
    if keyp.event.pressed = true ∧ c.isTapRecord keyp.event.key = true then
      (true, keyp, waitingBufferScanTap c keyp (s.setTappingKey (some keyp)))
    else (true, keyp, s.processRecord keyp)
  else (true, keyp, s)

/-- {lit}`process_tapping`: whether the record was processed or consumed, and what became
of it. -/
def processTapping (c : Config K) (keyp : KeyRecord K) (s : State K) :
    Bool × KeyRecord K × State K :=
  match s.tappingKey with
  | none => processReset c keyp s
  | some tk =>
    if tk.event.pressed then processPressed c tk keyp s else processReleased c tk keyp s

/-! ## One event -/

/-- {lit}`waiting_buffer_enq`; on an overflow everything is cleared. -/
def waitingBufferEnq (r : KeyRecord K) (s : State K) : State K :=
  if r.event.isEvent then
    if s.waitingBuffer.length + 1 = waitingBufferSize then
      { s with tappingKey := none, waitingBuffer := [] }
    else { s with waitingBuffer := s.waitingBuffer ++ [r] }
  else s

/-- One round of the loop over the waiting buffer, on its first record. -/
def drainRound (c : Config K) (r : KeyRecord K) (s : State K) : Bool × State K :=
  let res := processTapping c r s
  if res.1 then (true, { res.2.2 with waitingBuffer := res.2.2.waitingBuffer.tail })
  else (false, { res.2.2 with waitingBuffer := res.2.1 :: res.2.2.waitingBuffer.tail })

/-- The loop over the waiting buffer: it stops at a record that is not processed. -/
def drain (c : Config K) : ℕ → State K → State K
  | 0, s => s
  | n + 1, s =>
    match s.waitingBuffer with
    | [] => s
    | r :: _ =>
      let res := drainRound c r s
      if res.1 then drain c n res.2 else res.2

/-- A record as {lit}`action_exec` makes it. -/
def newRecord (e : KeyEvent K) : KeyRecord K :=
  { event := e, tap := { interrupted := false, count := 0 } }

/-- The first half of {lit}`action_tapping_process`: the event at hand. -/
def processEvent (c : Config K) (s : State K) (e : KeyEvent K) : State K :=
  let res := processTapping c (newRecord e) s
  if res.1 then res.2.2 else waitingBufferEnq res.2.1 res.2.2

/-- {lit}`action_tapping_process` -/
def actionTappingProcess (c : Config K) (s : State K) (e : KeyEvent K) : State K :=
  let s := processEvent c s e
  drain c s.waitingBuffer.length s

/-- The variables at the start. -/
def initial : State K where
  tappingKey := none
  waitingBuffer := []
  calls := []

end Tapping
end VialQmk
