import VialQmk.Library.Runs
import Mathlib.Algebra.Order.Group.Unbundled.Int
import Mathlib.Data.Int.Notation
import Mathlib.Logic.Function.Basic
import Mathlib.Tactic.Linarith

/-!
# Encoders - quadrature decoding

{lit}`encoder_quadrature.c`: the two pins of an encoder are read as two bits of a Gray code.
The bits of the last reading and of this one index a table of pulses, and when the pulses
have added up to the resolution an event is queued.  No reading is a default position, and
the queue has room.

Main results:

- Definition {lit}`handleRead`: one reading of one encoder.
- Theorem {lit}`motion_conserved`: the motion of an encoder is the resolution times its
  events, and a rest below the resolution.
-/

namespace VialQmk
namespace Encoder

open Function (update update_self update_of_ne)
open StateMachine

/-! ## The driver -/

/-- {lit}`encoder_LUT` -/
def encoderLut : List ℤ :=
  [0, -1, 1, 0, 1, 0, 0, -1, -1, 0, 0, 1, 0, 1, -1, 0]

/-- An event of the queue. -/
structure Event where
  index : ℕ
  clockwise : Bool
deriving DecidableEq

/-- How the encoders of one half are built. -/
structure Config where
  /-- the number of the first encoder of this half -/
  thisHand : ℕ
  /-- {lit}`encoder_resolutions` -/
  resolutions : ℕ → ℕ
  /-- {lit}`ENCODER_CLOCKWISE` -/
  clockwise : Bool

/-- The static variables, and the events queued so far. -/
structure State (n : ℕ) where
  encoderState : Fin n → UInt8
  encoderPulses : Fin n → ℤ
  queued : List Event

/-- One reading of the two pins. -/
structure Sample where
  padA : Bool
  padB : Bool
deriving DecidableEq

/-- {lit}`pin_a_state | (pin_b_state << 1)` -/
def Sample.bits (x : Sample) : UInt8 :=
  x.padA.toUInt8 ||| x.padB.toUInt8 <<< 1

/-- {lit}`encoder_LUT[state & 0xF]` -/
def pulseOf (state : UInt8) : ℤ :=
  encoderLut.getD (state &&& 0xF).toNat 0

/-- The last readings, with this one behind them. -/
def shiftIn (state : UInt8) (x : Sample) : UInt8 :=
  state <<< 2 ||| x.bits

variable {n : ℕ} (c : Config)

/-- {lit}`encoder_handle_state_change` -/
def handleStateChange (s : State n) (i : Fin n) (state : UInt8) : State n :=
  let index := i.val + c.thisHand
  let resolution : ℤ := c.resolutions index
  let pulses := (s.encoderPulses i + pulseOf state).bmod 256
  let counterClockwise := if resolution ≤ pulses then [⟨index, !c.clockwise⟩] else []
  let clockwise := if pulses ≤ -resolution then [⟨index, c.clockwise⟩] else []
  { s with
    encoderPulses := update s.encoderPulses i (pulses.tmod resolution)
    queued := s.queued ++ counterClockwise ++ clockwise }

/-- {lit}`encoder_quadrature_handle_read` -/
def handleRead (s : State n) (i : Fin n) (x : Sample) : State n :=
  if s.encoderState i &&& 0x3 ≠ x.bits then
    let state := shiftIn (s.encoderState i) x
    handleStateChange c { s with encoderState := update s.encoderState i state } i state
  else s

/-- The readings come in any order. -/
def step (s : State n) (reading : Fin n × Sample) : State n :=
  handleRead c s reading.1 reading.2

/-- {lit}`encoder_quadrature_post_init`, with the pins as they are. -/
def State.boot (pins : Fin n → UInt8) : State n where
  encoderState := pins
  encoderPulses := fun _ => 0
  queued := []

/-! ## Motion -/

/-- The place of a reading in the Gray code, counter-clockwise. -/
def Sample.place (x : Sample) : ℕ :=
  match x.padA, x.padB with
  | false, false => 0
  | false, true => 1
  | true, true => 2
  | true, false => 3

/-- A step to the next place counts 1, one back counts -1.  Where both pins have changed, the
direction is unknown. -/
def grayStep (old new : Sample) : ℤ :=
  match (new.place + 4 - old.place) % 4 with
  | 1 => 1
  | 3 => -1
  | _ => 0

/-- The motion seen in a sequence of readings. -/
def motion : Sample → List Sample → ℤ
  | _, [] => 0
  | old, new :: xs => grayStep old new + motion new xs

/-- The pulses the table has for all changes in a sequence of readings. -/
def tablePulses : UInt8 → List Sample → ℤ
  | _, [] => 0
  | state, x :: xs =>
    if state &&& 0x3 ≠ x.bits then
      pulseOf (shiftIn state x) + tablePulses (shiftIn state x) xs
    else tablePulses state xs

/-- The reading the low bits stand for. -/
def lastSample (state : UInt8) : Sample :=
  ⟨state &&& 1 ≠ 0, state &&& 2 ≠ 0⟩

/-- The table has the direction of each legal step, and nothing for the others. -/
theorem pulseOf_shiftIn (state : UInt8) (x : Sample) :
    pulseOf (shiftIn state x) = grayStep (lastSample state) x := by
  have h : ∀ (bits : BitVec 8) (a b : Bool),
      pulseOf (shiftIn (.ofBitVec bits) ⟨a, b⟩) =
        grayStep (lastSample (.ofBitVec bits)) ⟨a, b⟩ := by
    decide +kernel
  exact h state.toBitVec x.padA x.padB

theorem lastSample_shiftIn (state : UInt8) (x : Sample) : lastSample (shiftIn state x) = x := by
  have h : ∀ (bits : BitVec 8) (a b : Bool),
      lastSample (shiftIn (.ofBitVec bits) ⟨a, b⟩) = ⟨a, b⟩ := by
    decide +kernel
  exact h state.toBitVec x.padA x.padB

/-- A reading that is taken for no change is the last one. -/
theorem lastSample_of_same {state : UInt8} {x : Sample} (h : state &&& 0x3 = x.bits) :
    lastSample state = x := by
  have hall : ∀ (bits : BitVec 8) (a b : Bool),
      UInt8.ofBitVec bits &&& 0x3 = Sample.bits ⟨a, b⟩ →
        lastSample (.ofBitVec bits) = ⟨a, b⟩ := by
    decide +kernel
  exact hall state.toBitVec x.padA x.padB h

theorem grayStep_self (x : Sample) : grayStep x x = 0 := by
  obtain ⟨a, b⟩ := x
  cases a <;> cases b <;> rfl

theorem grayStep_cases (old new : Sample) : -1 ≤ grayStep old new ∧ grayStep old new ≤ 1 := by
  unfold grayStep
  split <;> decide

/-- The pulses of the table are the motion. -/
theorem tablePulses_eq_motion (state : UInt8) (xs : List Sample) :
    tablePulses state xs = motion (lastSample state) xs := by
  induction xs generalizing state with
  | nil => rfl
  | cons x xs ih =>
    unfold tablePulses motion
    split_ifs with hchange
    · rw [pulseOf_shiftIn, ih, lastSample_shiftIn]
    · rw [ih, lastSample_of_same (not_not.mp hchange), grayStep_self, Int.zero_add]

/-! ## One encoder -/

/-- What belongs to one encoder: its variables, and the directions of its events. -/
structure View where
  state : UInt8
  pulses : ℤ
  turns : List Bool
deriving DecidableEq

def State.view (s : State n) (i : Fin n) : View where
  state := s.encoderState i
  pulses := s.encoderPulses i
  turns := (s.queued.filter fun e => e.index = i.val + c.thisHand).map Event.clockwise

/-- A reading, as far as its encoder is concerned. -/
def View.read (clockwise : Bool) (resolution : ℤ) (v : View) (x : Sample) : View :=
  if v.state &&& 0x3 ≠ x.bits then
    let state := shiftIn v.state x
    let pulses := (v.pulses + pulseOf state).bmod 256
    { state := state
      pulses := pulses.tmod resolution
      turns := v.turns ++ (if resolution ≤ pulses then [!clockwise] else []) ++
        if pulses ≤ -resolution then [clockwise] else [] }
  else v

/-- An encoder sees its own readings only. -/
theorem view_step (s : State n) (i j : Fin n) (x : Sample) :
    (step c s (j, x)).view c i =
      if j = i then (s.view c i).read c.clockwise (c.resolutions (i.val + c.thisHand)) x
      else s.view c i := by
  by_cases hij : j = i
  · subst hij
    rw [if_pos rfl]
    by_cases hchange : s.encoderState j &&& 0x3 ≠ x.bits
    · have hread : (s.view c j).read c.clockwise (c.resolutions (j.val + c.thisHand)) x = _ :=
        if_pos hchange
      have hstep : step c s (j, x) = _ := if_pos hchange
      rw [hread, hstep]
      simp only [handleStateChange, State.view, update_self, List.filter_append, List.map_append]
      congr 2
      · congr 1
        split_ifs with htop <;> simp [htop]
      · split_ifs with hbottom <;> simp [hbottom]
    · have hread : (s.view c j).read c.clockwise (c.resolutions (j.val + c.thisHand)) x = _ :=
        if_neg hchange
      have hstep : step c s (j, x) = _ := if_neg hchange
      rw [hread, hstep]
  · rw [if_neg hij]
    have hother : i.val ≠ j.val := fun h => hij (Fin.ext h.symm)
    have hindex : ¬ j.val = i.val := Ne.symm hother
    simp only [step, handleRead]
    split_ifs with hchange
    · simp only [handleStateChange, State.view, List.filter_append]
      rw [update_of_ne (Ne.symm hij), update_of_ne (Ne.symm hij)]
      split_ifs <;> simp [hindex]
    · rfl

/-- The readings of one encoder. -/
def samplesOf (i : Fin n) (readings : List (Fin n × Sample)) : List Sample :=
  (readings.filter fun r => r.1 = i).map Prod.snd

/-- A run looks to an encoder like its own readings one by one. -/
theorem view_run (s : State n) (i : Fin n) (readings : List (Fin n × Sample)) :
    (run (step c) s readings).view c i =
      (samplesOf i readings).foldl
        (View.read c.clockwise (c.resolutions (i.val + c.thisHand))) (s.view c i) := by
  induction readings generalizing s with
  | nil => rfl
  | cons r readings ih =>
    obtain ⟨j, x⟩ := r
    rw [run_cons, ih, view_step]
    by_cases hij : j = i
    · simp [samplesOf, hij]
    · simp [samplesOf, hij]

/-! ## Conservation -/

/-- Counter-clockwise events less the clockwise ones. -/
def balance (clockwise : Bool) (turns : List Bool) : ℤ :=
  turns.count (!clockwise) - turns.count clockwise

theorem balance_append (clockwise : Bool) (turns turns' : List Bool) :
    balance clockwise (turns ++ turns') = balance clockwise turns + balance clockwise turns' := by
  simp only [balance, List.count_append]
  omega

/-- Below the resolution nothing is taken off; at the resolution, all of it. -/
theorem tmod_cases (pulses resolution : ℤ) (hpos : 0 < resolution)
    (hlow : -resolution ≤ pulses) (hhigh : pulses ≤ resolution) :
    (pulses = resolution ∧ pulses.tmod resolution = 0) ∨
    (pulses = -resolution ∧ pulses.tmod resolution = 0) ∨
    (-resolution < pulses ∧ pulses < resolution ∧ pulses.tmod resolution = pulses) := by
  by_cases htop : pulses = resolution
  · exact .inl ⟨htop, by rw [htop, Int.tmod_self]⟩
  by_cases hbottom : pulses = -resolution
  · exact .inr (.inl ⟨hbottom, by rw [hbottom, Int.neg_tmod, Int.tmod_self, Int.neg_zero]⟩)
  refine .inr (.inr ⟨by omega, by omega, ?_⟩)
  rcases Int.le_total 0 pulses with hsign | hsign
  · exact Int.tmod_eq_of_lt hsign (by omega)
  · have hneg : (-pulses).tmod resolution = -pulses := Int.tmod_eq_of_lt (by omega) (by omega)
    rw [Int.neg_tmod] at hneg
    omega

/-- One reading: the pulse of the table goes into events and the rest. -/
theorem read_conserved (clockwise : Bool) {resolution : ℤ} (hpos : 1 ≤ resolution)
    (hmax : resolution ≤ 127) {v : View} (hlow : -resolution < v.pulses)
    (hhigh : v.pulses < resolution) (x : Sample) :
    let t := v.read clockwise resolution x
    (-resolution < t.pulses ∧ t.pulses < resolution) ∧
      resolution * balance clockwise t.turns + t.pulses =
        resolution * balance clockwise v.turns + v.pulses + tablePulses v.state [x] := by
  intro t
  by_cases hchange : v.state &&& 0x3 ≠ x.bits
  · obtain ⟨hleft, hright⟩ := grayStep_cases (lastSample v.state) x
    rw [← pulseOf_shiftIn] at hleft hright
    have hbmod : (v.pulses + pulseOf (shiftIn v.state x)).bmod 256 =
        v.pulses + pulseOf (shiftIn v.state x) :=
      Int.bmod_eq_of_le (by omega) (by omega)
    have htable : tablePulses v.state [x] = pulseOf (shiftIn v.state x) := by
      simp [tablePulses, hchange]
    have ht : t = _ := if_pos hchange
    dsimp only at ht
    rw [hbmod] at ht
    rw [ht, htable]
    dsimp only
    generalize hp : v.pulses + pulseOf (shiftIn v.state x) = pulses
    have hcases := tmod_cases pulses resolution (by omega) (by omega) (by omega)
    rw [balance_append, balance_append]
    rcases hcases with ⟨heq, hmod⟩ | ⟨heq, hmod⟩ | ⟨hbelow, habove, hmod⟩
    · have hccw : balance clockwise [!clockwise] = 1 := by cases clockwise <;> rfl
      rw [if_pos (by omega), if_neg (by omega), hmod, hccw]
      refine ⟨⟨by omega, by omega⟩, ?_⟩
      simp only [balance, List.count_nil]
      linarith
    · have hcw : balance clockwise [clockwise] = -1 := by cases clockwise <;> rfl
      rw [if_neg (by omega), if_pos (by omega), hmod, hcw]
      refine ⟨⟨by omega, by omega⟩, ?_⟩
      simp only [balance, List.count_nil]
      linarith
    · rw [if_neg (by omega), if_neg (by omega), hmod]
      refine ⟨⟨hbelow, habove⟩, ?_⟩
      simp only [balance, List.count_nil]
      linarith
  · have ht : t = v := if_neg hchange
    have htable : tablePulses v.state [x] = 0 := by
      simp [tablePulses, hchange]
    rw [ht, htable]
    exact ⟨⟨hlow, hhigh⟩, by omega⟩

theorem read_state (clockwise : Bool) (resolution : ℤ) (v : View) (x : Sample) :
    (v.read clockwise resolution x).state =
      if v.state &&& 0x3 ≠ x.bits then shiftIn v.state x else v.state := by
  unfold View.read
  split_ifs <;> rfl

theorem tablePulses_cons (state : UInt8) (x : Sample) (xs : List Sample) :
    tablePulses state (x :: xs) = tablePulses state [x] +
      tablePulses (if state &&& 0x3 ≠ x.bits then shiftIn state x else state) xs := by
  simp only [tablePulses]
  split_ifs with hchange
  · rw [Int.add_zero]
  · rw [Int.zero_add]

/-- A whole run of readings. -/
theorem foldl_read_conserved (clockwise : Bool) (resolution : ℤ) (hpos : 1 ≤ resolution)
    (hmax : resolution ≤ 127) (xs : List Sample) (v : View) (hlow : -resolution < v.pulses)
    (hhigh : v.pulses < resolution) :
    let t := xs.foldl (View.read clockwise resolution) v
    (-resolution < t.pulses ∧ t.pulses < resolution) ∧
      resolution * balance clockwise t.turns + t.pulses =
        resolution * balance clockwise v.turns + v.pulses + tablePulses v.state xs := by
  induction xs generalizing v with
  | nil => exact ⟨⟨hlow, hhigh⟩, (Int.add_zero _).symm⟩
  | cons x xs ih =>
    have hone := read_conserved clockwise hpos hmax hlow hhigh x
    have hrest := ih _ hone.1.1 hone.1.2
    refine ⟨hrest.1, ?_⟩
    have hcons := tablePulses_cons v.state x xs
    have hstate := read_state clockwise resolution v x
    have hsum := hrest.2
    rw [List.foldl_cons, hsum, hone.2, hstate, hcons]
    omega

/-- The motion of an encoder is the resolution times its events, and a rest below the
resolution.  The readings of the others do not matter. -/
theorem motion_conserved (pins : Fin n → UInt8)
    (hresolution : ∀ index, 1 ≤ c.resolutions index ∧ c.resolutions index ≤ 127)
    (readings : List (Fin n × Sample)) (i : Fin n) :
    let t := (run (step c) (.boot pins) readings).view c i
    let resolution : ℤ := c.resolutions (i.val + c.thisHand)
    tablePulses (pins i) (samplesOf i readings) =
        resolution * balance c.clockwise t.turns + t.pulses ∧
      (-resolution < t.pulses ∧ t.pulses < resolution) ∧
      tablePulses (pins i) (samplesOf i readings) =
        motion (lastSample (pins i)) (samplesOf i readings) ∧
      t = (run (step c) (.boot pins) (readings.filter fun r => r.1 = i)).view c i := by
  obtain ⟨hpos, hmax⟩ := hresolution (i.val + c.thisHand)
  have hview := view_run c (.boot pins) i
  have hrun := foldl_read_conserved c.clockwise (c.resolutions (i.val + c.thisHand))
    (by omega) (by omega) (samplesOf i readings) ((State.boot pins).view c i)
    (by simp only [State.view, State.boot]; omega) (by simp only [State.view, State.boot]; omega)
  rw [← hview] at hrun
  obtain ⟨hrest, hsum⟩ := hrun
  refine ⟨?_, hrest, tablePulses_eq_motion _ _, ?_⟩
  · have hzero : balance c.clockwise ((State.boot pins).view c i).turns = 0 := rfl
    have hstart : ((State.boot pins).view c i).pulses = 0 := rfl
    rw [hzero, hstart, Int.mul_zero, Int.zero_add, Int.zero_add] at hsum
    exact hsum.symm
  · rw [hview, hview]
    simp only [samplesOf, List.filter_filter, Bool.and_self]

/-- Four steps of an encoder of resolution 4 are an event, while the other bounces. -/
theorem motion_conserved_turn :
    let c : Config := ⟨0, fun _ => 4, true⟩
    let readings : List (Fin 2 × Sample) :=
      [(0, ⟨false, true⟩), (1, ⟨true, false⟩), (0, ⟨true, true⟩), (1, ⟨false, false⟩),
        (0, ⟨true, false⟩), (0, ⟨false, false⟩), (0, ⟨true, false⟩)]
    let t := (run (step c) (.boot fun _ => 0) readings).view c 0
    t = ⟨209, -1, [false]⟩ ∧
      tablePulses 0 (samplesOf 0 readings) = 4 * balance true t.turns + t.pulses :=
  ⟨by decide +kernel, (motion_conserved ⟨0, fun _ => 4, true⟩ (fun _ => 0)
    (fun _ => ⟨Nat.succ_pos 3, (by decide : 4 ≤ 127)⟩) _ 0).1⟩

end Encoder
end VialQmk
