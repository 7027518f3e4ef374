import Mathlib.Algebra.GroupWithZero.Nat
import Mathlib.Tactic.Common
import VialQmk.Library.BoundedLoop
import VialQmk.TapDance.Engine

/-!
# Tap dance - how often the key is sent

A dance whose only action is the one for a tap sends its keycode once for each tap.  The
first two taps are sent when the dance is finished, and from the third one on each tap is
sent when it is counted; three at once make up for the first two.  The counter has eight
bits: a dance that goes on counts 256 taps as none, and nothing is sent for the one that
makes it zero.

Main results:

- Definition {lit}`dances`: how many taps each dance has, where the task cuts off dances.
- Theorem {lit}`tapCount_iff`: every tap is sent once if and only if no dance has 256 taps.
-/

namespace VialQmk
namespace TapDance

/-! ## Taps of one key -/

/-- One tap of the dance key.  The task runs at some times while the key is down, and at
some while it is up. -/
structure Tap where
  press : UInt16
  down : List UInt16
  release : UInt16
  up : List UInt16

/-- How a sequence of taps ends. -/
inductive Ending
  /-- The task runs at this time. -/
  | timeout (now : UInt16)
  /-- Another key is pressed. -/
  | interrupt (now : UInt16) (keycode again : ℕ)

/-- The task cuts the dance off behind this tap. -/
def Tap.timesOut (term : UInt16) (t : Tap) : Bool :=
  (t.down ++ t.up).any fun now => term < now - t.press

/-- The numbers of taps of the dances, where the first dance has {lit}`n` taps already. -/
def dances (term : UInt16) : ℕ → List Tap → List ℕ
  | 0, [] => []
  | n + 1, [] => [n + 1]
  | n, t :: taps =>
    if t.timesOut term then (n + 1) :: dances term 0 taps else dances term (n + 1) taps

variable (c : Config) (i : ℕ)

/-- The calls in progress are executed, until {lit}`keep` of them are left. -/
def settle (keep : ℕ) (s : State) : State :=
  BoundedLoop.run (fun s => keep < s.calls.length) (fun s => step c s (.next false)) 16 s

/-- Something happens at a time, with all calls it leads to. -/
def happen (now : UInt16) (input : Input) (s : State) : State :=
  settle c 0 (step c (step c s (.time now)) input)

/-- The task runs at these times. -/
def scan (s : State) (times : List UInt16) : State :=
  times.foldl (fun s now => happen c now .task s) s

/-- The key of the dance is tapped. -/
def tapKey (s : State) (t : Tap) : State :=
  let s := scan c (happen c t.press (.key (td i) (td i) true) s) t.down
  scan c (happen c t.release (.key (td i) (td i) false) s) t.up

/-- The sequence ends.  Of an interrupting key only what it does to the dance is executed,
and the key itself is left. -/
def finish (s : State) : Ending → State
  | .timeout now => happen c now .task s
  | .interrupt now keycode again =>
    settle c 1 (step c (step c (step c s (.time now)) (.key keycode again true)) (.next false))

/-- The press of the last tap. -/
def lastPress (last : UInt16) (taps : List Tap) : UInt16 :=
  taps.foldl (fun _ t => t.press) last

/-- The sequence does end: the term is over, or it is the key of another keycode. -/
def Ending.Ends (term last : UInt16) : Ending → Prop
  | .timeout now => term < now - last
  | .interrupt _ keycode _ => keycode ≠ td i

/-- What a dance has sent. -/
def emitted (s : State) : List Event :=
  s.log.filter fun e => e.owner = some i

/-- The keycode goes down and up {lit}`n` times. -/
def pairs (keycode n : ℕ) : List Event :=
  (List.replicate n [⟨some i, keycode, true⟩, ⟨some i, keycode, false⟩]).flatten

/-! ## Counting -/

/-- The taps sent when a tap is counted. -/
def gain (count : UInt8) : ℕ :=
  if count = 3 then 3 else if 3 < count then 1 else 0

/-- The taps sent when the dance is finished after {lit}`n` taps. -/
def late (n : ℕ) : ℕ :=
  if n % 256 ≤ 2 then n % 256 else 0

/-- The taps sent before. -/
def early (n : ℕ) : ℕ :=
  n - n / 256 - late n

theorem early_succ (n : ℕ) : early (n + 1) = early n + gain (UInt8.ofNat (n + 1)) := by
  have hthree : UInt8.ofNat (n + 1) = 3 ↔ (n + 1) % 256 = 3 := by
    rw [← UInt8.toNat_inj, UInt8.toNat_ofNat']
    rfl
  have hmore : 3 < UInt8.ofNat (n + 1) ↔ 3 < (n + 1) % 256 := by
    rw [UInt8.lt_iff_toNat_lt, UInt8.toNat_ofNat']
    rfl
  simp only [early, late, gain, hthree, hmore]
  split_ifs <;> omega

theorem early_add_late (n : ℕ) : early n + late n = n - n / 256 := by
  unfold early late
  split_ifs <;> omega

theorem pairs_add (keycode m n : ℕ) :
    pairs i keycode (m + n) = pairs i keycode m ++ pairs i keycode n := by
  rw [pairs, ← List.replicate_append_replicate, List.flatten_append]
  rfl

theorem length_pairs (keycode n : ℕ) : (pairs i keycode n).length = 2 * n := by
  simp [pairs, Nat.mul_comm]

/-! ## One dance -/

/-- What the calls of one dance depend on. -/
structure View where
  dance : Dance
  danceState : DanceStep
  tdEntry : Entry
  activeTd : ℕ
  lastTapTime : UInt16
  now : UInt16
  calls : List Call
  out : List Event

/-- The part of a state that belongs to a dance. -/
def view (s : State) : View :=
  ⟨s.dances i, s.danceState i, s.tdEntry, s.activeTd, s.lastTapTime, s.now, s.calls, emitted i s⟩

/-- The entry of a dance that sends a keycode for a tap, and nothing else. -/
def onTapEntry (onTap : ℕ) (term : UInt16) : Entry :=
  ⟨onTap, 0, 0, 0, term⟩

/-- The dance {lit}`i` has such an entry, and looks like this. -/
structure Looks (onTap : ℕ) (term : UInt16) (v : View) (s : State) : Prop where
  entry : s.table i = onTapEntry onTap term
  view : view i s = v

/-- The settings of the keyboard, and the keycode. -/
structure Fits (onTap : ℕ) : Prop where
  index : i < c.vialTapDanceEntries
  byte : i < 256
  sends : onTap ≠ 0
  basic : onTap ≤ qkModsMax

section Calls

variable {c i} {s : State} {v : View} {onTap : ℕ} {term : UInt16} {calls : List Call}

/-- A keycode is sent. -/
theorem Looks.send (h : Looks i onTap term v s) (hc : Fits c i onTap) {pressed : Bool}
    (hcalls : v.calls = .vialKeycode (some i) onTap pressed :: calls) :
    Looks i onTap term
      { v with calls := calls, out := v.out ++ [⟨some i, onTap, pressed⟩] }
      (step c s (.next false)) := by
  obtain ⟨hentry, rfl⟩ := h
  change s.calls = _ at hcalls
  have hstep : step c s (.next false) =
      { s with magic := onTap, log := s.log ++ [⟨some i, onTap, pressed⟩], calls := calls } := by
    simp only [step, hcalls, exec, vialKeycode, if_pos hc.basic]
  rw [hstep]
  refine ⟨hentry, ?_⟩
  simp only [TapDance.view, emitted, List.filter_append, List.filter_cons, List.filter_nil,
    decide_true, if_true]

/-- A key that does not interrupt the dance gets to its keycode. -/
theorem Looks.processRecord (h : Looks i onTap term v s) {keycode again : ℕ} {pressed : Bool}
    (hcalls : v.calls = .processRecord (.keymap keycode again) pressed :: calls)
    (hactive : v.activeTd = 0 ∨ keycode = v.activeTd) :
    Looks i onTap term { v with calls := .processKeycode none keycode pressed :: calls }
      (step c s (.next false)) := by
  obtain ⟨hentry, rfl⟩ := h
  change s.calls = _ at hcalls
  have hquiet : ¬ (pressed = true ∧ s.activeTd ≠ 0 ∧ keycode ≠ s.activeTd) := by
    rintro ⟨-, hzero, hne⟩
    exact hactive.elim hzero hne
  have hstep : step c s (.next false) =
      preprocessTapDance (.keymap keycode again) keycode pressed { s with calls := calls } := by
    simp only [step, hcalls, exec, State.lookup]
  rw [hstep, preprocessTapDance, if_neg hquiet]
  exact ⟨hentry, rfl⟩

/-- Another key interrupts the active dance. -/
theorem Looks.interrupt (h : Looks i onTap term v s) (hc : Fits c i onTap) {keycode again : ℕ}
    (hcalls : v.calls = .processRecord (.keymap keycode again) true :: calls)
    (hactive : v.activeTd = td i) (hne : keycode ≠ td i) :
    Looks i onTap term
      { v with
        dance := { v.dance with interrupted := true, interruptingKeycode := keycode }
        calls := .onDanceFinished i :: .lookAgain (.keymap keycode again) true :: calls }
      (step c s (.next false)) := by
  obtain ⟨hentry, rfl⟩ := h
  change s.calls = _ at hcalls
  change s.activeTd = _ at hactive
  have hinterrupt : true = true ∧ s.activeTd ≠ 0 ∧ keycode ≠ s.activeTd := by
    rw [hactive]
    exact ⟨rfl, td_ne_zero i, hne⟩
  have hstep : step c s (.next false) =
      preprocessTapDance (.keymap keycode again) keycode true { s with calls := calls } := by
    simp only [step, hcalls, exec, State.lookup]
  rw [hstep, preprocessTapDance, if_pos hinterrupt]
  dsimp only
  rw [hactive, getIndex_td hc.byte]
  refine ⟨hentry, ?_⟩
  simp only [TapDance.view, State.call, State.modify, State.access, Function.update_self,
    List.cons_append, List.nil_append, emitted, hactive]

/-- A tap is counted. -/
theorem Looks.count (h : Looks i onTap term v s) (hc : Fits c i onTap)
    (hcalls : v.calls = .processKeycode none (td i) true :: calls) :
    Looks i onTap term
      { v with
        dance := { v.dance with pressed := true, count := v.dance.count + 1 }
        tdEntry := onTapEntry onTap term
        lastTapTime := v.now
        calls := (List.replicate (gain (v.dance.count + 1)) (vialKeycodeTap i onTap)).flatten ++
          .activate i :: calls }
      (step c s (.next false)) := by
  obtain ⟨hentry, rfl⟩ := h
  change s.calls = _ at hcalls
  have htd := isTapDance_td hc.byte
  have htaps : (if (s.dances i).count + 1 = 3 then
        vialKeycodeTap i onTap ++ vialKeycodeTap i onTap ++ vialKeycodeTap i onTap
      else if 3 < (s.dances i).count + 1 then vialKeycodeTap i onTap else []) =
      (List.replicate (gain ((s.dances i).count + 1)) (vialKeycodeTap i onTap)).flatten := by
    unfold gain
    split_ifs <;> simp [List.replicate]
  simp only [step, hcalls, exec, if_true, processTapDance, htd, getIndex_td hc.byte, onDance,
    dynamicKeymapGetTapDance_of_lt hc.index, State.countTap, State.call, State.modify,
    State.access, Function.update_self, hentry, onTapEntry, ne_eq, hc.sends, not_false_eq_true]
  refine ⟨hentry, ?_⟩
  simp only [TapDance.view, Function.update_self, htaps]
  simp [emitted]

/-- A dance that is counted is the active one. -/
theorem Looks.activate (h : Looks i onTap term v s) (hcalls : v.calls = .activate i :: calls) :
    Looks i onTap term
      { v with activeTd := if v.dance.finished then 0 else td i, calls := calls }
      (step c s (.next false)) := by
  obtain ⟨hentry, rfl⟩ := h
  change s.calls = _ at hcalls
  simp only [step, hcalls, exec]
  exact ⟨hentry, rfl⟩

/-- The hook for releases does nothing. -/
theorem processRecordVial_onTap {keycode : ℕ} {s : State} (htd : isTapDance keycode = true)
    (hindex : getIndex keycode = i) (hc : Fits c i onTap)
    (hentry : s.table i = onTapEntry onTap term) :
    processRecordVial c keycode s = { s.access i with tdEntry := onTapEntry onTap term } := by
  rw [processRecordVial, if_pos htd, sub_qkTapDance htd, hindex]
  dsimp only
  rw [dynamicKeymapGetTapDance_of_lt hc.index, hentry]
  dsimp only
  rw [if_neg]
  rintro (⟨-, -, hhold, -⟩ | ⟨-, hdouble⟩)
  · exact hhold rfl
  · exact hdouble rfl

theorem Looks.release (h : Looks i onTap term v s) (hc : Fits c i onTap)
    (hcalls : v.calls = .processKeycode none (td i) false :: calls) :
    Looks i onTap term
      { v with tdEntry := onTapEntry onTap term, calls := .tapDanceRelease (td i) :: calls }
      (step c s (.next false)) := by
  obtain ⟨hentry, rfl⟩ := h
  change s.calls = _ at hcalls
  have hstep : step c s (.next false) =
      processRecordVial c (td i)
        { s with
          calls := .tapDanceRelease (td i) :: calls
          log := s.log ++ [⟨none, td i, false⟩] } := by
    simp only [step, hcalls, exec, Bool.false_eq_true, if_false, State.call, List.cons_append,
      List.nil_append]
  rw [hstep, @processRecordVial_onTap c i onTap term _ _ (isTapDance_td hc.byte)
    (getIndex_td hc.byte) hc]
  · refine ⟨hentry, ?_⟩
    simp [TapDance.view, emitted, State.access]
  · exact hentry

/-- The key is up, and a dance that was finished is reset. -/
theorem Looks.tapDanceRelease (h : Looks i onTap term v s) (hc : Fits c i onTap)
    (hcalls : v.calls = .tapDanceRelease (td i) :: calls) :
    Looks i onTap term
      { v with
        dance := { v.dance with pressed := false }
        calls := if v.dance.finished then .onReset i true :: calls else calls }
      (step c s (.next false)) := by
  obtain ⟨hentry, rfl⟩ := h
  change s.calls = _ at hcalls
  have hview : (TapDance.view i s).dance = s.dances i := rfl
  rw [hview]
  cases hfinished : (s.dances i).finished <;>
    simp only [step, hcalls, exec, processTapDanceRelease, isTapDance_td hc.byte, if_true,
      getIndex_td hc.byte, State.modify, State.access, Function.update_self, State.call,
      hfinished, Bool.false_eq_true, if_false] <;>
    refine ⟨hentry, ?_⟩ <;>
    simp [TapDance.view, emitted]

/-- The taps that are sent when a dance is finished. -/
def DanceStep.sent : DanceStep → ℕ
  | .singleTap | .singleHold => 1
  | .doubleTap | .doubleHold | .doubleSingleTap => 2
  | .none | .moreTaps => 0

theorem sent_danceStep (d : Dance) (n : ℕ) (hcount : d.count = UInt8.ofNat n) :
    (danceStep d).sent = late n := by
  have hone : d.count = 1 ↔ n % 256 = 1 := by
    rw [hcount, ← UInt8.toNat_inj, UInt8.toNat_ofNat']
    rfl
  have htwo : d.count = 2 ↔ n % 256 = 2 := by
    rw [hcount, ← UInt8.toNat_inj, UInt8.toNat_ofNat']
    rfl
  simp only [danceStep, late, hone, htwo]
  split_ifs <;> simp only [DanceStep.sent] <;> omega

/-- The calls that press the key when a dance is finished. -/
def downCalls (i onTap : ℕ) (st : DanceStep) : List Call :=
  match st.sent with
  | 0 => []
  | 1 => [.vialKeycode (some i) onTap true]
  | _ => vialKeycodeTap i onTap ++ [.afterTap st i]

theorem finishedCalls_onTap (honTap : onTap ≠ 0) (st : DanceStep) :
    finishedCalls i (onTapEntry onTap term) st = downCalls i onTap st := by
  cases st <;> simp [finishedCalls, downCalls, DanceStep.sent, onTapEntry, honTap]

theorem resetCalls_onTap (honTap : onTap ≠ 0) (st : DanceStep) :
    resetCalls i (onTapEntry onTap term) st =
      if st.sent = 0 then [] else [.vialKeycode (some i) onTap false] := by
  cases st <;> simp [resetCalls, DanceStep.sent, onTapEntry, honTap]

theorem afterTapKeycode_onTap (st : DanceStep) :
    afterTapKeycode (onTapEntry onTap term) st = onTap := by
  cases st <;> simp [afterTapKeycode, onTapEntry]

/-- The callback for a finished dance is called. -/
theorem Looks.onDanceFinished (h : Looks i onTap term v s) (hc : Fits c i onTap)
    (hcalls : v.calls = .onDanceFinished i :: calls) (hfinished : v.dance.finished = false) :
    Looks i onTap term
      { v with
        dance := { v.dance with finished := true }
        danceState := danceStep v.dance
        tdEntry := onTapEntry onTap term
        calls := downCalls i onTap (danceStep v.dance) ++ .afterFinished i :: calls }
      (step c s (.next false)) := by
  obtain ⟨hentry, rfl⟩ := h
  change s.calls = _ at hcalls
  change (s.dances i).finished = _ at hfinished
  have hstep : step c s (.next false) =
      exec c false { s with calls := calls } (.onDanceFinished i) := by
    simp only [step, hcalls, Input.keepsBack]
  rcases @exec_onDanceFinished c false i { s with calls := calls } hfinished with
    ⟨hge, -⟩ | ⟨-, hexec⟩
  · exact absurd hc.index hge
  · rw [hstep, hexec]
    refine ⟨hentry, ?_⟩
    simp [TapDance.view, emitted, State.modify, State.call, hentry, finishedCalls_onTap hc.sends]

/-- The key goes down after the first of two taps. -/
theorem Looks.afterTap (h : Looks i onTap term v s) {st : DanceStep}
    (hcalls : v.calls = .afterTap st i :: calls) (hentry : v.tdEntry = onTapEntry onTap term) :
    Looks i onTap term { v with calls := .vialKeycode (some i) onTap true :: calls }
      (step c s (.next false)) := by
  obtain ⟨htable, rfl⟩ := h
  change s.calls = _ at hcalls
  change s.tdEntry = _ at hentry
  simp only [step, hcalls, exec, hentry, afterTapKeycode_onTap, State.call]
  exact ⟨htable, by simp [TapDance.view, emitted, hentry]⟩

/-- A dance whose key is up is reset at once. -/
theorem Looks.afterFinished (h : Looks i onTap term v s)
    (hcalls : v.calls = .afterFinished i :: calls) :
    Looks i onTap term
      { v with
        activeTd := 0
        calls := if v.dance.pressed then calls else .onReset i false :: calls }
      (step c s (.next false)) := by
  obtain ⟨hentry, rfl⟩ := h
  change s.calls = _ at hcalls
  have hview : (TapDance.view i s).dance = s.dances i := rfl
  rw [hview]
  cases hpressed : (s.dances i).pressed <;>
    simp only [step, hcalls, exec, hpressed, State.call, Bool.false_eq_true, if_false, if_true] <;>
    exact ⟨hentry, by simp [TapDance.view, emitted]⟩

theorem Looks.onReset (h : Looks i onTap term v s) (hc : Fits c i onTap) {released : Bool}
    (hcalls : v.calls = .onReset i released :: calls) :
    Looks i onTap term
      { v with
        dance := { v.dance with count := 0 }
        danceState := .none
        tdEntry := onTapEntry onTap term
        calls := (if v.danceState.sent = 0 then [] else [.vialKeycode (some i) onTap false]) ++
          .afterReset i released :: calls }
      (step c s (.next false)) := by
  obtain ⟨hentry, rfl⟩ := h
  change s.calls = _ at hcalls
  have hstep : step c s (.next false) =
      exec c false { s with calls := calls } (.onReset i released) := by
    simp only [step, hcalls, Input.keepsBack]
  rcases @exec_onReset c false i released { s with calls := calls } with ⟨hge, -⟩ | ⟨-, hexec⟩
  · exact absurd hc.index hge
  · rw [hstep, hexec]
    refine ⟨hentry, ?_⟩
    by_cases hsent : (s.danceState i).sent = 0 <;>
      simp [TapDance.view, emitted, State.modify, State.call, hentry, resetCalls_onTap hc.sends,
        hsent]

theorem Looks.afterReset (h : Looks i onTap term v s) {released : Bool}
    (hcalls : v.calls = .afterReset i released :: calls) (hactive : v.activeTd = 0) :
    Looks i onTap term { v with dance := Dance.zero, calls := calls } (step c s (.next false)) := by
  obtain ⟨hentry, rfl⟩ := h
  change s.calls = _ at hcalls
  change s.activeTd = _ at hactive
  have hother : ¬ (released = true ∧
      (({ s with calls := calls } : State).modify i fun _ => Dance.zero).activeTd = td i) := by
    rintro ⟨-, heq⟩
    exact td_ne_zero i (heq.symm.trans hactive)
  simp only [step, hcalls, exec]
  rw [if_neg hother]
  exact ⟨hentry, by simp [TapDance.view, emitted, State.modify]⟩

end Calls

/-! ## Chains of calls -/

section Chains

/-- The rounds of {lit}`settle`. -/
def rounds (c : Config) (keep n : ℕ) (s : State) : State :=
  BoundedLoop.run (fun s => keep < s.calls.length) (fun s => step c s (.next false)) n s

/-- At most {lit}`k` calls lead from one view to another one. -/
def Leads (c : Config) (i onTap : ℕ) (term : UInt16) (keep k : ℕ) (v w : View) : Prop :=
  ∀ s, Looks i onTap term v s → ∃ t j, j ≤ k ∧ Looks i onTap term w t ∧
    ∀ n, rounds c keep (j + n) s = rounds c keep n t

variable {c : Config} {i : ℕ} {s : State} {u v w : View} {onTap keep k l : ℕ} {term : UInt16}
  {rest : List Call}

theorem rounds_succ (h : keep < s.calls.length) (n : ℕ) :
    rounds c keep (n + 1) s = rounds c keep n (step c s (.next false)) :=
  BoundedLoop.run_succ_of_true (by simpa using h) n

theorem rounds_done (h : s.calls.length ≤ keep) (n : ℕ) : rounds c keep n s = s :=
  BoundedLoop.run_of_false (by simpa using h) n

theorem Leads.refl (v : View) : Leads c i onTap term keep 0 v v :=
  fun s hs => ⟨s, 0, Nat.le_refl 0, hs, fun n => by rw [Nat.zero_add]⟩

theorem Leads.trans (h : Leads c i onTap term keep k u v) (h' : Leads c i onTap term keep l v w) :
    Leads c i onTap term keep (k + l) u w := by
  intro s hs
  obtain ⟨t, j, hj, ht, hrounds⟩ := h s hs
  obtain ⟨r, j', hj', hr, hrounds'⟩ := h' t ht
  refine ⟨r, j + j', Nat.add_le_add hj hj', hr, fun n => ?_⟩
  rw [Nat.add_assoc, hrounds, hrounds']

theorem Leads.mono (h : Leads c i onTap term keep k v w) (hkl : k ≤ l) :
    Leads c i onTap term keep l v w := by
  intro s hs
  obtain ⟨t, j, hj, ht, hrounds⟩ := h s hs
  exact ⟨t, j, Nat.le_trans hj hkl, ht, hrounds⟩

/-- One call is executed. -/
theorem Leads.call (c : Config) (i onTap : ℕ) (term : UInt16) (keep : ℕ)
    (hkeep : keep < v.calls.length)
    (hstep : ∀ s, Looks i onTap term v s → Looks i onTap term w (step c s (.next false))) :
    Leads c i onTap term keep 1 v w := by
  intro s hs
  refine ⟨_, 1, Nat.le_refl 1, hstep s hs, fun n => ?_⟩
  obtain ⟨-, rfl⟩ := hs
  rw [Nat.add_comm]
  exact rounds_succ hkeep n

/-- The rounds are enough. -/
theorem Leads.settle (h : Leads c i onTap term keep k v w) (hk : k ≤ 16)
    (hdone : w.calls.length ≤ keep) (hs : Looks i onTap term v s) :
    Looks i onTap term w (settle c keep s) := by
  obtain ⟨t, j, hj, ht, hrounds⟩ := h s hs
  obtain ⟨n, hn⟩ := Nat.exists_eq_add_of_le (Nat.le_trans hj hk)
  have hsettle : TapDance.settle c keep s = rounds c keep n t := by
    rw [← hrounds, ← hn]
    rfl
  have hstop : rounds c keep n t = t := by
    obtain ⟨-, rfl⟩ := ht
    exact rounds_done hdone n
  rw [hsettle, hstop]
  exact ht

theorem leads_send (term : UInt16) (hc : Fits c i onTap) {pressed : Bool} {calls : List Call}
    (hcalls : v.calls = .vialKeycode (some i) onTap pressed :: calls)
    (hkeep : keep ≤ calls.length) :
    Leads c i onTap term keep 1 v
      { v with calls := calls, out := v.out ++ [⟨some i, onTap, pressed⟩] } :=
  Leads.call c i onTap term keep (by rw [hcalls]; exact Nat.lt_succ_of_le hkeep) fun _ hs =>
    hs.send hc hcalls

/-- Taps are sent one after the other. -/
theorem leads_taps (term : UInt16) (hc : Fits c i onTap) (hkeep : keep ≤ rest.length) (m : ℕ)
    (v : View)
    (hcalls : v.calls = (List.replicate m (vialKeycodeTap i onTap)).flatten ++ rest) :
    Leads c i onTap term keep (2 * m) v
      { v with calls := rest, out := v.out ++ pairs i onTap m } := by
  induction m generalizing v with
  | zero =>
    have hsame : v = { v with calls := rest, out := v.out ++ pairs i onTap 0 } := by
      cases v
      simpa [pairs] using hcalls
    rw [← hsame]
    exact Leads.refl v
  | succ m ih =>
    have hlong : keep ≤ ((List.replicate m (vialKeycodeTap i onTap)).flatten ++ rest).length := by
      rw [List.length_append]
      exact Nat.le_add_left_of_le hkeep
    have htap : (List.replicate (m + 1) (vialKeycodeTap i onTap)).flatten ++ rest =
        .vialKeycode (some i) onTap true :: .vialKeycode (some i) onTap false ::
          ((List.replicate m (vialKeycodeTap i onTap)).flatten ++ rest) := by
      simp [List.replicate_succ, vialKeycodeTap]
    have hdown := leads_send term hc (hcalls.trans htap) (Nat.le_succ_of_le hlong)
    have hup := hdown.trans (leads_send term hc rfl hlong)
    have hall := hup.trans (ih _ rfl)
    have hout : v.out ++ [⟨some i, onTap, true⟩] ++ [⟨some i, onTap, false⟩] ++ pairs i onTap m =
        v.out ++ pairs i onTap (m + 1) := by
      rw [Nat.add_comm m 1, pairs_add]
      simp [pairs]
    rw [← hout]
    exact hall.mono (by omega)

/-- What is sent when a dance is finished, apart from the last release. -/
def downs (i onTap : ℕ) (st : DanceStep) : List Event :=
  match st.sent with
  | 0 => []
  | 1 => [⟨some i, onTap, true⟩]
  | _ => pairs i onTap 1 ++ [⟨some i, onTap, true⟩]

/-- The last release. -/
def ups (i onTap : ℕ) (st : DanceStep) : List Event :=
  if st.sent = 0 then [] else [⟨some i, onTap, false⟩]

theorem downs_append_ups (i onTap : ℕ) (st : DanceStep) :
    downs i onTap st ++ ups i onTap st = pairs i onTap st.sent := by
  cases st <;> simp [downs, ups, DanceStep.sent, pairs]

theorem leads_downCalls (hc : Fits c i onTap) (hkeep : keep ≤ rest.length) (st : DanceStep)
    (hcalls : v.calls = downCalls i onTap st ++ rest)
    (hentry : v.tdEntry = onTapEntry onTap term) :
    Leads c i onTap term keep 4 v
      { v with calls := rest, out := v.out ++ downs i onTap st } := by
  unfold downCalls at hcalls
  unfold downs
  split at hcalls
  · have hsame : v = { v with calls := rest, out := v.out ++ [] } := by
      cases v
      simpa using hcalls
    rw [← hsame]
    exact (Leads.refl v).mono (Nat.zero_le 4)
  · exact (leads_send term hc hcalls hkeep).mono (by decide)
  · have htap : v.calls = (List.replicate 1 (vialKeycodeTap i onTap)).flatten ++
        .afterTap st i :: rest := by
      simpa using hcalls
    have hfirst := leads_taps term hc (Nat.le_succ_of_le hkeep) 1 v htap
    have hafter : Leads c i onTap term keep 1
        { v with calls := .afterTap st i :: rest, out := v.out ++ pairs i onTap 1 }
        { v with
          calls := .vialKeycode (some i) onTap true :: rest, out := v.out ++ pairs i onTap 1 } :=
      Leads.call c i onTap term keep (Nat.lt_succ_of_le hkeep) fun _ hs => hs.afterTap rfl hentry
    have hall := (hfirst.trans hafter).trans (leads_send term hc rfl hkeep)
    rw [List.append_assoc] at hall
    exact hall

/-- A dance is finished.  When its key is down it waits for the release, else it is reset. -/
theorem leads_onDanceFinished (term : UInt16) (hc : Fits c i onTap) (hkeep : keep ≤ rest.length)
    (hcalls : v.calls = .onDanceFinished i :: rest) (hfinished : v.dance.finished = false) :
    Leads c i onTap term keep 6 v
      { v with
        dance := { v.dance with finished := true }
        danceState := danceStep v.dance
        tdEntry := onTapEntry onTap term
        activeTd := 0
        calls := if v.dance.pressed then rest else .onReset i false :: rest
        out := v.out ++ downs i onTap (danceStep v.dance) } := by
  have hfinish := Leads.call c i onTap term keep
    (by rw [hcalls]; exact Nat.lt_succ_of_le hkeep) fun _ hs =>
      hs.onDanceFinished hc hcalls hfinished
  have hdowns := leads_downCalls hc (Nat.le_succ_of_le hkeep) (danceStep v.dance)
    (v := { v with
      dance := { v.dance with finished := true }
      danceState := danceStep v.dance
      tdEntry := onTapEntry onTap term
      calls := downCalls i onTap (danceStep v.dance) ++ .afterFinished i :: rest }) rfl rfl
  have hafter := Leads.call c i onTap term keep
    (v := { v with
      dance := { v.dance with finished := true }
      danceState := danceStep v.dance
      tdEntry := onTapEntry onTap term
      calls := .afterFinished i :: rest
      out := v.out ++ downs i onTap (danceStep v.dance) })
    (Nat.lt_succ_of_le hkeep) fun _ hs => hs.afterFinished rfl
  exact (hfinish.trans hdowns).trans hafter

/-- A dance is reset. -/
theorem leads_onReset (hc : Fits c i onTap) (hkeep : keep ≤ rest.length) {released : Bool}
    (hcalls : v.calls = .onReset i released :: rest) (hactive : v.activeTd = 0) :
    Leads c i onTap term keep 3 v
      { v with
        dance := Dance.zero
        danceState := .none
        tdEntry := onTapEntry onTap term
        calls := rest
        out := v.out ++ ups i onTap v.danceState } := by
  have hreset := Leads.call c i onTap term keep
    (by rw [hcalls]; exact Nat.lt_succ_of_le hkeep) fun _ hs =>
      hs.onReset hc hcalls
  by_cases hsent : v.danceState.sent = 0
  · rw [if_pos hsent, List.nil_append] at hreset
    have hafter := Leads.call c i onTap term keep
      (v := { v with
        dance := { v.dance with count := 0 }
        danceState := .none
        tdEntry := onTapEntry onTap term
        calls := .afterReset i released :: rest })
      (Nat.lt_succ_of_le hkeep) fun _ hs => hs.afterReset rfl hactive
    rw [ups, if_pos hsent, List.append_nil]
    exact (hreset.trans hafter).mono (by decide)
  · rw [if_neg hsent] at hreset
    have hup := hreset.trans (leads_send term hc rfl (Nat.le_succ_of_le hkeep))
    have hafter := Leads.call c i onTap term keep
      (v := { v with
        dance := { v.dance with count := 0 }
        danceState := .none
        tdEntry := onTapEntry onTap term
        calls := .afterReset i released :: rest
        out := v.out ++ [⟨some i, onTap, false⟩] })
      (Nat.lt_succ_of_le hkeep) fun _ hs => hs.afterReset rfl hactive
    rw [ups, if_neg hsent]
    exact hup.trans hafter

/-- The press of the key of a dance that is not finished. -/
theorem leads_press (hc : Fits c i onTap) {again : ℕ} (term : UInt16) (v : View)
    (hcalls : v.calls = [.processRecord (.keymap (td i) again) true])
    (hactive : v.activeTd = 0 ∨ td i = v.activeTd) (hfinished : v.dance.finished = false) :
    Leads c i onTap term 0 9 v
      { v with
        dance := { v.dance with pressed := true, count := v.dance.count + 1 }
        tdEntry := onTapEntry onTap term
        activeTd := td i
        lastTapTime := v.now
        calls := []
        out := v.out ++ pairs i onTap (gain (v.dance.count + 1)) } := by
  have hgain : gain (v.dance.count + 1) ≤ 3 := by
    unfold gain
    split_ifs <;> decide
  have hrecord := Leads.call c i onTap term 0 (by rw [hcalls]; exact Nat.zero_lt_one) fun _ hs =>
    hs.processRecord hcalls hactive
  have hcount := hrecord.trans
    (Leads.call c i onTap term 0 (Nat.zero_lt_succ _) fun _ hs => hs.count hc rfl)
  have htaps := hcount.trans (leads_taps term hc (Nat.zero_le _) _ _ rfl)
  have hall := htaps.trans
    (Leads.call c i onTap term 0 (Nat.zero_lt_succ _) fun _ hs => hs.activate rfl)
  have hopen : (if v.dance.finished = true then 0 else td i) = td i := by
    rw [hfinished, if_neg Bool.false_ne_true]
  dsimp only at hall
  rw [hopen] at hall
  have hcalls : 1 + 1 + 2 * gain (v.dance.count + 1) + 1 ≤ 9 := by omega
  exact hall.mono hcalls

/-- The release of the key of a dance. -/
theorem leads_release (hc : Fits c i onTap) {again : ℕ} (term : UInt16) (v : View)
    (hcalls : v.calls = [.processRecord (.keymap (td i) again) false])
    (hactive : v.activeTd = 0 ∨ td i = v.activeTd) :
    Leads c i onTap term 0 3 v
      { v with
        dance := { v.dance with pressed := false }
        tdEntry := onTapEntry onTap term
        calls := if v.dance.finished then [.onReset i true] else [] } := by
  have hrecord := Leads.call c i onTap term 0 (by rw [hcalls]; exact Nat.zero_lt_one) fun _ hs =>
    hs.processRecord hcalls hactive
  have hrelease := hrecord.trans
    (Leads.call c i onTap term 0 (Nat.zero_lt_succ _) fun _ hs => hs.release hc rfl)
  exact hrelease.trans
    (Leads.call c i onTap term 0 (Nat.zero_lt_succ _) fun _ hs => hs.tapDanceRelease hc rfl)

end Chains

/-! ## Between the calls -/

section Events

/-- The dance has {lit}`n` taps and is not finished. -/
structure Counted (i n : ℕ) (pressed : Bool) (last : UInt16) (v : View) : Prop where
  calls : v.calls = []
  dance : v.dance = ⟨0, UInt8.ofNat n, pressed, false, false⟩
  active : v.activeTd = if n = 0 then 0 else td i
  time : n ≠ 0 → v.lastTapTime = last

/-- The dance was finished after {lit}`n` taps, and its key is still down. -/
structure Held (n : ℕ) (v : View) : Prop where
  calls : v.calls = []
  finished : v.dance.finished = true
  interrupted : v.dance.interrupted = false
  state : v.danceState.sent = late n
  active : v.activeTd = 0

variable {c : Config} {i : ℕ} {s : State} {v : View} {onTap n : ℕ} {term last : UInt16}
  {pressed : Bool}

/-- What a key event starts with. -/
theorem Looks.key (h : Looks i onTap term v s) (hcalls : v.calls = []) (now : UInt16)
    (keycode again : ℕ) (pressed : Bool) :
    Looks i onTap term
      { v with now := now, calls := [.processRecord (.keymap keycode again) pressed] }
      (step c (step c s (.time now)) (.key keycode again pressed)) := by
  obtain ⟨hentry, rfl⟩ := h
  change s.calls = _ at hcalls
  have hstep : step c (step c s (.time now)) (.key keycode again pressed) =
      { s with now := now, calls := [.processRecord (.keymap keycode again) pressed] } := by
    simp only [step, hcalls, accept, State.call, List.append_nil]
  rw [hstep]
  exact ⟨hentry, rfl⟩

theorem Counted.active_cases (h : Counted i n pressed last v) :
    v.activeTd = 0 ∨ td i = v.activeTd := by
  rw [h.active]
  split_ifs
  · exact Or.inl rfl
  · exact Or.inr rfl

theorem Counted.press (h : Counted i n false last v) (hs : Looks i onTap term v s)
    (hc : Fits c i onTap) (now : UInt16) :
    ∃ w, Looks i onTap term w (happen c now (.key (td i) (td i) true) s) ∧
      Counted i (n + 1) true now w ∧
        w.out = v.out ++ pairs i onTap (gain (UInt8.ofNat (n + 1))) := by
  have hpress := leads_press hc term
    { v with now := now, calls := [.processRecord (.keymap (td i) (td i)) true] } rfl
    h.active_cases (by rw [h.dance])
  refine ⟨_, hpress.settle (by decide) (Nat.le_refl 0) (hs.key h.calls now (td i) (td i) true),
    ⟨rfl, ?_, ?_, fun _ => rfl⟩, ?_⟩
  · simp only [h.dance, UInt8.ofNat_add]
    rfl
  · exact (if_neg (Nat.succ_ne_zero n)).symm
  · simp only [h.dance, UInt8.ofNat_add]
    rfl

theorem Counted.release (h : Counted i n true last v) (hs : Looks i onTap term v s)
    (hc : Fits c i onTap) (now : UInt16) :
    ∃ w, Looks i onTap term w (happen c now (.key (td i) (td i) false) s) ∧
      Counted i n false last w ∧ w.out = v.out := by
  have hopen : v.dance.finished = false := by rw [h.dance]
  have hrelease := leads_release hc term
    { v with now := now, calls := [.processRecord (.keymap (td i) (td i)) false] } rfl
    h.active_cases
  refine ⟨_, hrelease.settle (by decide) (by simp [hopen])
    (hs.key h.calls now (td i) (td i) false), ⟨?_, ?_, h.active, h.time⟩, rfl⟩
  · simp [hopen]
  · simp [h.dance]

theorem Held.release (h : Held n v) (hs : Looks i onTap term v s) (hc : Fits c i onTap)
    (now last : UInt16) :
    ∃ w, Looks i onTap term w (happen c now (.key (td i) (td i) false) s) ∧
      Counted i 0 false last w ∧ w.out = v.out ++ ups i onTap v.danceState := by
  have hkey := leads_release hc term
    { v with now := now, calls := [.processRecord (.keymap (td i) (td i)) false] } rfl
    (Or.inl h.active)
  simp only [h.finished, if_true] at hkey
  have hreset := hkey.trans (leads_onReset hc (Nat.zero_le _) rfl h.active)
  exact ⟨_, hreset.settle (by decide) (Nat.le_refl 0) (hs.key h.calls now (td i) (td i) false),
    ⟨rfl, rfl, h.active, absurd rfl⟩, rfl⟩

/-- The time passes, and the task runs. -/
theorem Looks.task (h : Looks i onTap term v s) (hc : Fits c i onTap) (hcalls : v.calls = [])
    (hactive : v.activeTd = 0 ∨ td i = v.activeTd) (hopen : v.dance.interrupted = false)
    (now : UInt16) :
    Looks i onTap term
      { v with
        now := now
        calls := if v.activeTd ≠ 0 ∧ term < now - v.lastTapTime then [.onDanceFinished i] else [] }
      (step c (step c s (.time now)) .task) := by
  obtain ⟨hentry, rfl⟩ := h
  change s.calls = _ at hcalls
  change (s.dances i).interrupted = _ at hopen
  have hstep : step c (step c s (.time now)) .task = tapDanceTask c { s with now := now } := by
    simp only [step, hcalls, accept]
  rw [hstep]
  rcases hactive with hzero | htd
  · change s.activeTd = _ at hzero
    rw [tapDanceTask, if_pos (Or.inl hzero)]
    exact ⟨hentry, by simp [TapDance.view, emitted, hzero, hcalls]⟩
  · change td i = s.activeTd at htd
    have hterm : getTappingTerm c { s with now := now } s.activeTd = term := by
      rw [← htd, getTappingTerm, if_pos (isTapDance_td hc.byte), getIndex_td hc.byte,
        dynamicKeymapGetTapDance_of_lt hc.index]
      exact congrArg Entry.customTappingTerm hentry
    have hne : s.activeTd ≠ 0 := htd ▸ td_ne_zero i
    by_cases hlate : term < now - s.lastTapTime
    · have hrun : tapDanceTask c { s with now := now } =
          (({ s with now := now } : State).access i).call [.onDanceFinished i] := by
        unfold tapDanceTask
        rw [if_neg]
        · dsimp only
          rw [← htd, getIndex_td hc.byte, if_neg]
          exact Bool.eq_false_iff.mp hopen
        · rintro (hzero | hle)
          · exact hne hzero
          · change now - s.lastTapTime ≤ getTappingTerm c { s with now := now } s.activeTd at hle
            rw [hterm] at hle
            exact absurd hlate (UInt16.not_lt.mpr hle)
      rw [hrun]
      exact ⟨hentry, by simp [TapDance.view, emitted, State.call, State.access, hcalls, hne, hlate]⟩
    · have hrun : tapDanceTask c { s with now := now } = { s with now := now } := by
        unfold tapDanceTask
        rw [if_pos]
        right
        change now - s.lastTapTime ≤ getTappingTerm c { s with now := now } s.activeTd
        rw [hterm]
        exact UInt16.not_lt.mp hlate
      rw [hrun]
      exact ⟨hentry, by simp [TapDance.view, emitted, hcalls, hlate]⟩

/-- Within the term, or when no tap was counted, the task does nothing. -/
theorem Counted.task_quiet (h : Counted i n pressed last v) (hs : Looks i onTap term v s)
    (hc : Fits c i onTap) {now : UInt16} (hquiet : n = 0 ∨ ¬ term < now - last) :
    ∃ w, Looks i onTap term w (happen c now .task s) ∧ Counted i n pressed last w ∧
      w.out = v.out := by
  have htask := hs.task hc h.calls h.active_cases (by rw [h.dance]) now
  have hnothing : ¬ (v.activeTd ≠ 0 ∧ term < now - v.lastTapTime) := by
    rintro ⟨hne, hlt⟩
    rw [h.active] at hne
    by_cases hn : n = 0
    · exact hne (if_pos hn)
    · rw [h.time hn] at hlt
      exact hquiet.elim hn fun hle => hle hlt
  rw [if_neg hnothing] at htask
  exact ⟨_, (Leads.refl { v with now := now, calls := [] }).settle (by decide) (Nat.le_refl 0)
    htask, ⟨rfl, h.dance, h.active, h.time⟩, rfl⟩

/-- After the term the dance is due. -/
theorem Counted.due (h : Counted i n pressed last v) (hs : Looks i onTap term v s)
    (hc : Fits c i onTap) (hn : n ≠ 0) {now : UInt16} (hlate : term < now - last) :
    Looks i onTap term { v with now := now, calls := [.onDanceFinished i] }
      (step c (step c s (.time now)) .task) := by
  have htask := hs.task hc h.calls h.active_cases (by rw [h.dance]) now
  rwa [if_pos] at htask
  rw [h.active, if_neg hn, h.time hn]
  exact ⟨td_ne_zero i, hlate⟩

/-- Then a dance whose key is up is finished and reset. -/
theorem Counted.task_up (h : Counted i n false last v) (hs : Looks i onTap term v s)
    (hc : Fits c i onTap) (hn : n ≠ 0) {now : UInt16} (hlate : term < now - last) :
    ∃ w, Looks i onTap term w (happen c now .task s) ∧ Counted i 0 false last w ∧
      w.out = v.out ++ pairs i onTap (late n) := by
  have hfinish := leads_onDanceFinished (c := c) (v := { v with
    now := now, calls := [.onDanceFinished i] }) term hc (Nat.zero_le 0) rfl (by rw [h.dance])
  rw [if_neg (by rw [h.dance]; exact Bool.false_ne_true)] at hfinish
  have hreset := hfinish.trans (leads_onReset hc (Nat.zero_le _) rfl rfl)
  refine ⟨_, hreset.settle (by decide) (Nat.le_refl 0) (h.due hs hc hn hlate),
    ⟨rfl, rfl, rfl, absurd rfl⟩, ?_⟩
  dsimp only
  rw [List.append_assoc, downs_append_ups, sent_danceStep _ n (by rw [h.dance])]

/-- Then a dance whose key is down is finished and waits for the release. -/
theorem Counted.task_down (h : Counted i n true last v) (hs : Looks i onTap term v s)
    (hc : Fits c i onTap) (hn : n ≠ 0) {now : UInt16} (hlate : term < now - last) :
    ∃ w, Looks i onTap term w (happen c now .task s) ∧ Held n w ∧
      w.out = v.out ++ downs i onTap w.danceState := by
  have hfinish := leads_onDanceFinished (c := c) (v := { v with
    now := now, calls := [.onDanceFinished i] }) term hc (Nat.zero_le 0) rfl (by rw [h.dance])
  rw [if_pos (by rw [h.dance])] at hfinish
  exact ⟨_, hfinish.settle (by decide) (Nat.le_refl 0) (h.due hs hc hn hlate),
    ⟨rfl, rfl, congrArg Dance.interrupted h.dance, sent_danceStep _ n (by rw [h.dance]), rfl⟩, rfl⟩

theorem Held.task (h : Held n v) (hs : Looks i onTap term v s) (hc : Fits c i onTap)
    (now : UInt16) :
    ∃ w, Looks i onTap term w (happen c now .task s) ∧ Held n w ∧ w.out = v.out ∧
      w.danceState = v.danceState := by
  have htask := hs.task hc h.calls (Or.inl h.active) h.interrupted now
  rw [if_neg fun hdue => hdue.1 h.active] at htask
  exact ⟨_, (Leads.refl { v with now := now, calls := [] }).settle (by decide) (Nat.le_refl 0)
    htask, ⟨rfl, h.finished, h.interrupted, h.state, h.active⟩, rfl, rfl⟩

/-! ### The task -/

theorem Held.scan (h : Held n v) (hs : Looks i onTap term v s) (hc : Fits c i onTap)
    (times : List UInt16) :
    ∃ w, Looks i onTap term w (scan c s times) ∧ Held n w ∧ w.out = v.out ∧
      w.danceState = v.danceState := by
  induction times generalizing s v with
  | nil => exact ⟨v, hs, h, rfl, rfl⟩
  | cons now times ih =>
    obtain ⟨u, hu, hheld, hout, hstate⟩ := h.task hs hc now
    obtain ⟨w, hw, hheld', hout', hstate'⟩ := ih hheld hu
    exact ⟨w, hw, hheld', hout'.trans hout, hstate'.trans hstate⟩

/-- While the key is down, the task may finish the dance. -/
theorem Counted.scan_down (h : Counted i n true last v) (hs : Looks i onTap term v s)
    (hc : Fits c i onTap) (hn : n ≠ 0) (times : List UInt16) :
    ∃ w, Looks i onTap term w (scan c s times) ∧
      if times.any fun now => term < now - last then
        Held n w ∧ w.out = v.out ++ downs i onTap w.danceState
      else Counted i n true last w ∧ w.out = v.out := by
  induction times generalizing s v with
  | nil => exact ⟨v, hs, h, rfl⟩
  | cons now times ih =>
    by_cases hlate : term < now - last
    · obtain ⟨u, hu, hheld, hout⟩ := h.task_down hs hc hn hlate
      obtain ⟨w, hw, hheld', hout', hstate⟩ := hheld.scan hu hc times
      refine ⟨w, hw, ?_⟩
      rw [if_pos (by simp [hlate]), hout', hstate]
      exact ⟨hheld', hout⟩
    · obtain ⟨u, hu, hcounted, hout⟩ := h.task_quiet hs hc (Or.inr hlate)
      obtain ⟨w, hw, hrest⟩ := ih hcounted hu
      refine ⟨w, hw, ?_⟩
      rw [hout] at hrest
      simpa [hlate] using hrest

/-- While the key is up, the task may finish the dance and reset it. -/
theorem Counted.scan_up (h : Counted i n false last v) (hs : Looks i onTap term v s)
    (hc : Fits c i onTap) (times : List UInt16) :
    ∃ w, Looks i onTap term w (scan c s times) ∧
      if n ≠ 0 ∧ times.any fun now => term < now - last then
        Counted i 0 false last w ∧ w.out = v.out ++ pairs i onTap (late n)
      else Counted i n false last w ∧ w.out = v.out := by
  induction times generalizing s v n with
  | nil => exact ⟨v, hs, by simpa using h⟩
  | cons now times ih =>
    by_cases hlate : n ≠ 0 ∧ term < now - last
    · obtain ⟨u, hu, hcounted, hout⟩ := h.task_up hs hc hlate.1 hlate.2
      obtain ⟨w, hw, hrest⟩ := ih hcounted hu
      rw [if_neg fun hzero => hzero.1 rfl] at hrest
      refine ⟨w, hw, ?_⟩
      rw [if_pos ⟨hlate.1, by simp [hlate.2]⟩, ← hout]
      exact hrest
    · have hquiet : n = 0 ∨ ¬ term < now - last := by
        by_cases hn : n = 0
        · exact Or.inl hn
        · exact Or.inr fun hlt => hlate ⟨hn, hlt⟩
      obtain ⟨u, hu, hcounted, hout⟩ := h.task_quiet hs hc hquiet
      obtain ⟨w, hw, hrest⟩ := ih hcounted hu
      refine ⟨w, hw, ?_⟩
      rw [hout] at hrest
      rcases hquiet with hzero | hle
      · simpa [hzero] using hrest
      · simpa [hle] using hrest

/-! ### Taps -/

theorem Counted.tap (h : Counted i n false last v) (hs : Looks i onTap term v s)
    (hc : Fits c i onTap) (t : Tap) :
    ∃ w, Looks i onTap term w (tapKey c i s t) ∧
      if t.timesOut term then
        Counted i 0 false t.press w ∧
          w.out = v.out ++ pairs i onTap (gain (UInt8.ofNat (n + 1)) + late (n + 1))
      else
        Counted i (n + 1) false t.press w ∧
          w.out = v.out ++ pairs i onTap (gain (UInt8.ofNat (n + 1))) := by
  obtain ⟨u, hu, hpressed, hout⟩ := h.press hs hc t.press
  obtain ⟨x, hx, hdown⟩ := hpressed.scan_down hu hc (Nat.succ_ne_zero n) t.down
  unfold tapKey Tap.timesOut
  rw [List.any_append]
  by_cases hlate : (t.down.any fun now => term < now - t.press) = true
  · rw [if_pos hlate] at hdown
    obtain ⟨hheld, hdowns⟩ := hdown
    obtain ⟨y, hy, hreleased, hups⟩ := hheld.release hx hc t.release t.press
    obtain ⟨w, hw, hup⟩ := hreleased.scan_up hy hc t.up
    rw [if_neg fun hzero => hzero.1 rfl] at hup
    refine ⟨w, hw, ?_⟩
    rw [hlate, Bool.true_or, if_pos rfl]
    refine ⟨hup.1, ?_⟩
    rw [hup.2, hups, hdowns, hout, List.append_assoc, downs_append_ups, hheld.state,
      List.append_assoc, ← pairs_add]
  · rw [if_neg hlate] at hdown
    obtain ⟨hcounted, hsame⟩ := hdown
    obtain ⟨y, hy, hreleased, hsame'⟩ := hcounted.release hx hc t.release
    obtain ⟨w, hw, hup⟩ := hreleased.scan_up hy hc t.up
    refine ⟨w, hw, ?_⟩
    rw [Bool.eq_false_iff.mpr hlate, Bool.false_or]
    rw [hsame', hsame, hout] at hup
    by_cases hafter : (t.up.any fun now => term < now - t.press) = true
    · rw [if_pos ⟨Nat.succ_ne_zero n, hafter⟩, List.append_assoc, ← pairs_add] at hup
      rw [if_pos hafter]
      exact hup
    · rw [if_neg fun hend => hafter hend.2] at hup
      rw [if_neg hafter]
      exact hup

/-- The taps of the dances that are over have been sent, and those of the last one as far
as they are sent when they are counted. -/
theorem Counted.taps (h : Counted i n false last v) (hs : Looks i onTap term v s)
    (hc : Fits c i onTap) {base : List Event} {k : ℕ}
    (hout : v.out = base ++ pairs i onTap (k + early n)) (taps : List Tap) :
    ∃ w m k', Looks i onTap term w (taps.foldl (tapKey c i) s) ∧
      Counted i m false (lastPress last taps) w ∧
      w.out = base ++ pairs i onTap (k' + early m) ∧
      k' + (m - m / 256) = k + ((dances term n taps).map fun n => n - n / 256).sum := by
  induction taps generalizing s v n k last with
  | nil =>
    refine ⟨v, n, k, hs, h, hout, ?_⟩
    cases n <;> simp [dances]
  | cons t taps ih =>
    obtain ⟨u, hu, htap⟩ := h.tap hs hc t
    have hearly := early_succ n
    have hlate := early_add_late (n + 1)
    rw [dances]
    by_cases hends : t.timesOut term = true
    · rw [if_pos hends] at htap
      rw [if_pos hends, List.map_cons, List.sum_cons, ← Nat.add_assoc]
      refine ih htap.1 hu ?_
      rw [htap.2, hout, List.append_assoc, ← pairs_add]
      congr 2
      have hzero : early 0 = 0 := rfl
      omega
    · rw [if_neg hends] at htap
      rw [if_neg hends]
      refine ih htap.1 hu ?_
      rw [htap.2, hout, List.append_assoc, ← pairs_add]
      congr 2
      omega

/-- The end of the sequence sends what is left. -/
theorem Counted.finish (h : Counted i n false last v) (hs : Looks i onTap term v s)
    (hc : Fits c i onTap) {ending : Ending} (hend : ending.Ends i term last) :
    ∃ w, Looks i onTap term w (finish c s ending) ∧ w.calls.length ≤ 1 ∧
      w.out = v.out ++ pairs i onTap (late n) := by
  have hnone : pairs i onTap (late 0) = [] := rfl
  cases ending with
  | timeout now =>
    by_cases hn : n = 0
    · obtain ⟨w, hw, hcounted, hout⟩ := h.task_quiet hs hc (Or.inl hn)
      rw [hn, hnone, List.append_nil]
      exact ⟨w, hw, by simp [hcounted.calls], hout⟩
    · obtain ⟨w, hw, hcounted, hout⟩ := h.task_up hs hc hn hend
      exact ⟨w, hw, by simp [hcounted.calls], hout⟩
  | interrupt now keycode again =>
    have hkey := Looks.key (c := c) hs h.calls now keycode again true
    by_cases hn : n = 0
    · have hidle := Looks.processRecord (c := c) hkey rfl (Or.inl (h.active.trans (if_pos hn)))
      rw [hn, hnone, List.append_nil]
      exact ⟨_, (Leads.refl { v with
        now := now, calls := [.processKeycode none keycode true] }).settle (by decide)
          (Nat.le_refl 1) hidle, Nat.le_refl 1, rfl⟩
    · have hleft : 1 ≤ [Call.lookAgain (.keymap keycode again) true].length := Nat.le_refl 1
      have hinterrupt := hkey.interrupt hc rfl (h.active.trans (if_neg hn)) hend
      have hfinish := leads_onDanceFinished (c := c) (v := { v with
        dance := { v.dance with interrupted := true, interruptingKeycode := keycode }
        now := now
        calls := [.onDanceFinished i, .lookAgain (.keymap keycode again) true] }) term hc
        (Nat.le_refl 1) rfl (congrArg Dance.finished h.dance)
      have hup : ¬ v.dance.pressed = true := by
        rw [h.dance]
        exact Bool.false_ne_true
      rw [if_neg hup] at hfinish
      have hreset := hfinish.trans (leads_onReset hc hleft rfl rfl)
      refine ⟨_, hreset.settle (by decide) (Nat.le_refl 1) hinterrupt, Nat.le_refl 1, ?_⟩
      dsimp only
      rw [List.append_assoc, downs_append_ups, sent_danceStep _ n (by rw [h.dance])]

end Events

/-! ## The law -/

/-- Every tap belongs to a dance. -/
theorem sum_dances (term : UInt16) (n : ℕ) (taps : List Tap) :
    (dances term n taps).sum = n + taps.length := by
  induction taps generalizing n with
  | nil => cases n <;> simp [dances]
  | cons t taps ih =>
    rw [dances, List.length_cons]
    split_ifs
    · rw [List.sum_cons, ih]
      omega
    · rw [ih]
      omega

/-- One tap is lost with every overflow of a counter. -/
theorem sum_sent (counts : List ℕ) :
    (counts.map fun n => n - n / 256).sum ≤ counts.sum ∧
      ((counts.map fun n => n - n / 256).sum = counts.sum ↔ ∀ n ∈ counts, n < 256) := by
  induction counts with
  | nil => simp
  | cons n counts ih =>
    rw [List.map_cons, List.sum_cons, List.sum_cons, List.forall_mem_cons, ← ih.2]
    have := ih.1
    omega

/-- What is sent altogether.  The dance is idle at the start, and at the end nothing but the
interrupting key is left to be processed. -/
theorem emitted_finish (c : Config) (i onTap : ℕ) (term : UInt16) (hc : Fits c i onTap) (s : State)
    (hidle : s.calls = [] ∧ s.activeTd = 0 ∧ s.dances i = Dance.zero)
    (hentry : s.table i = onTapEntry onTap term) (taps : List Tap) (ending : Ending)
    (hend : ending.Ends i term (lastPress s.lastTapTime taps)) :
    (finish c (taps.foldl (tapKey c i) s) ending).calls.length ≤ 1 ∧
      emitted i (finish c (taps.foldl (tapKey c i) s) ending) =
        emitted i s ++ pairs i onTap ((dances term 0 taps).map fun n => n - n / 256).sum := by
  have hstart : Counted i 0 false s.lastTapTime (view i s) :=
    ⟨hidle.1, hidle.2.2, hidle.2.1, absurd rfl⟩
  have hout : (view i s).out = emitted i s ++ pairs i onTap (0 + early 0) :=
    (List.append_nil _).symm
  obtain ⟨u, m, k, hu, hcounted, htaps, hsum⟩ := hstart.taps ⟨hentry, rfl⟩ hc hout taps
  obtain ⟨w, hw, hcalls, hlast⟩ := hcounted.finish hu hc hend
  constructor
  · rwa [← hw.view] at hcalls
  · have hview : w.out = emitted i (finish c (taps.foldl (tapKey c i) s) ending) :=
      congrArg View.out hw.view.symm
    rw [← hview, hlast, htaps, List.append_assoc, ← pairs_add]
    have := early_add_late m
    congr 2
    omega

/-- {lit}`N` taps of a dance with nothing but an action for a tap, at any times, send its
keycode {lit}`N` times if and only if no dance has 256 taps. -/
theorem tapCount_iff (c : Config) (i onTap : ℕ) (term : UInt16) (hc : Fits c i onTap) (s : State)
    (hidle : s.calls = [] ∧ s.activeTd = 0 ∧ s.dances i = Dance.zero)
    (hentry : s.table i = onTapEntry onTap term) (taps : List Tap) (ending : Ending)
    (hend : ending.Ends i term (lastPress s.lastTapTime taps)) :
    (finish c (taps.foldl (tapKey c i) s) ending).calls.length ≤ 1 ∧
      (emitted i (finish c (taps.foldl (tapKey c i) s) ending) =
          emitted i s ++ pairs i onTap taps.length ↔
        ∀ n ∈ dances term 0 taps, n < 256) := by
  obtain ⟨hcalls, hemitted⟩ := emitted_finish c i onTap term hc s hidle hentry taps ending hend
  have hlength := sum_dances term 0 taps
  rw [Nat.zero_add] at hlength
  refine ⟨hcalls, ?_⟩
  rw [hemitted, List.append_cancel_left_eq, ← (sum_sent _).2, hlength]
  constructor
  · intro heq
    have hlen := congrArg List.length heq
    rw [length_pairs, length_pairs] at hlen
    omega
  · intro heq
    rw [heq]

/-- Three taps, one of them held beyond the term, and another key. -/
theorem tapCount_iff_threeTaps :
    (finish ⟨1, 200⟩ ([⟨10, [11], 20, [21]⟩, ⟨30, [], 40, []⟩, ⟨50, [300], 310, [311]⟩].foldl
        (tapKey ⟨1, 200⟩ 0) (initial fun _ => onTapEntry 4 200)) (.interrupt 320 5 5)).calls.length
          ≤ 1 ∧
      (emitted 0 (finish ⟨1, 200⟩ ([⟨10, [11], 20, [21]⟩, ⟨30, [], 40, []⟩,
          ⟨50, [300], 310, [311]⟩].foldl (tapKey ⟨1, 200⟩ 0) (initial fun _ => onTapEntry 4 200))
            (.interrupt 320 5 5)) = emitted 0 (initial fun _ => onTapEntry 4 200) ++ pairs 0 4 3 ↔
        ∀ n ∈ dances 200 0 [⟨10, [11], 20, [21]⟩, ⟨30, [], 40, []⟩, ⟨50, [300], 310, [311]⟩],
          n < 256) :=
  tapCount_iff ⟨1, 200⟩ 0 4 200 ⟨by decide, by decide, by decide, by decide⟩
    (initial fun _ => onTapEntry 4 200) ⟨rfl, rfl, rfl⟩ rfl
    [⟨10, [11], 20, [21]⟩, ⟨30, [], 40, []⟩, ⟨50, [300], 310, [311]⟩] (.interrupt 320 5 5)
    (by change 5 ≠ td 0; decide)

/-- A tap every 20 milliseconds. -/
def quickTaps (n : ℕ) : List Tap :=
  (List.range n).map fun k => ⟨UInt16.ofNat (20 * k), [], UInt16.ofNat (20 * k + 10), []⟩

/-- Of 256 quick taps one is lost. -/
theorem not_tapCount_overflow :
    ¬ ∀ (c : Config) (i onTap : ℕ) (term : UInt16), Fits c i onTap → ∀ s : State,
      s.calls = [] ∧ s.activeTd = 0 ∧ s.dances i = Dance.zero →
        s.table i = onTapEntry onTap term → ∀ (taps : List Tap) (ending : Ending),
          ending.Ends i term (lastPress s.lastTapTime taps) →
            emitted i (finish c (taps.foldl (tapKey c i) s) ending) =
              emitted i s ++ pairs i onTap taps.length := by
  intro h
  have hfits : Fits ⟨1, 200⟩ 0 4 := ⟨by decide, by decide, by decide, by decide⟩
  have hend : (Ending.timeout 6000).Ends 0 200 (lastPress 0 (quickTaps 256)) := by
    change 200 < 6000 - lastPress 0 (quickTaps 256)
    decide +kernel
  have hall := h ⟨1, 200⟩ 0 4 200 hfits (initial fun _ => onTapEntry 4 200) ⟨rfl, rfl, rfl⟩ rfl
    (quickTaps 256) (.timeout 6000) hend
  rw [(emitted_finish ⟨1, 200⟩ 0 4 200 hfits (initial fun _ => onTapEntry 4 200) ⟨rfl, rfl, rfl⟩ rfl
    (quickTaps 256) (.timeout 6000) hend).2, List.append_cancel_left_eq] at hall
  have hlen := congrArg List.length hall
  rw [length_pairs, length_pairs] at hlen
  revert hlen
  decide +kernel

end TapDance
end VialQmk
