import VialQmk.RepeatKey.Invoke
import VialQmk.Library.Runs
import Mathlib.Data.Fintype.Basic
import Mathlib.Data.List.Forall2

/-!
# Repeat key - presses and releases

What the press of a repeat key made up, its release has to undo: the same keycode is
released, and the weak mods added are removed.  The code keeps one record for all Repeat
keys and one for all Alternate Repeat keys, and it removes whatever mods are the last ones
at the release.  The record it keeps may be reset by its own processing.

Main results:

- Definition {lit}`Tame`: the inputs that leave alone what a held repeat key needs for its
  release.
- Theorem {lit}`releases_undo_presses`: in a run of such inputs every release undoes its
  press.
-/

namespace VialQmk
namespace RepeatKey

open Function (update update_self update_of_ne)
open Tapping (Tap)
open StateMachine

variable {K : Type} [DecidableEq K]

/-! ## Keys up and down -/

/-- A key that is down: the keycode it was pressed with, and what its press called. -/
structure Hold (K : Type) where
  keycode : ℕ
  calls : List (Call K)
deriving DecidableEq

/-- The keyboard, with the keys that are down. -/
structure Session (K : Type) where
  state : State K
  held : K → Option (Hold K)

/-- What happens at the matrix.  The tap count and the mods are those the press is processed
with, and a press may end a one-shot layer. -/
inductive Input (K : Type)
  | press (key : K) (keycode : ℕ) (tap : Tap) (mods : UInt8) (endsOneshot : Bool)
  | release (key : K) (tap : Tap)

/-- The record of an event of the matrix. -/
def matrixRecord (key : K) (pressed : Bool) (tap : Tap) : KeyRecord K where
  tap := tap
  keycode := 0
  event := ⟨key, pressed⟩

/-- A press arrives: the keycode is looked up on the layers, and kept for the release. -/
def State.arrive (s : State K) (key : K) (keycode : ℕ) (mods : UInt8) (endsOneshot : Bool) :
    State K :=
  { s with
    keycodeOf := update s.keycodeOf key keycode
    mods := mods
    endsOneshot := endsOneshot
    calls := [] }

/-- A release arrives. -/
def State.leave (s : State K) : State K :=
  { s with calls := [] }

/-- One input.  A key that is down is not pressed, and one that is up not released. -/
def play (c : Config K) (fuel : ℕ) (s : Session K) : Input K → Option (Session K)
  | .press key keycode tap mods endsOneshot =>
    if (s.held key).isSome then some s
    else
      (processRecord c fuel (s.state.arrive key keycode mods endsOneshot)
        (matrixRecord key true tap)).map fun t => ⟨t, update s.held key (some ⟨keycode, t.calls⟩)⟩
  | .release key tap =>
    if (s.held key).isSome then
      (processRecord c fuel s.state.leave (matrixRecord key false tap)).map
        fun t => ⟨t, update s.held key none⟩
    else some s

/-- A run that is {lit}`none` has not returned from an input. -/
def step (c : Config K) (fuel : ℕ) (s : Option (Session K)) (i : Input K) :
    Option (Session K) :=
  s.bind fun s => play c fuel s i

def Session.boot : Session K :=
  ⟨.boot, fun _ => none⟩

/-! ## The property -/

/-- The second call undoes the first one: it releases the same keycode at the same key, or
removes the same mods. -/
def Call.UndoneBy : Call K → Call K → Prop
  | .processRecord r, .processRecord r' =>
    r.event.pressed = true ∧ r'.event = ⟨r.event.key, false⟩ ∧ r'.keycode = r.keycode
  | .registerWeakMods mods, .unregisterWeakMods mods' => mods = mods'
  | _, _ => False

instance Call.decidableUndoneBy : (a b : Call K) → Decidable (a.UndoneBy b)
  | .processRecord r, .processRecord r' =>
    inferInstanceAs (Decidable (r.event.pressed = true ∧ r'.event = ⟨r.event.key, false⟩ ∧
      r'.keycode = r.keycode))
  | .registerWeakMods mods, .unregisterWeakMods mods' => inferInstanceAs (Decidable (mods = mods'))
  | .processRecord _, .registerWeakMods _ => inferInstanceAs (Decidable False)
  | .processRecord _, .unregisterWeakMods _ => inferInstanceAs (Decidable False)
  | .registerWeakMods _, .processRecord _ => inferInstanceAs (Decidable False)
  | .registerWeakMods _, .registerWeakMods _ => inferInstanceAs (Decidable False)
  | .unregisterWeakMods _, _ => inferInstanceAs (Decidable False)

/-- The calls of a release undo those of the press one by one, the last one first. -/
def Undo (pressed released : List (Call K)) : Prop :=
  List.Forall₂ Call.UndoneBy pressed.reverse released

/-- What the input has to do with the press of its key, if that has made up a record. -/
def Input.Undoes (s t : Session K) : Input K → Prop
  | .press .. => True
  | .release key _ => ∀ hold ∈ s.held key, hold.calls ≠ [] → Undo hold.calls t.state.calls

/-- The code returns from the input, and a release undoes its press. -/
def Paired (c : Config K) (fuel : ℕ) (s : Option (Session K)) (i : Input K) : Prop :=
  ∀ v ∈ s, ∃ t ∈ play c fuel v i, i.Undoes v t

/-! ## The condition -/

def Call.Keeps (keycode : ℕ) : Call K → Prop
  | .processRecord r => r.keycode = keycode
  | _ => True

/-- The records made up by the press have this keycode. -/
def Hold.Keeps (hold : Hold K) (keycode : ℕ) : Prop :=
  ∀ call ∈ hold.calls, call.Keeps keycode

/-- What holds of all keys that are down with this keycode. -/
def Session.Every (s : Session K) (keycode : ℕ) (P : Hold K → Prop) : Prop :=
  ∀ key, ∀ hold ∈ s.held key, hold.keycode = keycode → P hold

/-- Inputs that leave alone what the repeat keys that are down need for their releases.

A repeat key is pressed with the same keycode as those of its kind that are down, and does not
end a one-shot layer with a swap-hands key.  While a Repeat key is down that made up a record, a
key that is remembered has a keycode, and the mods are the last mods.  A Repeat key is not
released when none has been pressed with a last key and there is one now, and not with the record
of a swap-hands key while another one is down that made up a record. -/
def Tame (c : Config K) (s : Session K) : Input K → Prop
  | .press key keycode tap mods endsOneshot =>
    (keycode = qkRepeatKey → s.Every qkRepeatKey (Hold.Keeps · s.state.lastRecord.keycode) ∧
      (endsOneshot = true → s.state.lastRecord.resets = false)) ∧
    (keycode = qkAltRepeatKey →
      s.Every qkAltRepeatKey (Hold.Keeps · (getAltRepeatKeyKeycode c s.state))) ∧
    ∀ remembered ∈ rememberLastKey c keycode (matrixRecord key true tap) mods,
      s.Every qkRepeatKey fun hold =>
        hold.calls ≠ [] → keycode ≠ 0 ∧ remembered = s.state.lastMods
  | .release key _ =>
    ∀ hold ∈ s.held key, hold.keycode = qkRepeatKey →
      (s.state.repeated.repeatCount = 0 → s.state.lastRecord.keycode = 0) ∧
      (s.state.repeated.record.resets = true →
        ∀ key', key' ≠ key → ∀ hold' ∈ s.held key', hold'.keycode = qkRepeatKey →
          hold'.calls = [])

section Decidable

variable [Fintype K]

instance Call.decidableKeeps (keycode : ℕ) : (call : Call K) → Decidable (call.Keeps keycode)
  | .processRecord r => inferInstanceAs (Decidable (r.keycode = keycode))
  | .registerWeakMods _ => inferInstanceAs (Decidable True)
  | .unregisterWeakMods _ => inferInstanceAs (Decidable True)

instance (hold : Hold K) (keycode : ℕ) : Decidable (hold.Keeps keycode) :=
  inferInstanceAs (Decidable (∀ call ∈ hold.calls, call.Keeps keycode))

instance (s : Session K) (keycode : ℕ) (P : Hold K → Prop) [DecidablePred P] :
    Decidable (s.Every keycode P) :=
  inferInstanceAs (Decidable (∀ key, ∀ hold ∈ s.held key, hold.keycode = keycode → P hold))

instance Tame.decidable (c : Config K) (s : Session K) : (i : Input K) → Decidable (Tame c s i)
  | .press key keycode tap mods endsOneshot =>
    inferInstanceAs (Decidable (
      (keycode = qkRepeatKey → s.Every qkRepeatKey (Hold.Keeps · s.state.lastRecord.keycode) ∧
        (endsOneshot = true → s.state.lastRecord.resets = false)) ∧
      (keycode = qkAltRepeatKey →
        s.Every qkAltRepeatKey (Hold.Keeps · (getAltRepeatKeyKeycode c s.state))) ∧
      ∀ remembered ∈ rememberLastKey c keycode (matrixRecord key true tap) mods,
        s.Every qkRepeatKey fun hold =>
          hold.calls ≠ [] → keycode ≠ 0 ∧ remembered = s.state.lastMods))
  | .release key _ =>
    inferInstanceAs (Decidable (∀ hold ∈ s.held key, hold.keycode = qkRepeatKey →
      (s.state.repeated.repeatCount = 0 → s.state.lastRecord.keycode = 0) ∧
      (s.state.repeated.record.resets = true →
        ∀ key', key' ≠ key → ∀ hold' ∈ s.held key', hold'.keycode = qkRepeatKey →
          hold'.calls = [])))

instance Input.decidableUndoes (s t : Session K) : (i : Input K) → Decidable (i.Undoes s t)
  | .press .. => inferInstanceAs (Decidable True)
  | .release key _ =>
    inferInstanceAs (Decidable (∀ hold ∈ s.held key, hold.calls ≠ [] →
      List.Forall₂ Call.UndoneBy hold.calls.reverse t.state.calls))

instance (c : Config K) (fuel : ℕ) (s : Option (Session K)) (i : Input K) :
    Decidable (Paired c fuel s i) :=
  inferInstanceAs (Decidable (∀ v ∈ s, ∃ t ∈ play c fuel v i, i.Undoes v t))

end Decidable

/-! ## What is kept for the keys that are down -/

/-- The static variables have what the release of this key needs. -/
def Backed (s : State K) (key : K) (hold : Hold K) : Prop :=
  hold.calls = [] ∨
  (hold.keycode = qkRepeatKey ∧ s.lastRecord.keycode ≠ 0 ∧ s.repeated.record.keycode ≠ 0 ∧
    ∃ tap, hold.calls = [.registerWeakMods s.lastMods,
      .processRecord ⟨⟨tap, s.repeated.record.keycode⟩, ⟨key, true⟩⟩]) ∨
  (hold.keycode = qkAltRepeatKey ∧ s.alternate.record.keycode ≠ 0 ∧
    ∃ tap, hold.calls =
      [.processRecord ⟨⟨tap, s.alternate.record.keycode⟩, ⟨key, true⟩⟩])

/-- No record is being processed, the counts are in range and tell that a record is kept for the
Alternate Repeat keys, which is one without a tap. -/
structure Quiet (s : State K) : Prop where
  processing : s.processingRepeatCount = 0
  count_low : -127 ≤ s.lastRepeatCount
  count_high : s.lastRepeatCount ≤ 127
  alternate : s.alternate.record.keycode ≠ 0 → s.alternate.repeatCount ≠ 0
  alternate_tap : s.alternate.record.tap.count = 0

/-- The invariant of the runs. -/
structure Inv (s : Session K) : Prop where
  quiet : Quiet s.state
  keycode : ∀ key, ∀ hold ∈ s.held key, s.state.keycodeOf key = hold.keycode
  backed : ∀ key, ∀ hold ∈ s.held key, Backed s.state key hold

omit [DecidableEq K] in
theorem inv_boot : Inv (Session.boot (K := K)) where
  quiet := by
    constructor <;> simp [Session.boot, State.boot, Kept.zero]
  keycode := by simp [Session.boot]
  backed := by simp [Session.boot]

section Backed

variable {s t : State K} {key : K} {hold : Hold K}

omit [DecidableEq K]

theorem Backed.keeps_repeated (h : Backed s key hold) (hrepeat : hold.keycode = qkRepeatKey) :
    hold.Keeps s.repeated.record.keycode := by
  rcases h with hnone | ⟨-, -, -, tap, hcalls⟩ | ⟨halternate, -⟩
  · simp [Hold.Keeps, hnone]
  · simp [Hold.Keeps, hcalls, Call.Keeps]
  · rw [hrepeat] at halternate
    exact absurd halternate (by decide)

theorem Backed.keeps_alternate (h : Backed s key hold)
    (halternate : hold.keycode = qkAltRepeatKey) : hold.Keeps s.alternate.record.keycode := by
  rcases h with hnone | ⟨hrepeat, -⟩ | ⟨-, -, tap, hcalls⟩
  · simp [Hold.Keeps, hnone]
  · rw [halternate] at hrepeat
    exact absurd hrepeat (by decide)
  · simp [Hold.Keeps, hcalls, Call.Keeps]

/-- There is a last key while a Repeat key is down that made up a record. -/
theorem Backed.last_ne_zero (h : Backed s key hold) (hrepeat : hold.keycode = qkRepeatKey)
    (hcalls : hold.calls ≠ []) : s.lastRecord.keycode ≠ 0 := by
  rcases h with hnone | ⟨-, hlast, -⟩ | ⟨halternate, -⟩
  · exact absurd hnone hcalls
  · exact hlast
  · rw [hrepeat] at halternate
    exact absurd halternate (by decide)

/-- What the release needs stays, if the records kept have the same keycodes and, for a Repeat
key, the mods are the same and there is a last key. -/
theorem Backed.transfer (h : Backed s key hold)
    (hlast : hold.keycode = qkRepeatKey → hold.calls ≠ [] →
      t.lastMods = s.lastMods ∧ t.lastRecord.keycode ≠ 0)
    (hrepeat : hold.keycode = qkRepeatKey → hold.Keeps t.repeated.record.keycode)
    (halternate : hold.keycode = qkAltRepeatKey → hold.Keeps t.alternate.record.keycode) :
    Backed t key hold := by
  rcases h with hnone | ⟨hkey, -, hrecord, tap, hcalls⟩ | ⟨hkey, hrecord, tap, hcalls⟩
  · exact .inl hnone
  · obtain ⟨hmods, hkeycode⟩ := hlast hkey (by simp [hcalls])
    have hsame : s.repeated.record.keycode = t.repeated.record.keycode :=
      hrepeat hkey (.processRecord ⟨⟨tap, s.repeated.record.keycode⟩, ⟨key, true⟩⟩)
        (by simp [hcalls])
    refine .inr (.inl ⟨hkey, hkeycode, hsame ▸ hrecord, tap, ?_⟩)
    rw [hcalls, hmods, ← hsame]
  · have hsame : s.alternate.record.keycode = t.alternate.record.keycode :=
      halternate hkey (.processRecord ⟨⟨tap, s.alternate.record.keycode⟩, ⟨key, true⟩⟩)
        (by simp [hcalls])
    refine .inr (.inr ⟨hkey, hsame ▸ hrecord, tap, ?_⟩)
    rw [hcalls, ← hsame]

/-- The same variables serve the same keys. -/
theorem Backed.of_eq (h : Backed s key hold) (hmods : t.lastMods = s.lastMods)
    (hlast : t.lastRecord = s.lastRecord) (hrepeat : t.repeated = s.repeated)
    (halternate : t.alternate = s.alternate) : Backed t key hold := by
  unfold Backed
  rw [hmods, hlast, hrepeat, halternate]
  exact h

end Backed

/-! ## Presses -/

variable {c : Config K} {n : ℕ} {s : Session K} {key : K} {keycode : ℕ} {tap : Tap}
  {mods : UInt8} {endsOneshot : Bool}

theorem getRecordKeycode_arrive (v : State K) :
    getRecordKeycode (v.arrive key keycode mods endsOneshot) (matrixRecord key true tap) =
      keycode := by
  simp [getRecordKeycode, matrixRecord, State.arrive]

/-- What a press leaves behind: everything that is down can still be released, its own key
included. -/
structure Pressed (s : Session K) (key : K) (keycode : ℕ) (t : State K) : Prop where
  quiet : Quiet t
  keycodeOf : t.keycodeOf = update s.state.keycodeOf key keycode
  own : Backed t key ⟨keycode, t.calls⟩
  others : ∀ k, ∀ hold ∈ s.held k, Backed t k hold

/-- The variables a press writes may be those of the keycodes that are down already. -/
theorem press_repeat (h : Inv s) (htame : Tame c s (.press key qkRepeatKey tap mods endsOneshot)) :
    ∃ t ∈ processRecord c (n + 2) (s.state.arrive key qkRepeatKey mods endsOneshot)
      (matrixRecord key true tap), Pressed s key qkRepeatKey t := by
  have hquiet := h.quiet
  have hcount := updateLastRepeatCount_forward hquiet.count_low hquiet.count_high
  have hne : updateLastRepeatCount s.state.lastRepeatCount 1 ≠ 0 := Int.ne_of_gt hcount.1
  by_cases hlast : s.state.lastRecord.keycode = 0
  · refine ⟨_, processRecord_repeat_idle hquiet.processing (getRecordKeycode_arrive _) hlast,
      ⟨⟨hquiet.processing, hquiet.count_low, hquiet.count_high, hquiet.alternate,
        hquiet.alternate_tap⟩, rfl, .inl rfl, fun k hold hk => ?_⟩⟩
    exact (h.backed k hold hk).of_eq rfl rfl rfl rfl
  · -- what is kept has the keycode that is played
    have hkept : (processAction c endsOneshot
        (⟨s.state.lastRecord, ⟨key, true⟩⟩ : KeyRecord K)).keycode =
          s.state.lastRecord.keycode := processAction_press rfl (htame.1 rfl).2
    refine ⟨_, processRecord_repeat_press hquiet.processing (getRecordKeycode_arrive _) hlast rfl
      hne, ⟨⟨hquiet.processing, ?_, hcount.2, hquiet.alternate, hquiet.alternate_tap⟩, rfl, ?_,
        fun k hold hk => ?_⟩⟩
    · exact Int.le_trans (by decide) (Int.le_of_lt hcount.1)
    · refine .inr (.inl ⟨rfl, hlast, ?_, s.state.lastRecord.tap, ?_⟩)
      · exact fun hzero => hlast (hkept.symm.trans hzero)
      · change _ = [Call.registerWeakMods s.state.lastMods,
          .processRecord ⟨⟨s.state.lastRecord.tap, (processAction c endsOneshot
            (⟨s.state.lastRecord, ⟨key, true⟩⟩ : KeyRecord K)).keycode⟩, ⟨key, true⟩⟩]
        rw [hkept]
        rfl
    · have hbacked := h.backed k hold hk
      refine hbacked.transfer (fun _ _ => ⟨rfl, hlast⟩) (fun hkey => ?_) hbacked.keeps_alternate
      change hold.Keeps (processAction c endsOneshot
        (⟨s.state.lastRecord, ⟨key, true⟩⟩ : KeyRecord K)).keycode
      rw [hkept]
      exact (htame.1 rfl).1 k hold hk hkey

theorem press_alternate (h : Inv s)
    (htame : Tame c s (.press key qkAltRepeatKey tap mods endsOneshot)) :
    ∃ t ∈ processRecord c (n + 2) (s.state.arrive key qkAltRepeatKey mods endsOneshot)
      (matrixRecord key true tap), Pressed s key qkAltRepeatKey t := by
  have hquiet := h.quiet
  have hcount := updateLastRepeatCount_backward hquiet.count_low hquiet.count_high
  have hne : updateLastRepeatCount s.state.lastRepeatCount (-1) ≠ 0 := Int.ne_of_lt hcount.1
  have hothers : ∀ (t : State K), t.lastMods = s.state.lastMods →
      t.lastRecord = s.state.lastRecord → t.repeated = s.state.repeated →
      t.alternate.record.keycode = getAltRepeatKeyKeycode c s.state →
      ∀ k, ∀ hold ∈ s.held k, Backed t k hold := by
    intro t hmods hlast hrepeat halternate k hold hk
    have hbacked := h.backed k hold hk
    refine hbacked.transfer (fun hkey hcalls => ?_) (hrepeat ▸ hbacked.keeps_repeated)
      (fun hkey => halternate ▸ htame.2.1 rfl k hold hk hkey)
    rcases hbacked with hnone | ⟨-, hsome, -⟩ | ⟨halt, -⟩
    · exact absurd hnone hcalls
    · exact ⟨hmods, hlast ▸ hsome⟩
    · rw [hkey] at halt
      exact absurd halt (by decide)
  by_cases hnone : getAltRepeatKeyKeycode c s.state = 0
  · refine ⟨_, processRecord_alternate_press_none hquiet.processing (getRecordKeycode_arrive _)
      rfl hnone, ⟨⟨hquiet.processing, hquiet.count_low, hquiet.count_high,
        fun hne => absurd rfl hne, rfl⟩, rfl, .inl rfl, hothers _ rfl rfl rfl hnone.symm⟩⟩
  · refine ⟨_, processRecord_alternate_press hquiet.processing (getRecordKeycode_arrive _) rfl
      hnone hne, ⟨⟨hquiet.processing, hcount.2, ?_, fun _ => hne, rfl⟩, rfl, ?_,
        hothers _ rfl rfl rfl rfl⟩⟩
    · exact Int.le_trans (Int.le_of_lt hcount.1) (by decide)
    · exact .inr (.inr ⟨rfl, hnone, ⟨false, 0⟩, rfl⟩)

omit [DecidableEq K] in
/-- A key that is no repeat key is remembered, or it is not. -/
theorem processLastKey_press (key : K) (keycode : ℕ) (tap : Tap) (v : State K)
    (hquiet : v.processingRepeatCount = 0) :
    (rememberLastKey c keycode (matrixRecord key true tap) v.mods = none ∧
      processLastKey c v keycode (matrixRecord key true tap) = v) ∨
    ∃ remembered ∈ rememberLastKey c keycode (matrixRecord key true tap) v.mods,
      processLastKey c v keycode (matrixRecord key true tap) =
        { v with lastRecord := ⟨tap, keycode⟩, lastRepeatCount := 0, lastMods := remembered } := by
  unfold processLastKey
  rw [if_neg (by simp [hquiet]), if_pos (show (matrixRecord key true tap).event.pressed by rfl)]
  cases hmods : rememberLastKey c keycode (matrixRecord key true tap) v.mods with
  | none => exact .inl ⟨rfl, rfl⟩
  | some remembered => exact .inr ⟨remembered, rfl, rfl⟩

theorem press_other (h : Inv s) (hrepeat : keycode ≠ qkRepeatKey)
    (halternate : keycode ≠ qkAltRepeatKey)
    (htame : Tame c s (.press key keycode tap mods endsOneshot)) :
    ∃ t ∈ processRecord c (n + 2) (s.state.arrive key keycode mods endsOneshot)
      (matrixRecord key true tap), Pressed s key keycode t := by
  have hquiet := h.quiet
  refine ⟨_, processRecord_other hquiet.processing (by rwa [getRecordKeycode_arrive])
    (by rwa [getRecordKeycode_arrive]), ?_⟩
  rw [getRecordKeycode_arrive]
  rcases processLastKey_press (c := c) key keycode tap (s.state.arrive key keycode mods endsOneshot)
      hquiet.processing with
    ⟨-, heq⟩ | ⟨remembered, hremembered, heq⟩
  · rw [heq]
    exact ⟨⟨hquiet.processing, hquiet.count_low, hquiet.count_high, hquiet.alternate,
      hquiet.alternate_tap⟩, rfl, .inl rfl,
        fun k hold hk => (h.backed k hold hk).of_eq rfl rfl rfl rfl⟩
  · rw [heq]
    have hlow : (-127 : ℤ) ≤ 0 := by decide
    have hhigh : (0 : ℤ) ≤ 127 := by decide
    refine ⟨⟨hquiet.processing, hlow, hhigh, hquiet.alternate, hquiet.alternate_tap⟩, rfl,
      .inl rfl, fun k hold hk => ?_⟩
    have hbacked := h.backed k hold hk
    refine hbacked.transfer (fun hkey hcalls => ?_) hbacked.keeps_repeated
      hbacked.keeps_alternate
    obtain ⟨hkeycode, hmods⟩ := htame.2.2 remembered hremembered k hold hk hkey hcalls
    exact ⟨hmods, hkeycode⟩

theorem press_kept (h : Inv s) (htame : Tame c s (.press key keycode tap mods endsOneshot)) :
    ∃ t ∈ processRecord c (n + 2) (s.state.arrive key keycode mods endsOneshot)
      (matrixRecord key true tap), Pressed s key keycode t := by
  by_cases hrepeat : keycode = qkRepeatKey
  · subst hrepeat
    exact press_repeat h htame
  · by_cases halternate : keycode = qkAltRepeatKey
    · subst halternate
      exact press_alternate h htame
    · exact press_other h hrepeat halternate htame

/-! ## Releases -/

section Releases

omit [DecidableEq K]

/-- A release makes calls, and they undo those of the press.  The record of the Repeat keys may
be reset if no other one needs it. -/
def Released (c : Config K) (fuel : ℕ) (s : Session K) (key : K) (tap : Tap) (hold : Hold K) :
    Prop :=
  ∃ calls record, processRecord c fuel s.state.leave (matrixRecord key false tap) =
      some { s.state.setRepeated record with calls := calls } ∧
    (hold.calls ≠ [] → Undo hold.calls calls) ∧
    ∀ key', key' ≠ key → ∀ hold' ∈ s.held key', hold'.keycode = qkRepeatKey →
      hold'.Keeps record.keycode

variable {hold : Hold K}

theorem getRecordKeycode_leave (tap : Tap) (h : Inv s) (hk : hold ∈ s.held key) :
    getRecordKeycode s.state.leave (matrixRecord key false tap) = hold.keycode := by
  simpa [getRecordKeycode, matrixRecord, State.leave] using h.keycode key hold hk

theorem keeps_others (h : Inv s) {key' : K} {hold' : Hold K} (hk : hold' ∈ s.held key')
    (hkey : hold'.keycode = qkRepeatKey) : hold'.Keeps s.state.repeated.record.keycode :=
  (h.backed key' hold' hk).keeps_repeated hkey

theorem release_repeat (h : Inv s) (hk : hold ∈ s.held key) (hkey : hold.keycode = qkRepeatKey)
    (htame : Tame c s (.release key tap)) : Released c (n + 2) s key tap hold := by
  have hquiet := h.quiet
  have hget := (getRecordKeycode_leave tap h hk).trans hkey
  by_cases hlast : s.state.lastRecord.keycode = 0
  · refine ⟨[], s.state.repeated.record, processRecord_repeat_idle hquiet.processing hget hlast,
      fun hcalls => ?_, fun key' _ hold' hk' => keeps_others h hk'⟩
    rcases h.backed key hold hk with hnone | ⟨-, hsome, -⟩ | ⟨halternate, -⟩
    · exact absurd hnone hcalls
    · exact absurd hlast hsome
    · rw [hkey] at halternate
      exact absurd halternate (by decide)
  · obtain ⟨hcount, hothers⟩ := htame hold hk hkey
    refine ⟨_, _, processRecord_repeat_release hquiet.processing hget hlast rfl
      (fun hzero => hlast (hcount hzero)), fun hcalls => ?_, fun key' hne hold' hk' hkey' => ?_⟩
    · rcases h.backed key hold hk with hnone | ⟨-, -, -, kept, hpress⟩ | ⟨halternate, -⟩
      · exact absurd hnone hcalls
      · rw [hpress]
        exact .cons ⟨rfl, rfl, rfl⟩ (.cons rfl .nil)
      · rw [hkey] at halternate
        exact absurd halternate (by decide)
    · change hold'.Keeps s.state.repeated.record.released.keycode
      rw [Kept.released]
      split_ifs with hresets
      · intro call hcall
        rw [hothers hresets key' hne hold' hk' hkey'] at hcall
        exact absurd hcall List.not_mem_nil
      · exact keeps_others h hk' hkey'

theorem release_alternate (h : Inv s) (hk : hold ∈ s.held key)
    (hkey : hold.keycode = qkAltRepeatKey) : Released c (n + 2) s key tap hold := by
  have hquiet := h.quiet
  have hget := (getRecordKeycode_leave tap h hk).trans hkey
  by_cases hrecord : s.state.alternate.record.keycode = 0
  · refine ⟨[], s.state.repeated.record,
      processRecord_alternate_release_none hquiet.processing hget rfl hrecord,
      fun hcalls => ?_, fun key' _ hold' hk' => keeps_others h hk'⟩
    rcases h.backed key hold hk with hnone | ⟨hrepeat, -⟩ | ⟨-, hsome, -⟩
    · exact absurd hnone hcalls
    · rw [hkey] at hrepeat
      exact absurd hrepeat (by decide)
    · exact absurd hrecord hsome
  · refine ⟨_, s.state.repeated.record,
      processRecord_alternate_release hquiet.processing hget rfl hrecord
        (hquiet.alternate hrecord) hquiet.alternate_tap, fun hcalls => ?_,
      fun key' _ hold' hk' => keeps_others h hk'⟩
    rcases h.backed key hold hk with hnone | ⟨hrepeat, -⟩ | ⟨-, -, kept, hpress⟩
    · exact absurd hnone hcalls
    · rw [hkey] at hrepeat
      exact absurd hrepeat (by decide)
    · rw [hpress]
      exact .cons ⟨rfl, rfl, rfl⟩ .nil

theorem release_other (h : Inv s) (hk : hold ∈ s.held key) (hrepeat : hold.keycode ≠ qkRepeatKey)
    (halternate : hold.keycode ≠ qkAltRepeatKey) : Released c (n + 2) s key tap hold := by
  have hget := getRecordKeycode_leave tap h hk
  refine ⟨[], s.state.repeated.record, ?_, fun hcalls => ?_,
    fun key' _ hold' hk' => keeps_others h hk'⟩
  · have hquiet : s.state.leave.processingRepeatCount = 0 := h.quiet.processing
    rw [processRecord_other hquiet (by rwa [hget]) (by rwa [hget]), processLastKey_release _ rfl]
    rfl
  · rcases h.backed key hold hk with hnone | ⟨hkey, -⟩ | ⟨hkey, -⟩
    · exact absurd hnone hcalls
    · exact absurd hkey hrepeat
    · exact absurd hkey halternate

theorem release_undoes (h : Inv s) (hk : hold ∈ s.held key)
    (htame : Tame c s (.release key tap)) : Released c (n + 2) s key tap hold := by
  by_cases hrepeat : hold.keycode = qkRepeatKey
  · exact release_repeat h hk hrepeat htame
  · by_cases halternate : hold.keycode = qkAltRepeatKey
    · exact release_alternate h hk halternate
    · exact release_other h hk hrepeat halternate

end Releases

/-! ## Runs -/

/-- One input: the code returns, a release undoes its press, and the invariant is kept. -/
theorem play_kept (h : Inv s) {i : Input K} (htame : Tame c s i) :
    ∃ t ∈ play c (n + 2) s i, Inv t ∧ i.Undoes s t := by
  cases i with
  | press key keycode tap mods endsOneshot =>
    by_cases hfree : (s.held key).isSome
    · exact ⟨s, if_pos hfree, h, trivial⟩
    · obtain ⟨t, ht, hpressed⟩ := press_kept (n := n) h htame
      refine ⟨⟨t, update s.held key (some ⟨keycode, t.calls⟩)⟩, ?_,
        ⟨hpressed.quiet, fun k hold hk => ?_, fun k hold hk => ?_⟩, trivial⟩
      · simp only [play, if_neg hfree, Option.mem_def.mp ht]
        rfl
      · rw [hpressed.keycodeOf]
        by_cases hsame : k = key
        · subst hsame
          simp only [update_self, Option.mem_def, Option.some.injEq] at hk
          simp [← hk]
        · simp only [update_of_ne hsame] at hk
          simpa [update_of_ne hsame] using h.keycode k hold hk
      · by_cases hsame : k = key
        · subst hsame
          simp only [update_self, Option.mem_def, Option.some.injEq] at hk
          exact hk ▸ hpressed.own
        · simp only [update_of_ne hsame] at hk
          exact hpressed.others k hold hk
  | release key tap =>
    cases hheld : s.held key with
    | none =>
      refine ⟨s, if_neg (by simp [hheld]), h, fun hold hk => ?_⟩
      simp [hheld] at hk
    | some hold =>
      obtain ⟨calls, record, hcalls, hundo, hothers⟩ := release_undoes (n := n) h hheld htame
      refine ⟨⟨{ s.state.setRepeated record with calls := calls }, update s.held key none⟩, ?_,
        ⟨?_, fun k other hk => ?_, fun k other hk => ?_⟩, fun other hother => ?_⟩
      · simp only [play, hheld, Option.isSome_some, if_true, hcalls]
        rfl
      · exact ⟨h.quiet.processing, h.quiet.count_low, h.quiet.count_high, h.quiet.alternate,
          h.quiet.alternate_tap⟩
      · by_cases hsame : k = key
        · simp [hsame] at hk
        · simp only [update_of_ne hsame] at hk
          exact h.keycode k other hk
      · by_cases hsame : k = key
        · simp [hsame] at hk
        · simp only [update_of_ne hsame] at hk
          have hbacked := h.backed k other hk
          refine hbacked.transfer (fun hkey hne => ⟨rfl, ?_⟩) (hothers k hsame other hk)
            hbacked.keeps_alternate
          exact hbacked.last_ne_zero hkey hne
      · rw [hheld, Option.mem_some_iff] at hother
        exact hother ▸ hundo

/-- In a run whose inputs are all tame the code returns from every input, and every release
undoes its press: what a repeat key pressed is released once, with the same keycode, and the
weak mods it added are the ones it removes. -/
theorem releases_undo_presses (c : Config K) (n : ℕ) (is : List (Input K))
    (htame : Along (step c (n + 2)) (fun s i => ∀ v ∈ s, Tame c v i) (some .boot) is) :
    Along (step c (n + 2)) (Paired c (n + 2)) (some .boot) is := by
  refine along_of_invariant (fun s => ∀ v ∈ s, Inv v) ?_ ?_ ?_ htame
  · intro s i hs htame t ht
    obtain ⟨v, hv, ht⟩ := Option.mem_bind_iff.mp ht
    obtain ⟨t', ht', hinv, -⟩ := play_kept (n := n) (hs v hv) (htame v hv)
    exact Option.mem_unique ht' ht ▸ hinv
  · intro s i hs htame v hv
    obtain ⟨t, ht, -, hundoes⟩ := play_kept (n := n) (hs v hv) (htame v hv)
    exact ⟨t, ht, hundoes⟩
  · intro v hv
    rw [Option.mem_some_iff] at hv
    exact hv ▸ inv_boot

/-- Left is pressed with shift.  Two Repeat keys and an Alternate Repeat key are held together,
and released in another order. -/
def heldTogether : List (Input (Fin 4)) :=
  [.press 0 0x50 ⟨false, 0⟩ 2 false, .release 0 ⟨false, 0⟩,
    .press 1 qkRepeatKey ⟨false, 0⟩ 2 true, .press 2 qkRepeatKey ⟨false, 0⟩ 0 false,
    .press 3 qkAltRepeatKey ⟨false, 0⟩ 0 false, .release 1 ⟨false, 0⟩, .release 3 ⟨false, 0⟩,
    .release 2 ⟨false, 0⟩]

theorem releases_undo_presses_heldTogether :
    Along (step (.default (Fin 4)) 2) (Paired (.default (Fin 4)) 2) (some .boot) heldTogether :=
  releases_undo_presses (.default (Fin 4)) 0 heldTogether (by decide +kernel)

/-- A is repeated, and B is pressed and repeated with another key before that is over. -/
def rolledRepeat : List (Input (Fin 4)) :=
  [.press 0 0x04 ⟨false, 0⟩ 0 false, .release 0 ⟨false, 0⟩,
    .press 1 qkRepeatKey ⟨false, 0⟩ 0 false, .press 2 0x05 ⟨false, 0⟩ 0 false,
    .release 2 ⟨false, 0⟩, .press 3 qkRepeatKey ⟨false, 0⟩ 0 false, .release 1 ⟨false, 0⟩]

/-- The code returns from every input, but it releases B in place of A. -/
theorem not_undone_rolledRepeat :
    (run (step (.default (Fin 4)) 2) (some .boot) rolledRepeat).isSome ∧
      ¬ Along (step (.default (Fin 4)) 2) (Paired (.default (Fin 4)) 2) (some .boot)
        rolledRepeat := by
  decide +kernel

end RepeatKey
end VialQmk
