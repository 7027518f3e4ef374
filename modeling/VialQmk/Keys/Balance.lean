import VialQmk.Keys.Processing

/-!
# Keys - press and release

A release is meant to undo its press.  It does as long as the keycode that the press was
processed with is still the one on the remembered layer.  Layers may change as they like;
but the host can write another keycode there, or begin or end the unlocking, and a press
that arrives while the release of the same key is kept back moves the remembered layer.

The report is the one of six keys, not that of a keyboard with NKRO, and it is not cleared when the
host changes the magic settings, as {lit}`magic_settings_set` does with {lit}`clear_keyboard`.

Main results:

- Definition {lit}`Undisturbed`: an input that leaves the keycodes of the keys that are
  down alone.
- Theorem {lit}`release_matches`: then every release is processed with the keycode and the
  action of its press, and the report is empty when all keys are up.
-/

namespace VialQmk
namespace Keys

open Function (update)

variable {L : Type} {c : Vial.Config L} {u : Usages}

/-! ## Keys that are down -/

/-- The last record of a key. -/
def lastOf (key : KeyPos c) (es : List (Processed c)) : Option (Processed c) :=
  (es.filter fun e => e.key = key).getLast?

theorem lastOf_own {key : KeyPos c} (es : List (Processed c)) {e : Processed c}
    (h : e.key = key) : lastOf key (es ++ [e]) = some e := by
  simp [lastOf, List.filter_append, h]

theorem lastOf_other {key : KeyPos c} (es : List (Processed c)) {e : Processed c}
    (h : e.key ≠ key) : lastOf key (es ++ [e]) = lastOf key es := by
  simp [lastOf, List.filter_append, h]

/-- The press of the key is processed, and its release is not. -/
def State.Down (s : State c) (key : KeyPos c) : Prop :=
  ∃ e ∈ lastOf key s.processed, e.pressed = true

instance (s : State c) (key : KeyPos c) : Decidable (s.Down key) :=
  inferInstanceAs (Decidable (∃ e ∈ lastOf key s.processed, e.pressed = true))

/-- The keycode of a key on a layer, and its action. -/
def codeAt (u : Usages) (v : Vial.State L) (layer : ℕ) (key : KeyPos c) : ℕ × Action :=
  (keymapKeyToKeycode v layer key, actionForKey u v layer key)

/-- Press and release of a key take turns. -/
def InTurn (s : State c) : Input c → Prop
  | .process key pressed => (pressed = true ↔ ¬ s.Down key)
  | _ => True

/-- A report of the host leaves the keycodes of the keys that are down as they are, on the
layers they were found on, and so does the lookup of a press that arrives. -/
def Undisturbed (u : Usages) (s : State c) : Input c → Prop
  | .host i => ∀ key, s.Down key →
      codeAt u (Vial.step c s.vial i) (s.sourceLayersCache key) key =
        codeAt u s.vial (s.sourceLayersCache key) key
  | .arrive key pressed => pressed = true → s.Down key →
      codeAt u s.vial (layerSwitchGetLayer u s key) key =
        codeAt u s.vial (s.sourceLayersCache key) key
  | _ => True

instance (s : State c) : (i : Input c) → Decidable (InTurn s i)
  | .host _ | .layerStateSet _ | .defaultLayerStateSet _ | .arrive _ _ =>
    inferInstanceAs (Decidable True)
  | .process key pressed => inferInstanceAs (Decidable (pressed = true ↔ ¬ s.Down key))

instance (s : State c) : (i : Input c) → Decidable (Undisturbed u s i)
  | .host i => inferInstanceAs (Decidable (∀ key, s.Down key →
      codeAt u (Vial.step c s.vial i) (s.sourceLayersCache key) key =
        codeAt u s.vial (s.sourceLayersCache key) key))
  | .arrive key pressed => inferInstanceAs (Decidable (pressed = true → s.Down key →
      codeAt u s.vial (layerSwitchGetLayer u s key) key =
        codeAt u s.vial (s.sourceLayersCache key) key))
  | .layerStateSet _ | .defaultLayerStateSet _ | .process _ _ => inferInstanceAs (Decidable True)

/-! ## The invariant -/

/-- What is registered for the keys that are down. -/
def State.heldShare (s : State c) : Share where
  key k := ∃ key, ∃ e ∈ lastOf key s.processed, e.pressed = true ∧ e.action.share.key k
  real i := ∃ key, ∃ e ∈ lastOf key s.processed, e.pressed = true ∧ e.action.share.real i
  weak i := ∃ key, ∃ e ∈ lastOf key s.processed, e.pressed = true ∧ e.action.share.weak i

/-- Each release came after a press of the same key, and with its keycode and action. -/
def Matched (es : List (Processed c)) : Prop :=
  ∀ pre e post, es = pre ++ e :: post → e.pressed = false →
    ∃ e' ∈ lastOf e.key pre, e'.pressed = true ∧ e'.keycode = e.keycode ∧ e'.action = e.action

/-- Keys that are down are found where they were, the report holds nothing but their keys
and modifiers, and the releases so far are matched. -/
structure Balanced (u : Usages) (s : State c) : Prop where
  found : ∀ key, ∀ e ∈ lastOf key s.processed, e.pressed = true →
    codeAt u s.vial (s.sourceLayersCache key) key = (e.keycode, e.action)
  report : s.report.Within s.heldShare
  matched : Matched s.processed

/-- A new record, matched if it is a release. -/
theorem Matched.append {es : List (Processed c)} {e : Processed c} (h : Matched es)
    (he : e.pressed = false →
      ∃ e' ∈ lastOf e.key es, e'.pressed = true ∧ e'.keycode = e.keycode ∧ e'.action = e.action) :
    Matched (es ++ [e]) := by
  intro pre x post heq hrelease
  rcases List.eq_nil_or_concat post with rfl | ⟨post', y, rfl⟩
  · rcases List.append_inj' heq rfl with ⟨rfl, hlast⟩
    rw [List.cons.injEq] at hlast
    rw [← hlast.1] at hrelease ⊢
    exact he hrelease
  · rw [List.concat_eq_append, ← List.cons_append, ← List.append_assoc] at heq
    rcases List.append_inj' heq rfl with ⟨hpre, -⟩
    exact h pre x post' hpre hrelease

section Steps

variable {s : State c}

theorem Balanced.press (hlayers : c.dynamicKeymapLayerCount ≤ 32) {key : KeyPos c}
    (h : Balanced u s) (hturn : ¬ s.Down key) : Balanced u (processRecord u key true s) := by
  rw [processRecord_press hlayers]
  constructor
  · intro key' e he hpressed
    dsimp only at he ⊢
    by_cases hkey : key = key'
    · subst hkey
      rw [@lastOf_own _ _ key s.processed _ rfl, Option.mem_def, Option.some.injEq] at he
      rw [← he, Function.update_self]
      rfl
    · rw [lastOf_other _ hkey] at he
      rw [Function.update_of_ne (Ne.symm hkey)]
      exact h.found key' e he hpressed
  · apply (processAction_press _ h.report).mono
    · rintro k (⟨key', e, he, hpressed, hshare⟩ | hshare)
      · have hkey : key ≠ key' := fun heq => hturn (heq ▸ ⟨e, he, hpressed⟩)
        refine ⟨key', e, ?_, hpressed, hshare⟩
        dsimp only
        rwa [lastOf_other _ hkey]
      · exact ⟨key, _, lastOf_own _ rfl, rfl, hshare⟩
    · rintro i (⟨key', e, he, hpressed, hshare⟩ | hshare)
      · have hkey : key ≠ key' := fun heq => hturn (heq ▸ ⟨e, he, hpressed⟩)
        refine ⟨key', e, ?_, hpressed, hshare⟩
        dsimp only
        rwa [lastOf_other _ hkey]
      · exact ⟨key, _, lastOf_own _ rfl, rfl, hshare⟩
    · rintro i (⟨key', e, he, hpressed, hshare⟩ | hshare)
      · have hkey : key ≠ key' := fun heq => hturn (heq ▸ ⟨e, he, hpressed⟩)
        refine ⟨key', e, ?_, hpressed, hshare⟩
        dsimp only
        rwa [lastOf_other _ hkey]
      · exact ⟨key, _, lastOf_own _ rfl, rfl, hshare⟩
  · exact h.matched.append fun hrelease => absurd hrelease.symm Bool.false_ne_true

theorem Balanced.release {key : KeyPos c} (h : Balanced u s) (hturn : s.Down key) :
    Balanced u (processRecord u key false s) := by
  rcases hturn with ⟨e, he, hpressed⟩
  have hcode := h.found key e he hpressed
  rw [codeAt, Prod.mk.injEq] at hcode
  rw [processRecord_release]
  constructor
  · intro key' e' he' hpressed'
    dsimp only at he' ⊢
    by_cases hkey : key = key'
    · rw [lastOf_own _ hkey, Option.mem_def, Option.some.injEq] at he'
      rw [← he'] at hpressed'
      exact absurd hpressed' Bool.false_ne_true
    · rw [lastOf_other _ hkey] at he'
      exact h.found key' e' he' hpressed'
  · have hother : ∀ {key' : KeyPos c} {e' : Processed c}, e' ∈ lastOf key' s.processed →
        e'.action ≠ e.action → key ≠ key' := by
      intro key' e' he' hne heq
      subst heq
      rw [Option.mem_unique he' he] at hne
      exact hne rfl
    apply (processAction_release _ h.report).mono
    · rintro k ⟨⟨key', e', he', hpressed', hshare⟩, hnot⟩
      rw [hcode.2] at hnot
      have hkey := hother he' fun heq => hnot (heq ▸ hshare)
      refine ⟨key', e', ?_, hpressed', hshare⟩
      dsimp only
      rwa [lastOf_other _ hkey]
    · rintro i ⟨⟨key', e', he', hpressed', hshare⟩, hnot⟩
      rw [hcode.2] at hnot
      have hkey := hother he' fun heq => hnot (heq ▸ hshare)
      refine ⟨key', e', ?_, hpressed', hshare⟩
      dsimp only
      rwa [lastOf_other _ hkey]
    · rintro i ⟨⟨key', e', he', hpressed', hshare⟩, hnot⟩
      rw [hcode.2] at hnot
      have hkey := hother he' fun heq => hnot (heq ▸ hshare)
      refine ⟨key', e', ?_, hpressed', hshare⟩
      dsimp only
      rwa [lastOf_other _ hkey]
  · exact h.matched.append fun _ => ⟨e, he, hpressed, hcode.1.symm, hcode.2.symm⟩

theorem Balanced.arrive (hlayers : c.dynamicKeymapLayerCount ≤ 32) {key : KeyPos c}
    (h : Balanced u s) (hsame : s.Down key → codeAt u s.vial (layerSwitchGetLayer u s key) key =
      codeAt u s.vial (s.sourceLayersCache key) key) :
    Balanced u (preProcess u key true s) := by
  rw [preProcess_press hlayers]
  constructor
  · intro key' e he hpressed
    dsimp only at he ⊢
    by_cases hkey : key' = key
    · subst hkey
      rw [Function.update_self, hsame ⟨e, he, hpressed⟩]
      exact h.found key' e he hpressed
    · rw [Function.update_of_ne hkey]
      exact h.found key' e he hpressed
  · exact ⟨h.report.keys, h.report.real, fun i hi => by simp [Report.clearWeakMods] at hi⟩
  · exact h.matched

/-- One input. -/
theorem Balanced.step (hlayers : c.dynamicKeymapLayerCount ≤ 32) {i : Input c}
    (h : Balanced u s) (hturn : InTurn s i) (hsame : Undisturbed u s i) :
    Balanced u (step u s i) := by
  cases i with
  | host i =>
    exact ⟨fun key e he hpressed => (hsame key ⟨e, he, hpressed⟩).trans (h.found key e he hpressed),
      h.report, h.matched⟩
  | layerStateSet state => exact ⟨h.found, h.report, h.matched⟩
  | defaultLayerStateSet state => exact ⟨h.found, h.report, h.matched⟩
  | arrive key pressed =>
    cases pressed with
    | true => exact h.arrive hlayers (hsame rfl)
    | false =>
      show Balanced u (preProcess u key false s)
      rw [preProcess_release]
      exact h
  | process key pressed =>
    cases pressed with
    | true => exact h.press hlayers (hturn.mp rfl)
    | false => exact h.release (not_not.mp fun hup => Bool.false_ne_true (hturn.mpr hup))

/-- When all keys are up, nothing is registered. -/
theorem Balanced.report_empty (h : Balanced u s) (hup : ∀ key, ¬ s.Down key) :
    (∀ k ∈ s.report.keys, k = 0) ∧ s.report.realMods = 0 ∧ s.report.weakMods = 0 := by
  refine ⟨fun k hk => ?_, ?_, ?_⟩
  · by_contra hne
    rcases h.report.keys k hk hne with ⟨key, e, he, hpressed, -⟩
    exact hup key ⟨e, he, hpressed⟩
  · apply BitVec.eq_of_getLsbD_eq
    intro i _
    have hzero : (0 : BitVec 8).getLsbD i = false := by simp
    rw [hzero, ← Bool.not_eq_true]
    intro hi
    rcases h.report.real i hi with ⟨key, e, he, hpressed, -⟩
    exact hup key ⟨e, he, hpressed⟩
  · apply BitVec.eq_of_getLsbD_eq
    intro i _
    have hzero : (0 : BitVec 8).getLsbD i = false := by simp
    rw [hzero, ← Bool.not_eq_true]
    intro hi
    rcases h.report.weak i hi with ⟨key, e, he, hpressed, -⟩
    exact hup key ⟨e, he, hpressed⟩

end Steps

/-- Along a run whose inputs disturb no key that is down, every release is processed with
the keycode and the action of its press, and nothing is registered when all keys are up. -/
theorem release_matches (hlayers : c.dynamicKeymapLayerCount ≤ 32) {s : State c}
    (hstart : s.processed = []) (hempty : s.report = Report.empty) {is : List (Input c)}
    (hsafe : StateMachine.Along (step u) (fun s i => InTurn s i ∧ Undisturbed u s i) s is) :
    Matched (StateMachine.run (step u) s is).processed ∧
      ((∀ key, ¬ (StateMachine.run (step u) s is).Down key) →
        (∀ k ∈ (StateMachine.run (step u) s is).report.keys, k = 0) ∧
          (StateMachine.run (step u) s is).report.realMods = 0 ∧
          (StateMachine.run (step u) s is).report.weakMods = 0) := by
  have hinit : Balanced u s := by
    constructor
    · intro key e he
      rw [hstart] at he
      exact absurd he (by simp [lastOf])
    · rw [hempty]
      constructor
      · intro k hk hne
        rw [Report.empty, List.mem_replicate] at hk
        exact absurd hk.2 hne
      · intro i hi
        simp [Report.empty] at hi
      · intro i hi
        simp [Report.empty] at hi
    · rw [hstart]
      intro pre e post heq
      exact absurd heq.symm (by simp)
  have hend := StateMachine.run_invariant (Balanced u)
    (fun s i h hsafe => h.step hlayers hsafe.1 hsafe.2) hinit hsafe
  exact ⟨hend.matched, hend.report_empty⟩

/-! ## One key -/

/-- A build without system, consumer and swap-hands keys. -/
def plainUsages : Usages where
  extrakeyEnable := false
  swapHandsEnable := false
  keycode2system _ := 0
  keycode2consumer _ := 0

/-- The small keyboard with no key down. -/
def oneKey : State Vial.smallKeyboard where
  vial := Vial.smallState
  layerState := 0
  defaultLayerState := 1
  sourceLayersCache _ := 0
  report := Report.empty
  processed := []

/-- Its only key. -/
def onlyKey : KeyPos Vial.smallKeyboard :=
  (⟨0, by decide⟩, ⟨0, by decide⟩)

/-- The key arrives and is processed. -/
def keyStroke (pressed : Bool) : List (Input Vial.smallKeyboard) :=
  [.arrive onlyKey pressed, .process onlyKey pressed]

/-- The host sets the key, and the key is typed. -/
theorem release_matches_typed :
    Matched (StateMachine.run (step plainUsages) oneKey
      ([.host (Vial.inputOf [0x05, 0, 0, 0, 0x00, 0xE1])] ++ keyStroke true ++
        [.layerStateSet 1] ++ keyStroke false)).processed :=
  (release_matches (by decide) rfl rfl (by decide)).1

/-- The key is set to the left shift and pressed, the host sets it to A, and it is
released.  The shift stays down. -/
theorem stuck_setKeycode :
    let is := [Input.host (Vial.inputOf [0x05, 0, 0, 0, 0x00, 0xE1])] ++ keyStroke true ++
      [Input.host (Vial.inputOf [0x05, 0, 0, 0, 0x00, 0x04])] ++ keyStroke false
    StateMachine.Along (step plainUsages) InTurn oneKey is ∧
      (∀ key, ¬ (StateMachine.run (step plainUsages) oneKey is).Down key) ∧
      ¬ Matched (StateMachine.run (step plainUsages) oneKey is).processed ∧
      (StateMachine.run (step plainUsages) oneKey is).report.realMods ≠ 0 := by
  intro is
  refine ⟨by decide, by decide, fun h => ?_, by decide⟩
  have hrecords : (StateMachine.run (step plainUsages) oneKey is).processed =
      [⟨onlyKey, true, 0xE1, 0xE1⟩] ++ ⟨onlyKey, false, 0x04, 0x04⟩ :: [] := by decide
  rcases h _ _ _ hrecords rfl with ⟨e, he, -, hcode, -⟩
  rw [Option.mem_def, lastOf, List.filter_cons_of_pos rfl, List.filter_nil, List.getLast?_singleton,
    Option.some.injEq] at he
  rw [← he] at hcode
  exact absurd hcode (by decide)

end Keys
end VialQmk
