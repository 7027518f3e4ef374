import VialQmk.Keys.Report
import VialQmk.Vial.RawHid
import VialQmk.Library.Runs
import Mathlib.Data.Fintype.Prod
import Mathlib.Logic.Function.Basic

/-!
# Keys - from a key to its action

A press looks for the key on the layers that are on, from the top, and remembers the
layer it finds.  The release only remembers the layer: the keycode is read again, from
the keymap the host can write, and not at all while the keyboard is being unlocked.

A key event is looked up when it arrives ({lit}`pre_process_record_quantum`) and when its
record is processed, which the tapping code may put off.  The model has one input for
either; no one-shot layer is active, and the features between keycode and action pass the
record on.

Main results:

- Definition {lit}`processRecord`: the record of a key, with the report.
- Definition {lit}`step`: key events, layer changes and reports of the host, in any order.
-/

namespace VialQmk
namespace Keys

open Function (update)

variable {L : Type}

/-! ## State -/

/-- {lit}`keypos_t`, inside the matrix -/
abbrev KeyPos (c : Vial.Config L) :=
  Fin c.matrixRows × Fin c.matrixCols

/-- A record that was processed, with the keycode and the action it was processed with. -/
structure Processed (c : Vial.Config L) where
  key : KeyPos c
  pressed : Bool
  keycode : ℕ
  action : Action
deriving DecidableEq

/-- The layers, the cache and the report of a keyboard, and its part for the host. -/
structure State (c : Vial.Config L) where
  vial : Vial.State L
  layerState : ℕ
  defaultLayerState : ℕ
  sourceLayersCache : KeyPos c → ℕ
  report : Report
  processed : List (Processed c)

variable {c : Vial.Config L} (u : Usages)

/-! ## Looking up a key -/

/-- {lit}`MAX_LAYER_BITS` -/
def maxLayerBits (c : Vial.Config L) : ℕ :=
  if c.dynamicKeymapLayerCount ≤ 8 then 3 else if c.dynamicKeymapLayerCount ≤ 16 then 4 else 5

/-- {lit}`keymap_key_to_keycode` -/
def keymapKeyToKeycode (v : Vial.State L) (layer : ℕ) (key : KeyPos c) : ℕ :=
  if v.vialUnlockInProgress then kcNo
  else Vial.dynamicKeymapGetKeycode c layer key.1 key.2 v.eeprom

/-- {lit}`action_for_key` -/
def actionForKey (v : Vial.State L) (layer : ℕ) (key : KeyPos c) : Action :=
  actionForKeycode u v.keymapConfig (keymapKeyToKeycode v layer key)

/-- The loop of {lit}`layer_switch_get_layer`, over the layers below {lit}`n`. -/
def topLayer (v : Vial.State L) (layers : ℕ) (key : KeyPos c) : ℕ → ℕ
  | 0 => 0
  | i + 1 =>
    if layers.testBit i ∧ actionForKey u v i key ≠ actionTransparent then i
    else topLayer v layers key i

/-- {lit}`layer_switch_get_layer` -/
def layerSwitchGetLayer (s : State c) (key : KeyPos c) : ℕ :=
  topLayer u s.vial (s.layerState ||| s.defaultLayerState) key c.dynamicKeymapLayerCount

/-- {lit}`update_source_layers_cache`: the bits of the layer that fit. -/
def updateSourceLayersCache (key : KeyPos c) (layer : ℕ) (s : State c) : State c :=
  { s with sourceLayersCache := update s.sourceLayersCache key (layer % 2 ^ maxLayerBits c) }

/-- {lit}`get_event_keycode`, updating the cache -/
def getEventKeycode (key : KeyPos c) (pressed : Bool) (s : State c) : ℕ × State c :=
  if pressed then
    let layer := layerSwitchGetLayer u s key
    (keymapKeyToKeycode s.vial layer key, updateSourceLayersCache key layer s)
  else (keymapKeyToKeycode s.vial (s.sourceLayersCache key) key, s)

/-- {lit}`store_or_get_action` -/
def storeOrGetAction (key : KeyPos c) (pressed : Bool) (s : State c) : Action × State c :=
  if pressed then
    let layer := layerSwitchGetLayer u s key
    (actionForKey u s.vial layer key, updateSourceLayersCache key layer s)
  else (actionForKey u s.vial (s.sourceLayersCache key) key, s)

/-! ## Events -/

/-- {lit}`action_exec` up to the tapping code: a press clears the weak modifiers, and
{lit}`pre_process_record_quantum` looks the key up. -/
def preProcess (key : KeyPos c) (pressed : Bool) (s : State c) : State c :=
  let s := if pressed then { s with report := s.report.clearWeakMods } else s
  (getEventKeycode u key pressed s).2

/-- {lit}`process_record` -/
def processRecord (key : KeyPos c) (pressed : Bool) (s : State c) : State c :=
  let res := getEventKeycode u key pressed s
  let act := storeOrGetAction u key pressed res.2
  { act.2 with
    report := processAction pressed act.1 act.2.report
    processed := act.2.processed ++ [⟨key, pressed, res.1, act.1⟩] }

/-- A report of the host, a layer change, a key event that arrives or is processed. -/
inductive Input (c : Vial.Config L)
  | host (i : Vial.Input)
  | layerStateSet (state : ℕ)
  | defaultLayerStateSet (state : ℕ)
  | arrive (key : KeyPos c) (pressed : Bool)
  | process (key : KeyPos c) (pressed : Bool)

/-- One input. -/
def step (s : State c) : Input c → State c
  | .host i => { s with vial := Vial.step c s.vial i }
  | .layerStateSet state => { s with layerState := state }
  | .defaultLayerStateSet state => { s with defaultLayerState := state }
  | .arrive key pressed => preProcess u key pressed s
  | .process key pressed => processRecord u key pressed s

/-! ## What the lookups do -/

section Lookup

variable {u} {s : State c} {key : KeyPos c}

/-- The layer that is found is one of the keyboard, or layer 0. -/
theorem topLayer_lt (v : Vial.State L) (layers : ℕ) (key : KeyPos c) {n m : ℕ} (hm : 0 < m)
    (hn : n ≤ m) : topLayer u v layers key n < m := by
  induction n with
  | zero => exact hm
  | succ n ih =>
    rw [topLayer]
    split_ifs
    · omega
    · exact ih (Nat.le_of_succ_le hn)

/-- The cache holds the layers of the keyboard in full. -/
theorem layer_mod (hlayers : c.dynamicKeymapLayerCount ≤ 32) (s : State c) (key : KeyPos c) :
    layerSwitchGetLayer u s key % 2 ^ maxLayerBits c = layerSwitchGetLayer u s key := by
  apply Nat.mod_eq_of_lt
  apply topLayer_lt
  · exact Nat.two_pow_pos _
  · unfold maxLayerBits
    split_ifs <;> omega

/-- A press is processed on the layer it finds, and remembers it. -/
theorem processRecord_press (hlayers : c.dynamicKeymapLayerCount ≤ 32) :
    processRecord u key true s =
      { s with
        sourceLayersCache := update s.sourceLayersCache key (layerSwitchGetLayer u s key)
        report := processAction true (actionForKey u s.vial (layerSwitchGetLayer u s key) key)
          s.report
        processed := s.processed ++ [⟨key, true,
          keymapKeyToKeycode s.vial (layerSwitchGetLayer u s key) key,
          actionForKey u s.vial (layerSwitchGetLayer u s key) key⟩] } := by
  have hcache : layerSwitchGetLayer u
      { s with
        sourceLayersCache := update s.sourceLayersCache key (layerSwitchGetLayer u s key) } key =
      layerSwitchGetLayer u s key := rfl
  unfold processRecord getEventKeycode storeOrGetAction
  simp only [if_true, updateSourceLayersCache, layer_mod hlayers, hcache, Function.update_idem]

/-- A release is processed on the layer that is remembered. -/
theorem processRecord_release :
    processRecord u key false s =
      { s with
        report := processAction false (actionForKey u s.vial (s.sourceLayersCache key) key) s.report
        processed := s.processed ++ [⟨key, false,
          keymapKeyToKeycode s.vial (s.sourceLayersCache key) key,
          actionForKey u s.vial (s.sourceLayersCache key) key⟩] } := by
  unfold processRecord getEventKeycode storeOrGetAction
  simp only [Bool.false_eq_true, if_false]

/-- A press that arrives remembers the layer as well. -/
theorem preProcess_press (hlayers : c.dynamicKeymapLayerCount ≤ 32) :
    preProcess u key true s =
      { s with
        sourceLayersCache := update s.sourceLayersCache key (layerSwitchGetLayer u s key)
        report := s.report.clearWeakMods } := by
  have hweak : layerSwitchGetLayer u { s with report := s.report.clearWeakMods } key =
      layerSwitchGetLayer u s key := rfl
  unfold preProcess getEventKeycode
  simp only [if_true, updateSourceLayersCache, hweak, layer_mod hlayers]

theorem preProcess_release : preProcess u key false s = s := by
  unfold preProcess getEventKeycode
  simp only [Bool.false_eq_true, if_false]

end Lookup

end Keys
end VialQmk
