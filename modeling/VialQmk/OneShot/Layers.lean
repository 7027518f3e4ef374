import VialQmk.Keys.Action
import VialQmk.Library.Runs
import Mathlib.Logic.Function.Basic

/-!
# One-shot layers - the model

A one-shot layer key switches its layer on until the next key.  One byte holds the layer and
three bits of state; {lit}`process_action` clears it, and it calls {lit}`process_record` once
more to release the key before the layer is left.

Two fields of a state are not the program's: they record which layers are on because of
one-shot keys alone, and what keys have done to the layers in a step.

Main results:

- Definition {lit}`processAction`: the layer cases of {lit}`process_action`, around them the
  clearing of the one-shot layer and the early release.
- Definition {lit}`step`: key events, timeouts and the enable switch, in any order.
-/

namespace VialQmk
namespace OneShot

open Function (update)
open Keys (Action isModifierKeycode actionTransparent)

variable {w : ℕ} {Key : Type} [DecidableEq Key]

/-! ## Actions on layers -/

namespace Action

/-- {lit}`action.layer_bitop.bits` -/
def bitopBits (a : Action) : ℕ :=
  a &&& 0xF

/-- {lit}`action.layer_bitop.xbit` -/
def bitopXbit (a : Action) : Bool :=
  a.testBit 4

/-- {lit}`action.layer_bitop.part` -/
def bitopPart (a : Action) : ℕ :=
  a >>> 5 &&& 0x7

/-- {lit}`action.layer_bitop.on` -/
def bitopOn (a : Action) : ℕ :=
  a >>> 8 &&& 0x3

/-- {lit}`action.layer_bitop.op` -/
def bitopOp (a : Action) : ℕ :=
  a >>> 10 &&& 0x3

/-- {lit}`action.layer_mods.layer` -/
def layerModsLayer (a : Action) : ℕ :=
  a >>> 8 &&& 0xF

/-- {lit}`action.layer_tap.val` -/
def layerTapVal (a : Action) : ℕ :=
  a >>> 8 &&& 0x1F

/-- {lit}`ACT_LAYER_TAP` or {lit}`ACT_LAYER_TAP_EXT` -/
def isLayerTap (a : Action) : Bool :=
  a.kind = 0b1010 || a.kind = 0b1011

/-- {lit}`OP_ONESHOT` -/
def isOneshot (a : Action) : Bool :=
  isLayerTap a && a.keyCode = 0xF4

end Action

/-- The bit of a layer. -/
def layerBit (layer : ℕ) : BitVec w :=
  1#w <<< layer

/-- What {lit}`layer_and`, {lit}`layer_or`, {lit}`layer_xor` and {lit}`layer_state_set` do to
a set of layers. -/
inductive LayerOp (w : ℕ)
  | and (mask : BitVec w)
  | or (mask : BitVec w)
  | xor (mask : BitVec w)
  | set (mask : BitVec w)
deriving DecidableEq

namespace LayerOp

/-- {lit}`layer_on` -/
def on (layer : ℕ) : LayerOp w :=
  or (layerBit layer)

/-- {lit}`layer_off` -/
def off (layer : ℕ) : LayerOp w :=
  and (~~~layerBit layer)

/-- {lit}`layer_invert` -/
def invert (layer : ℕ) : LayerOp w :=
  xor (layerBit layer)

/-- {lit}`layer_move` -/
def move (layer : ℕ) : LayerOp w :=
  set (layerBit layer)

/-- {lit}`layer_clear` -/
def clear : LayerOp w :=
  set 0

/-- The layers after the operation. -/
def apply : LayerOp w → BitVec w → BitVec w
  | and mask, layers => layers &&& mask
  | or mask, layers => layers ||| mask
  | xor mask, layers => layers ^^^ mask
  | set mask, _ => mask

/-- The layers that the operation asks to be on. -/
def asksOn : LayerOp w → BitVec w → BitVec w
  | and _, _ => 0
  | or mask, _ => mask
  | xor mask, layers => mask &&& ~~~layers
  | set mask, _ => mask

end LayerOp

/-- What a build, its keymap and the settings fix. -/
structure Config (Key : Type) where
  /-- {lit}`action_for_key` -/
  actionForKey : ℕ → Key → Action
  swapHandsEnable : Bool
  /-- {lit}`QS_tapping_toggle` -/
  tappingToggle : ℕ
  /-- {lit}`QS_oneshot_tap_toggle` -/
  oneshotTapToggle : ℕ
  /-- {lit}`QS_oneshot_timeout` -/
  oneshotTimeout : ℕ

/-! ## State -/

/-- {lit}`ONESHOT_PRESSED` -/
def oneshotPressed : BitVec 8 := 0b01

/-- {lit}`ONESHOT_OTHER_KEY_PRESSED` -/
def oneshotOtherKeyPressed : BitVec 8 := 0b10

/-- {lit}`ONESHOT_START` -/
def oneshotStart : BitVec 8 := 0b11

/-- {lit}`ONESHOT_TOGGLED` -/
def oneshotToggled : BitVec 8 := 0b100

/-- The layers, the byte of the one-shot layer and the cache of source layers. -/
structure State (w : ℕ) (Key : Type) where
  layerState : BitVec w
  defaultLayerState : BitVec w
  /-- {lit}`LLLL LSSS`: the layer and its state bits -/
  oneshotLayerData : BitVec 8
  /-- {lit}`keymap_config.oneshot_enable` -/
  oneshotEnable : Bool
  /-- {lit}`source_layers_cache` -/
  sourceLayers : Key → ℕ
  /-- For the statements: the layers that only one-shot keys have switched on. -/
  onByOneshot : BitVec w
  /-- For the statements: what keys have done to the layers in this step. -/
  keyOps : List (LayerOp w)

namespace State

/-- {lit}`get_oneshot_layer` -/
def getOneshotLayer (s : State w Key) : ℕ :=
  (s.oneshotLayerData >>> 3).toNat

/-- {lit}`get_oneshot_layer_state` -/
def getOneshotLayerState (s : State w Key) : BitVec 8 :=
  s.oneshotLayerData &&& 0b111

/-- {lit}`is_oneshot_layer_active` -/
def isOneshotLayerActive (s : State w Key) : Bool :=
  s.getOneshotLayerState ≠ 0

/-- {lit}`layer_state_set`, for a one-shot key or for another one.  A layer that a one-shot
key finds off is on because of it alone, until it is off or another key asks for it. -/
def layerStateSet (oneshotKey : Bool) (op : LayerOp w) (s : State w Key) : State w Key :=
  let layers := op.apply s.layerState
  { s with
    layerState := layers
    onByOneshot :=
      if oneshotKey then (s.onByOneshot ||| ~~~s.layerState) &&& layers
      else s.onByOneshot &&& ~~~op.asksOn s.layerState &&& layers }

/-- {lit}`reset_oneshot_layer` -/
def resetOneshotLayer (s : State w Key) : State w Key :=
  { s with oneshotLayerData := 0 }

/-- {lit}`set_oneshot_layer` -/
def setOneshotLayer (layer : ℕ) (state : BitVec 8) (s : State w Key) : State w Key :=
  if s.oneshotEnable then
    let s := { s with oneshotLayerData := BitVec.ofNat 8 layer <<< 3 ||| state }
    s.layerStateSet true (.on layer)
  else s.layerStateSet true (.on layer)

/-- {lit}`clear_oneshot_layer_state` -/
def clearOneshotLayerState (state : BitVec 8) (s : State w Key) : State w Key :=
  let startState := s.oneshotLayerData
  let s := { s with oneshotLayerData := startState &&& ~~~state }
  if s.getOneshotLayerState = 0 ∧ startState ≠ s.oneshotLayerData ∧ s.oneshotEnable then
    (s.layerStateSet true (.off s.getOneshotLayer)).resetOneshotLayer
  else s

/-- {lit}`oneshot_set` -/
def oneshotSet (active : Bool) (s : State w Key) : State w Key :=
  if s.oneshotEnable ≠ active then
    { s with oneshotEnable := active }.clearOneshotLayerState oneshotOtherKeyPressed
  else s

end State

/-! ## Actions of keys -/

/-- A bitwise operation of {lit}`ACT_LAYER`. -/
def bitop (a : Action) : LayerOp w :=
  let shift := Action.bitopPart a * 4
  let bits := BitVec.ofNat w (Action.bitopBits a) <<< shift
  let mask := if Action.bitopXbit a then ~~~(0xF#w <<< shift) else 0
  match Action.bitopOp a with
  | 0 => .and (bits ||| mask)
  | 1 => .or (bits ||| mask)
  | 2 => .xor (bits ||| mask)
  | _ => .set (bits ||| mask)

/-- What a key does to the layers, in {lit}`process_action`.  A one-shot key gets here only
when one-shot keys are disabled. -/
def layerOp (cfg : Config Key) (pressed : Bool) (tapCount : ℕ) (a : Action) :
    Option (LayerOp w) :=
  if a.kind = 0b1000 then
    if (Action.bitopOn a).testBit (if pressed then 0 else 1) then some (bitop a) else none
  else if a.kind = 0b1001 then
    some (if pressed then .on (Action.layerModsLayer a) else .off (Action.layerModsLayer a))
  else if Action.isLayerTap a then
    let val := Action.layerTapVal a
    if a.keyCode = 0xF0 then
      -- toggled by the press and the release, until there are enough taps
      if if pressed then tapCount < cfg.tappingToggle else tapCount ≤ cfg.tappingToggle then
        some (.invert val)
      else none
    else if a.keyCode = 0xF1 then some (if pressed then .on val else .off val)
    else if a.keyCode = 0xF2 then some (if pressed then .off val else .on val)
    else if a.keyCode = 0xF3 then some (if pressed then .move val else .clear)
    else if a.keyCode = 0xF4 then some (if pressed then .on val else .off val)
    else if tapCount > 0 then none
    else some (if pressed then .on val else .off val)
  else none

/-- What a key does to the default layers, in {lit}`process_action`. -/
def defaultLayerOp (pressed : Bool) (a : Action) : Option (LayerOp w) :=
  if a.kind = 0b1000 ∧ Action.bitopOn a = 0 ∧ pressed = false then some (bitop a) else none

/-- A press of the key ends a one-shot layer: the key is not a modifier. -/
def endsOneshot (cfg : Config Key) (tapCount : ℕ) (a : Action) : Bool :=
  (a.kind = 0b0100 ||
    !(isModifierKeycode a.keyCode ||
      ((a.kind = 0b0010 || a.kind = 0b0011) && (a.keyCode ≤ 1 || tapCount = 0)))) &&
  !(cfg.swapHandsEnable && a.kind = 0b0110 && a.keyCode = 0xF6)

namespace State

/-- {lit}`store_or_get_action`, the layer: {lit}`layer_switch_get_layer` for a press, the layer
of the press for a release. -/
def sourceLayer (cfg : Config Key) (pressed : Bool) (key : Key) (s : State w Key) : ℕ :=
  if pressed then
    let layers := s.layerState ||| s.defaultLayerState
    ((List.range w).reverse.find? fun i =>
      layers.getLsbD i && cfg.actionForKey i key != actionTransparent).getD 0
  else s.sourceLayers key

/-- {lit}`store_or_get_action`, the cache. -/
def storeSourceLayer (cfg : Config Key) (pressed : Bool) (key : Key) (s : State w Key) :
    State w Key :=
  if pressed then
    { s with sourceLayers := update s.sourceLayers key (s.sourceLayer cfg true key) }
  else s

/-- The action of a key event. -/
def actionOf (cfg : Config Key) (pressed : Bool) (key : Key) (s : State w Key) : Action :=
  cfg.actionForKey (s.sourceLayer cfg pressed key) key

/-- A key acts on the layers. -/
def doLayerOp (oneshotKey : Bool) (op : LayerOp w) (s : State w Key) : State w Key :=
  { s.layerStateSet oneshotKey op with keyOps := s.keyOps ++ [op] }

/-- {lit}`OP_ONESHOT`, enabled -/
def oneshotKey (cfg : Config Key) (pressed : Bool) (tapCount val : ℕ) (s : State w Key) :
    State w Key :=
  if 1 < cfg.oneshotTapToggle then
    if pressed then
      if s.getOneshotLayerState = oneshotToggled then
        s.resetOneshotLayer.layerStateSet true (.off val)
      else if tapCount < cfg.oneshotTapToggle then s.setOneshotLayer val oneshotStart
      else s
    else if cfg.oneshotTapToggle ≤ tapCount then
      s.resetOneshotLayer.setOneshotLayer val oneshotToggled
    else s.clearOneshotLayerState oneshotPressed
  else if pressed then s.setOneshotLayer val oneshotStart
  else
    let s := s.clearOneshotLayerState oneshotPressed
    if 1 < tapCount then s.clearOneshotLayerState oneshotOtherKeyPressed else s

/-- The cases of {lit}`process_action` that are about layers. -/
def executeAction (cfg : Config Key) (pressed : Bool) (tapCount : ℕ) (a : Action)
    (s : State w Key) : State w Key :=
  if Action.isOneshot a ∧ s.oneshotEnable then
    s.oneshotKey cfg pressed tapCount (Action.layerTapVal a)
  else
    let s :=
      match defaultLayerOp pressed a with
      | some op => { s with defaultLayerState := op.apply s.defaultLayerState }
      | none => s
    match layerOp cfg pressed tapCount a with
    | some op => s.doLayerOp (Action.isOneshot a) op
    | none => s

/-- {lit}`process_action`, with what {lit}`process_record` does to the early release. -/
def processAction (cfg : Config Key) (release : State w Key → State w Key) (pressed : Bool)
    (tapCount : ℕ) (a : Action) (s : State w Key) : State w Key :=
  let clears :=
    s.isOneshotLayerActive && pressed && endsOneshot cfg tapCount a && s.oneshotEnable
  let s := if clears then s.clearOneshotLayerState oneshotOtherKeyPressed else s
  let doReleaseOneshot := clears && !s.isOneshotLayerActive &&
    !(Action.isOneshot a && s.oneshotEnable && 1 < cfg.oneshotTapToggle)
  let s := s.executeAction cfg pressed tapCount a
  if doReleaseOneshot ∧ s.getOneshotLayerState &&& oneshotPressed = 0 then
    let s := s.layerStateSet true (.on s.getOneshotLayer)
    let s := release s
    s.layerStateSet true (.off s.getOneshotLayer)
  else s

/-- {lit}`process_record`; {lit}`proceeds` is the result of {lit}`process_record_quantum`. -/
def processRecord (cfg : Config Key) (release : State w Key → State w Key) (key : Key)
    (pressed : Bool) (tapCount : ℕ) (proceeds : Bool) (s : State w Key) : State w Key :=
  if proceeds then
    let a := s.actionOf cfg pressed key
    (s.storeSourceLayer cfg pressed key).processAction cfg release pressed tapCount a
  else if s.isOneshotLayerActive ∧ pressed ∧ s.oneshotEnable then
    s.clearOneshotLayerState oneshotOtherKeyPressed
  else s

end State

/-! ## Steps -/

/-- A key event with the taps counted so far.  The quantum code may keep the event for
itself, and also the early release. -/
structure KeyEvent (Key : Type) where
  key : Key
  pressed : Bool
  tapCount : ℕ
  proceeds : Bool
  releaseProceeds : Bool

/-- What may happen. -/
inductive Input (Key : Type)
  | key (ev : KeyEvent Key)
  /-- {lit}`action_exec` finds that the one-shot layer has timed out. -/
  | timeout
  /-- {lit}`oneshot_enable` and {lit}`oneshot_disable` -/
  | oneshotSet (active : Bool)

namespace State

/-- A key event, with an early release in it. -/
def processKey (cfg : Config Key) (ev : KeyEvent Key) (s : State w Key) : State w Key :=
  -- within the release no other one is started
  let release := processRecord cfg id ev.key false ev.tapCount ev.releaseProceeds
  s.processRecord cfg release ev.key ev.pressed ev.tapCount ev.proceeds

/-- {lit}`action_exec`, once the time is over. -/
def timeout (cfg : Config Key) (s : State w Key) : State w Key :=
  if s.oneshotEnable ∧ 0 < cfg.oneshotTimeout ∧ s.getOneshotLayerState &&& oneshotToggled = 0 then
    s.clearOneshotLayerState oneshotOtherKeyPressed
  else s

/-- No key has acted in the step that begins. -/
def begin (s : State w Key) : State w Key :=
  { s with keyOps := [] }

end State

/-- One step. -/
def step (cfg : Config Key) (s : State w Key) : Input Key → State w Key
  | .key ev => s.begin.processKey cfg ev
  | .timeout => s.begin.timeout cfg
  | .oneshotSet active => s.begin.oneshotSet active

omit [DecidableEq Key] in
/-- The early release is a release: nothing is released early within it. -/
theorem State.processAction_release (cfg : Config Key) (release release' : State w Key → State w Key)
    (tapCount : ℕ) (a : Action) (s : State w Key) :
    s.processAction cfg release false tapCount a = s.processAction cfg release' false tapCount a := by
  simp [State.processAction]

end OneShot
end VialQmk
