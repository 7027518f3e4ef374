import VialQmk.Library.Replace
import VialQmk.Macro.Playback

/-!
# Keymaps - macros of a JSON keymap

{lit}`_generate_macros_function` of {lit}`keymap.py`: the text of each macro is put together
from its fragments, and two quotes in a row are taken out of it.  The last keycode of a chord is
popped from the list in the keymap, so the function also returns what is left of the keymap.

The text is compiled as an argument of {lit}`SEND_STRING`: a sequence of string literals and of
macros for keycodes and delays.

Main results:

- Definition {lit}`generateMacrosFunction`: the lines of the function, and the keymap after it.
- Definition {lit}`compile`: the string that the compiler makes of a text.
- Definition {lit}`Fragment.acts`: what a fragment asks for.
-/

namespace VialQmk
namespace Keymap

open Macro Replace

/-! ## Fragments -/

inductive KeyAction
  | tap
  | down
  | up
deriving DecidableEq

/-- A fragment of a macro; names of keycodes stand without the prefix of their group. -/
inductive Fragment
  | text (s : List Char)
  | delay (duration : ℕ)
  | beep
  | keys (action : KeyAction) (keycodes : List (List Char))
deriving DecidableEq

/-- The fragment is a chord: some keys are held while the last one is tapped. -/
def Fragment.IsChord : Fragment → Prop
  | .keys .tap keycodes => keycodes.length > 1
  | _ => False

instance : DecidablePred Fragment.IsChord
  | .keys .tap keycodes => inferInstanceAs (Decidable (keycodes.length > 1))
  | .keys .down _ | .keys .up _ | .text _ | .delay _ | .beep => inferInstanceAs (Decidable False)

/-! ## Text of a macro -/

/-- The replacements in a text. -/
def escapeText (s : List Char) : List Char :=
  let s := replace ['\\'] ['\\', '\\'] s
  let s := replace ['\r', '\n'] ['\\', 'n'] s
  let s := replace ['\n'] ['\\', 'n'] s
  let s := replace ['\r'] ['\\', 'n'] s
  let s := replace ['\t'] ['\\', 't'] s
  replace ['"'] ['\\', '"'] s

/-- {lit}`SS_TAP(X_`, {lit}`SS_DOWN(X_` and {lit}`SS_UP(X_` -/
def KeyAction.call : KeyAction → List Char
  | .tap => ['S', 'S', '_', 'T', 'A', 'P', '(', 'X', '_']
  | .down => ['S', 'S', '_', 'D', 'O', 'W', 'N', '(', 'X', '_']
  | .up => ['S', 'S', '_', 'U', 'P', '(', 'X', '_']

/-- {lit}`SS_DELAY(` -/
def delayCall : List Char :=
  ['S', 'S', '_', 'D', 'E', 'L', 'A', 'Y', '(']

/-- The macro of a key. -/
def keyText (action : KeyAction) (keycode : List Char) : List Char :=
  action.call ++ keycode ++ [')']

/-- The text of a fragment, and what is left of the fragment. -/
def fragmentText : Fragment → List Char × Fragment
  | .text s => ('"' :: escapeText s ++ ['"'], .text s)
  | .delay duration => (delayCall ++ Nat.toDigits 10 duration ++ [')'], .delay duration)
  | .beep => (['"', '\\', 'a', '"'], .beep)
  | .keys .tap keycodes =>
    if h : keycodes.length > 1 then
      let lastKeycode := keycodes.getLast (List.ne_nil_of_length_pos (Nat.lt_of_succ_lt h))
      let held := keycodes.dropLast
      (held.flatMap (keyText .down) ++ keyText .tap lastKeycode ++
        held.reverse.flatMap (keyText .up), .keys .tap held)
    else (keycodes.flatMap (keyText .tap), .keys .tap keycodes)
  | .keys action keycodes => (keycodes.flatMap (keyText action), .keys action keycodes)

/-- The text of a macro. -/
def macroText (fragments : List Fragment) : List Char :=
  replace ['"', '"'] [] (fragments.flatMap fun fragment => (fragmentText fragment).1)

/-- What is left of a macro. -/
def macroRest (fragments : List Fragment) : List Fragment :=
  fragments.map fun fragment => (fragmentText fragment).2

/-- The lines of a macro. -/
def macroLines (i : ℕ) (newMacro : List Char) : List String :=
  ["            case QK_MACRO_" ++ toString i ++ ":",
    "                SEND_STRING(" ++ String.ofList newMacro ++ ");",
    "                return false;"]

/-- {lit}`_generate_macros_function`: the lines, and the macros in the keymap after it. -/
def generateMacrosFunction (macros : List (List Fragment)) : List String × List (List Fragment) :=
  (["bool process_record_user(uint16_t keycode, keyrecord_t *record) \x7b",
      "    if (record->event.pressed) \x7b",
      "        switch (keycode) \x7b"] ++
    (macros.zipIdx.flatMap fun (fragments, i) => macroLines i (macroText fragments)) ++
    ["        \x7d", "    \x7d", "\n    return true;", "\x7d;", ""],
    macros.map macroRest)

/-! ## The compiler -/

/-- The names of {lit}`send_string_keycodes.h` with their keycodes. -/
structure Names where
  /-- The keycode of {lit}`X_` and the name -/
  lookup : List Char → Option UInt8
  /-- They are identifiers. -/
  plain : ∀ name keycode, lookup name = some keycode → '"' ∉ name ∧ ')' ∉ name

/-- The character of an escape sequence; octal and hexadecimal ones are not used. -/
def simpleEscape (c : Char) : Option UInt8 :=
  if c = 'a' then some 7
  else if c = 'b' then some 8
  else if c = 't' then some 9
  else if c = 'n' then some 10
  else if c = 'v' then some 11
  else if c = 'f' then some 12
  else if c = 'r' then some 13
  else if c = '"' ∨ c = '\'' ∨ c = '?' ∨ c = '\\' then some (UInt8.ofNat c.toNat)
  else none

/-- What follows a list of characters. -/
def afterCall (call s : List Char) : Option (List Char) :=
  if call <+: s then some (s.drop call.length) else none

/-- The string of {lit}`SS_TAP`, {lit}`SS_DOWN`, {lit}`SS_UP` or {lit}`SS_DELAY`, without the
closing parenthesis. -/
def expand (names : Names) (s : List Char) : Option (List UInt8) :=
  match afterCall (KeyAction.call .tap) s with
  | some name => (names.lookup name).map fun keycode => [ssQmkPrefix, ssTapCode, keycode]
  | none =>
  match afterCall (KeyAction.call .down) s with
  | some name => (names.lookup name).map fun keycode => [ssQmkPrefix, ssDownCode, keycode]
  | none =>
  match afterCall (KeyAction.call .up) s with
  | some name => (names.lookup name).map fun keycode => [ssQmkPrefix, ssUpCode, keycode]
  | none =>
  (afterCall delayCall s).map fun msecs =>
    ssQmkPrefix :: ssDelayCode :: (msecs.map fun c => UInt8.ofNat c.toNat) ++ [0x7C]

/-- Where the compiler is in the text. -/
inductive Place
  | outside
  | inLiteral
  | inEscape
  | inCall (soFar : List Char)

/-- The string of a sequence of string literals and macros, if it is one. -/
def compile (names : Names) : Place → List Char → Option (List UInt8)
  | .outside, [] => some []
  | .outside, c :: s =>
    if c = '"' then compile names .inLiteral s else compile names (.inCall [c]) s
  | .inLiteral, [] => none
  | .inLiteral, c :: s =>
    if c = '"' then compile names .outside s
    else if c = '\\' then compile names .inEscape s
    else if c = '\n' then none
    else (compile names .inLiteral s).map (UInt8.ofNat c.toNat :: ·)
  | .inEscape, [] => none
  | .inEscape, c :: s =>
    (simpleEscape c).bind fun byte => (compile names .inLiteral s).map (byte :: ·)
  | .inCall _, [] => none
  | .inCall soFar, c :: s =>
    if c = ')' then
      (expand names soFar).bind fun bytes => (compile names .outside s).map (bytes ++ ·)
    else compile names (.inCall (soFar ++ [c])) s

/-- The string of {lit}`SEND_STRING`, which needs an argument. -/
def sendStringArgument (names : Names) (text : List Char) : Option (List UInt8) :=
  if text = [] then none else compile names .outside text

/-! ## What the fragments ask for -/

variable (names : Names) (t : Tables) (interval : UInt8)

/-- The act of {lit}`send_string_with_delay` for a key. -/
def KeyAction.act : KeyAction → ℕ → Act
  | .tap, keycode => .tapCode keycode
  | .down, keycode => .registerCode keycode
  | .up, keycode => .unregisterCode keycode

/-- What is done for a key. -/
def keyActs (action : KeyAction) (keycode : List Char) : List Act :=
  [action.act (((names.lookup keycode).getD 0).toNat), .waitMs interval.toNat]

/-- What a fragment asks for: each character is sent once, a beep is sent as its character,
and the last key of a chord is tapped while the others are held. -/
def Fragment.acts : Fragment → List Act
  | .text s => s.flatMap fun c => sendCharWithDelay t (UInt8.ofNat c.toNat) interval
  | .delay duration => [.waitMs duration, .waitMs interval.toNat]
  | .beep => sendCharWithDelay t 7 interval
  | .keys .tap keycodes =>
    match keycodes.getLast? with
    | none => []
    | some keycode =>
      keycodes.dropLast.flatMap (keyActs names interval .down) ++
        keyActs names interval .tap keycode ++
        keycodes.dropLast.reverse.flatMap (keyActs names interval .up)
  | .keys action keycodes => keycodes.flatMap (keyActs names interval action)

/-- Printable characters, new lines and tabs. -/
def IsTextChar (c : Char) : Prop :=
  c = '\n' ∨ c = '\t' ∨ 0x20 ≤ c.toNat ∧ c.toNat ≤ 0x7E

/-- The texts and the names of keycodes that a keymap may hold. -/
def Fragment.Valid : Fragment → Prop
  | .text s => ∀ c ∈ s, IsTextChar c
  | .keys _ keycodes => ∀ keycode ∈ keycodes, (names.lookup keycode).isSome = true
  | .delay _ | .beep => True

end Keymap
end VialQmk
