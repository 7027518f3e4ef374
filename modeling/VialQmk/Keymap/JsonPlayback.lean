import VialQmk.Keymap.JsonItems
import Mathlib.Algebra.BigOperators.Group.List.Basic
import Mathlib.Algebra.Order.BigOperators.Group.List
import Mathlib.Algebra.Order.Group.Nat

/-!
# Keymaps - JSON macros are played as they say

Each fragment of a macro is a sequence of items, and what is sent for an item is what the
fragment asks for.  Its text is an argument of {lit}`SEND_STRING` if its literals are closed, and
if there is any text at all.  A chord has lost its last key where the keymap is used again.

Main results:

- Definition {lit}`Speaks`: the macro asks for something, and no text in it ends in a quote in
  front of a key, a delay, or the end.
- Theorem {lit}`performs_iff`: exactly those macros are played as they say, if an {lit}`int` of the
  firmware holds their durations.
- Theorem {lit}`sameTwice_iff`: exactly the keymaps without chords give the same text twice.
-/

namespace VialQmk
namespace Keymap

open Macro Replace

/-! ## The property -/

/-- The text of the macro is compiled, and what is sent is what the fragments ask for. -/
def Performs (names : Names) (t : Tables) (interval : UInt8) (fragments : List Fragment) : Prop :=
  ∃ bytes, sendStringArgument names (macroText fragments) = some bytes ∧
    sendStringWithDelay t interval none (bytes ++ [0]) =
      fragments.flatMap (Fragment.acts names t interval)

/-- A second run on the same keymap gives the same text. -/
def SameTwice (macros : List (List Fragment)) : Prop :=
  (generateMacrosFunction (generateMacrosFunction macros).2).1 = (generateMacrosFunction macros).1

/-! ## The condition -/

/-- The fragment asks for something. -/
def Fragment.Asks : Fragment → Prop
  | .text s => s ≠ []
  | .keys _ keycodes => keycodes ≠ []
  | .delay _ | .beep => True

/-- An {lit}`int` of the firmware holds the duration. -/
def Fragment.InRange (intMax : ℕ) : Fragment → Prop
  | .delay duration => duration ≤ intMax
  | .text _ | .keys _ _ | .beep => True

/-- Where the last character was a quote, the next thing is text or a beep. -/
def Closed : Bool → List Fragment → Bool
  | afterQuote, [] => !afterQuote
  | afterQuote, .text s :: rest => Closed (endsInQuote afterQuote s) rest
  | _, .beep :: rest => Closed false rest
  | afterQuote, .delay _ :: rest => !afterQuote && Closed false rest
  | afterQuote, .keys _ keycodes :: rest =>
    if keycodes = [] then Closed afterQuote rest else !afterQuote && Closed false rest

/-- The macro asks for something, and no text in it ends in a quote in front of a key, a delay,
or the end. -/
def Speaks (fragments : List Fragment) : Prop :=
  Closed false fragments = true ∧ ∃ fragment ∈ fragments, fragment.Asks

/-! ## Strokes -/

/-- The keys of a fragment in the order of their macros. -/
def strokes (action : KeyAction) (keycodes : List (List Char)) : List (KeyAction × List Char) :=
  match action, keycodes.getLast? with
  | .tap, some keycode =>
    keycodes.dropLast.map (Prod.mk .down) ++ [(.tap, keycode)] ++
      keycodes.dropLast.reverse.map (Prod.mk .up)
  | _, _ => keycodes.map (Prod.mk action)

theorem strokes_chord (held : List (List Char)) (keycode : List Char) :
    strokes .tap (held ++ [keycode]) =
      held.map (Prod.mk .down) ++ [(.tap, keycode)] ++ held.reverse.map (Prod.mk .up) := by
  simp only [strokes, List.getLast?_concat, List.dropLast_concat]

theorem strokes_of_ne_tap {action : KeyAction} (h : action ≠ .tap) (keycodes : List (List Char)) :
    strokes action keycodes = keycodes.map (Prod.mk action) := by
  cases action with
  | tap => exact absurd rfl h
  | down => rfl
  | up => rfl

@[simp]
theorem strokes_nil (action : KeyAction) : strokes action [] = [] := by
  cases action with
  | tap => rfl
  | down => rfl
  | up => rfl

theorem mem_of_mem_strokes {action : KeyAction} {keycodes : List (List Char)}
    {stroke : KeyAction × List Char} (h : stroke ∈ strokes action keycodes) :
    stroke.2 ∈ keycodes := by
  by_cases haction : action = .tap
  · subst haction
    rcases List.eq_nil_or_concat' keycodes with rfl | ⟨held, keycode, rfl⟩
    · exact absurd h (by simp)
    · rw [strokes_chord, List.append_assoc, List.mem_append, List.mem_append] at h
      rw [List.mem_append]
      rcases h with h | h | h
      · obtain ⟨other, hother, rfl⟩ := List.mem_map.mp h
        exact Or.inl hother
      · exact Or.inr (List.mem_singleton.mpr (congrArg Prod.snd (List.mem_singleton.mp h)))
      · obtain ⟨other, hother, rfl⟩ := List.mem_map.mp h
        exact Or.inl (List.mem_reverse.mp hother)
  · rw [strokes_of_ne_tap haction] at h
    obtain ⟨other, hother, rfl⟩ := List.mem_map.mp h
    exact hother

theorem strokes_eq_nil_iff {action : KeyAction} {keycodes : List (List Char)} :
    strokes action keycodes = [] ↔ keycodes = [] := by
  by_cases haction : action = .tap
  · subst haction
    rcases List.eq_nil_or_concat' keycodes with rfl | ⟨held, keycode, rfl⟩
    · simp
    · simp [strokes_chord]
  · rw [strokes_of_ne_tap haction, List.map_eq_nil_iff]

/-- A chord has lost its last key afterwards. -/
theorem fragmentText_chord {held : List (List Char)} (hheld : held ≠ []) (keycode : List Char) :
    fragmentText (.keys .tap (held ++ [keycode])) =
      (held.flatMap (keyText .down) ++ keyText .tap keycode ++
        held.reverse.flatMap (keyText .up), .keys .tap held) := by
  have hlength : (held ++ [keycode]).length > 1 := by
    have hpos := List.length_pos_iff.mpr hheld
    rw [List.length_append, List.length_singleton]
    omega
  simp only [fragmentText, dif_pos hlength, List.getLast_concat, List.dropLast_concat]

/-- The text of keys. -/
theorem fragmentText_keys (action : KeyAction) (keycodes : List (List Char)) :
    (fragmentText (.keys action keycodes)).1 =
      (strokes action keycodes).flatMap fun stroke => keyText stroke.1 stroke.2 := by
  cases action with
  | down => rw [strokes_of_ne_tap (by decide), List.flatMap_map]; rfl
  | up => rw [strokes_of_ne_tap (by decide), List.flatMap_map]; rfl
  | tap =>
    rcases List.eq_nil_or_concat' keycodes with rfl | ⟨held, keycode, rfl⟩
    · rfl
    · by_cases hheld : held = []
      · subst hheld
        rfl
      · rw [strokes_chord, fragmentText_chord hheld, List.flatMap_append, List.flatMap_append,
          List.flatMap_map, List.flatMap_map, List.flatMap_singleton]

/-- What is asked for with keys. -/
theorem acts_keys (names : Names) (t : Tables) (interval : UInt8) (action : KeyAction)
    (keycodes : List (List Char)) :
    (Fragment.keys action keycodes).acts names t interval =
      (strokes action keycodes).flatMap fun stroke =>
        keyActs names interval stroke.1 stroke.2 := by
  cases action with
  | down => rw [strokes_of_ne_tap (by decide), List.flatMap_map]; rfl
  | up => rw [strokes_of_ne_tap (by decide), List.flatMap_map]; rfl
  | tap =>
    rcases List.eq_nil_or_concat' keycodes with rfl | ⟨held, keycode, rfl⟩
    · rfl
    · rw [strokes_chord, List.flatMap_append, List.flatMap_append, List.flatMap_map,
        List.flatMap_map, List.flatMap_singleton]
      simp only [Fragment.acts, List.getLast?_concat, List.dropLast_concat]

/-! ## Items of a fragment -/

/-- The code of a key in a string. -/
def KeyAction.code : KeyAction → UInt8
  | .tap => ssTapCode
  | .down => ssDownCode
  | .up => ssUpCode

/-- The macro of a key with its string. -/
def keyItem (names : Names) (stroke : KeyAction × List Char) : Item :=
  .call (keyText stroke.1 stroke.2)
    [ssQmkPrefix, stroke.1.code, (names.lookup stroke.2).getD 0]

/-- The macro of a delay with its string. -/
def delayItem (duration : ℕ) : Item :=
  .call (delayCall ++ Nat.toDigits 10 duration ++ [')'])
    (ssQmkPrefix :: ssDelayCode ::
      ((Nat.toDigits 10 duration).map fun c => UInt8.ofNat c.toNat) ++ [0x7C])

/-- The items of a fragment. -/
def Fragment.items (names : Names) : Fragment → List Item
  | .text s => [.lit s]
  | .delay duration => [delayItem duration]
  | .beep => [.lit ['\x07']]
  | .keys action keycodes => (strokes action keycodes).map (keyItem names)

/-- The replacements one after the other are one replacement of each character. -/
theorem escapeText_eq {s : List Char} (h : ∀ c ∈ s, IsTextChar c) :
    escapeText s = s.flatMap spell := by
  have hreturn : '\r' ∉ replace ['\\'] ['\\', '\\'] s := by
    rw [replace_singleton]
    intro hmem
    obtain ⟨c, hc, hmem⟩ := List.mem_flatMap.mp hmem
    split_ifs at hmem with hback
    · exact absurd hmem (by decide)
    · have hchar := h c hc
      rw [← List.mem_singleton.mp hmem] at hchar
      exact absurd hchar (by unfold IsTextChar; decide)
  simp only [escapeText, replace_of_notMem hreturn]
  simp only [replace_singleton, List.flatMap_assoc]
  refine List.flatMap_congr fun c hc => ?_
  unfold spell
  split_ifs with hback hnewline htab hquote hbell
  · subst hback
    rfl
  · subst hnewline
    rfl
  · subst htab
    rfl
  · subst hquote
    rfl
  · have hchar := h c hc
    rw [hbell] at hchar
    exact absurd hchar (by unfold IsTextChar; decide)
  · have hnoreturn : c ≠ '\r' := by
      rintro rfl
      exact absurd (h _ hc) (by unfold IsTextChar; decide)
    simp only [List.flatMap_singleton, if_neg hnewline, if_neg hnoreturn, if_neg htab,
      if_neg hquote]

/-- The text of a fragment is the one of its items. -/
theorem fragmentText_eq (names : Names) {fragment : Fragment} (h : fragment.Valid names) :
    (fragmentText fragment).1 = (fragment.items names).flatMap Item.text := by
  cases fragment with
  | text s =>
    have hspell := escapeText_eq h
    simp only [fragmentText, Fragment.items, List.flatMap_singleton, Item.text, hspell,
      List.cons_append]
  | delay duration =>
    rw [Fragment.items, List.flatMap_singleton]
    rfl
  | beep => rfl
  | keys action keycodes =>
    rw [fragmentText_keys, Fragment.items, List.flatMap_map]
    rfl

/-! ## Macros of the items -/

theorem afterCall_append (call s : List Char) : afterCall call (call ++ s) = some s := by
  unfold afterCall
  rw [if_pos (List.prefix_append call s), List.drop_left]

/-- A macro is read up to its closing parenthesis. -/
theorem compile_inCall (names : Names) {text : List Char} (h : ')' ∉ text)
    (soFar s : List Char) :
    compile names (.inCall soFar) (text ++ ')' :: s) =
      (expand names (soFar ++ text)).bind fun bytes =>
        (compile names .outside s).map (bytes ++ ·) := by
  induction text generalizing soFar with
  | nil =>
    rw [List.append_nil]
    rfl
  | cons c text ih =>
    rw [List.mem_cons, not_or] at h
    have hstep : compile names (.inCall soFar) (c :: text ++ ')' :: s) =
        compile names (.inCall (soFar ++ [c])) (text ++ ')' :: s) := if_neg (Ne.symm h.1)
    rw [hstep, ih h.2, List.append_assoc, List.singleton_append]

/-- A macro that the preprocessor knows. -/
theorem ok_call {names : Names} {text : List Char} {bytes : List UInt8} (hclose : ')' ∉ text)
    (hquote : '"' ∉ text) (hname : ∃ rest, text = 'S' :: rest) (hbytes : bytes ≠ [])
    (hexpand : expand names text = some bytes) :
    (Item.call (text ++ [')']) bytes).Ok names := by
  obtain ⟨rest, rfl⟩ := hname
  refine ⟨⟨rest ++ [')'], rfl⟩, ?_, hbytes, fun s => ?_⟩
  · rw [List.mem_append, not_or]
    exact ⟨hquote, by decide⟩
  · have hrest : ')' ∉ rest := fun hmem => hclose (List.mem_cons_of_mem 'S' hmem)
    have hcall := compile_inCall names hrest ['S'] s
    rw [List.singleton_append, hexpand] at hcall
    rw [List.append_assoc]
    exact hcall

theorem expand_keyText (names : Names) (action : KeyAction) (keycode : List Char) :
    expand names (action.call ++ keycode) =
      (names.lookup keycode).map fun key => [ssQmkPrefix, action.code, key] := by
  cases action with
  | tap => simp only [expand, afterCall_append, KeyAction.code]
  | down =>
    have htap : afterCall (KeyAction.call .tap) (KeyAction.call .down ++ keycode) = none := by
      simp [afterCall, KeyAction.call]
    simp only [expand, htap, afterCall_append, KeyAction.code]
  | up =>
    have htap : afterCall (KeyAction.call .tap) (KeyAction.call .up ++ keycode) = none := by
      simp [afterCall, KeyAction.call]
    have hdown : afterCall (KeyAction.call .down) (KeyAction.call .up ++ keycode) = none := by
      simp [afterCall, KeyAction.call]
    simp only [expand, htap, hdown, afterCall_append, KeyAction.code]

theorem expand_delay (names : Names) (digits : List Char) :
    expand names (delayCall ++ digits) =
      some (ssQmkPrefix :: ssDelayCode :: (digits.map fun c => UInt8.ofNat c.toNat) ++ [0x7C]) := by
  have htap : afterCall (KeyAction.call .tap) (delayCall ++ digits) = none := by
    simp [afterCall, KeyAction.call, delayCall]
  have hdown : afterCall (KeyAction.call .down) (delayCall ++ digits) = none := by
    simp [afterCall, KeyAction.call, delayCall]
  have hup : afterCall (KeyAction.call .up) (delayCall ++ digits) = none := by
    simp [afterCall, KeyAction.call, delayCall]
  simp only [expand, htap, hdown, hup, afterCall_append, Option.map_some]

theorem notMem_call (action : KeyAction) : ')' ∉ action.call ∧ '"' ∉ action.call := by
  cases action with
  | tap => decide
  | down => decide
  | up => decide

theorem ok_keyItem {names : Names} {stroke : KeyAction × List Char}
    (h : (names.lookup stroke.2).isSome = true) : (keyItem names stroke).Ok names := by
  obtain ⟨action, keycode⟩ := stroke
  obtain ⟨key, hkey⟩ := Option.isSome_iff_exists.mp h
  obtain ⟨hquote, hclose⟩ := names.plain keycode key hkey
  have hbytes : (names.lookup keycode).getD 0 = key := by rw [hkey, Option.getD_some]
  have hexpand := expand_keyText names action keycode
  rw [hkey, Option.map_some, ← hbytes] at hexpand
  refine ok_call ?_ ?_ ?_ (List.cons_ne_nil _ _) hexpand
  · rw [List.mem_append, not_or]
    exact ⟨(notMem_call action).1, hclose⟩
  · rw [List.mem_append, not_or]
    exact ⟨(notMem_call action).2, hquote⟩
  · cases action with
    | tap => exact ⟨_, rfl⟩
    | down => exact ⟨_, rfl⟩
    | up => exact ⟨_, rfl⟩

theorem isDigit_of_mem {duration : ℕ} {c : Char} (h : c ∈ Nat.toDigits 10 duration) :
    c.isDigit = true :=
  Nat.isDigit_of_mem_toDigits (by decide) (by decide) h

theorem ok_delayItem (names : Names) (duration : ℕ) : (delayItem duration).Ok names := by
  refine ok_call ?_ ?_ ⟨_, rfl⟩ (List.cons_ne_nil _ _) (expand_delay names _)
  · rw [List.mem_append, not_or]
    exact ⟨by decide, fun hmem => absurd (isDigit_of_mem hmem) (by decide)⟩
  · rw [List.mem_append, not_or]
    exact ⟨by decide, fun hmem => absurd (isDigit_of_mem hmem) (by decide)⟩

/-- The items of a fragment are compiled. -/
theorem ok_of_mem_items {names : Names} {fragment : Fragment} (h : fragment.Valid names)
    {item : Item} (hitem : item ∈ fragment.items names) : item.Ok names := by
  cases fragment with
  | text s =>
    obtain rfl := List.mem_singleton.mp hitem
    exact fun c hc => Or.inr (h c hc)
  | delay duration =>
    obtain rfl := List.mem_singleton.mp hitem
    exact ok_delayItem names duration
  | beep =>
    obtain rfl := List.mem_singleton.mp hitem
    exact fun c hc => Or.inl (List.mem_singleton.mp hc)
  | keys action keycodes =>
    obtain ⟨stroke, hstroke, rfl⟩ := List.mem_map.mp hitem
    exact ok_keyItem (h stroke.2 (mem_of_mem_strokes hstroke))

/-! ## Text of the items -/

section Items

variable {names : Names} {fragments : List Fragment}

/-- The items of a macro. -/
def macroItems (names : Names) (fragments : List Fragment) : List Item :=
  fragments.flatMap (Fragment.items names)

theorem macroText_eq (h : ∀ fragment ∈ fragments, fragment.Valid names) :
    macroText fragments = unquote ((macroItems names fragments).flatMap Item.text) := by
  unfold macroText macroItems
  rw [List.flatMap_assoc]
  refine congrArg unquote (List.flatMap_congr fun fragment hfragment => ?_)
  exact fragmentText_eq names (h fragment hfragment)

theorem ok_of_mem_macroItems (h : ∀ fragment ∈ fragments, fragment.Valid names) :
    ∀ item ∈ macroItems names fragments, item.Ok names := by
  intro item hitem
  obtain ⟨fragment, hfragment, hitem⟩ := List.mem_flatMap.mp hitem
  exact ok_of_mem_items (h fragment hfragment) hitem

/-- Keys are closed where nothing ends in a quote in front of them. -/
theorem closes_keys (names : Names) (afterQuote : Bool) (stroked : List (KeyAction × List Char))
    (rest : List Item) :
    closes afterQuote (stroked.map (keyItem names) ++ rest) =
      if stroked = [] then closes afterQuote rest else !afterQuote && closes false rest := by
  induction stroked generalizing afterQuote with
  | nil => rfl
  | cons stroke stroked ih =>
    have hstep : closes afterQuote ((stroke :: stroked).map (keyItem names) ++ rest) =
        (!afterQuote && closes false (stroked.map (keyItem names) ++ rest)) := rfl
    rw [hstep, ih, if_neg (List.cons_ne_nil stroke stroked)]
    split_ifs <;> rfl

/-- The literals of a macro are closed where its texts are. -/
theorem closes_macroItems (names : Names) (afterQuote : Bool) (fragments : List Fragment) :
    closes afterQuote (macroItems names fragments) = Closed afterQuote fragments := by
  induction fragments generalizing afterQuote with
  | nil => rfl
  | cons fragment fragments ih =>
    cases fragment with
    | text s => exact ih _
    | delay duration => exact congrArg (!afterQuote && ·) (ih false)
    | beep => exact ih false
    | keys action keycodes =>
      have hkeys := closes_keys names afterQuote (strokes action keycodes)
        (macroItems names fragments)
      simp only [strokes_eq_nil_iff, ih] at hkeys
      exact hkeys

/-- The text of a macro is compiled if its texts are closed, and not else. -/
theorem compile_macroText (h : ∀ fragment ∈ fragments, fragment.Valid names) :
    compile names .outside (macroText fragments) =
      if Closed false fragments
      then some ((macroItems names fragments).flatMap Item.bytes) else none := by
  rw [macroText_eq h, (compile_items (ok_of_mem_macroItems h)).1, closes_macroItems]

/-- A fragment that asks for something is compiled to something. -/
theorem exists_bytes (names : Names) {fragment : Fragment} (hasks : fragment.Asks) :
    ∃ item ∈ fragment.items names, item.bytes ≠ [] := by
  cases fragment with
  | text s =>
    exact ⟨_, List.mem_singleton_self _, fun hnil => hasks (List.map_eq_nil_iff.mp hnil)⟩
  | delay duration => exact ⟨_, List.mem_singleton_self _, List.cons_ne_nil _ _⟩
  | beep => exact ⟨_, List.mem_singleton_self _, List.cons_ne_nil _ _⟩
  | keys action keycodes =>
    have hstrokes : strokes action keycodes ≠ [] := fun hnil => hasks (strokes_eq_nil_iff.mp hnil)
    obtain ⟨stroke, hstroke⟩ := List.exists_mem_of_ne_nil _ hstrokes
    exact ⟨_, List.mem_map_of_mem hstroke, List.cons_ne_nil _ _⟩

/-- Fragments that ask for nothing have no text. -/
theorem macroText_eq_nil (h : ∀ fragment ∈ fragments, ¬ fragment.Asks) :
    macroText fragments = [] := by
  induction fragments with
  | nil => rfl
  | cons fragment fragments ih =>
    have hrest := ih fun other hother => h other (List.mem_cons_of_mem fragment hother)
    have hasks := h fragment List.mem_cons_self
    cases fragment with
    | text s =>
      obtain rfl := not_not.mp hasks
      exact (replace_pair_same (s := fragments.flatMap fun other => (fragmentText other).1)).trans
        hrest
    | delay duration => exact absurd trivial hasks
    | beep => exact absurd trivial hasks
    | keys action keycodes =>
      obtain rfl := not_not.mp hasks
      cases action with
      | tap => exact hrest
      | down => exact hrest
      | up => exact hrest

/-- There is an argument just for macros that speak. -/
theorem sendStringArgument_macroText (h : ∀ fragment ∈ fragments, fragment.Valid names) :
    (Speaks fragments → sendStringArgument names (macroText fragments) =
        some ((macroItems names fragments).flatMap Item.bytes)) ∧
      (¬ Speaks fragments → sendStringArgument names (macroText fragments) = none) := by
  have hcompile := compile_macroText h
  unfold sendStringArgument
  refine ⟨fun ⟨hclosed, fragment, hfragment, hasks⟩ => ?_, fun hspeaks => ?_⟩
  · rw [if_pos hclosed] at hcompile
    rw [if_neg, hcompile]
    intro hnil
    rw [hnil] at hcompile
    obtain ⟨item, hitem, hbytes⟩ := exists_bytes names hasks
    have hempty := Option.some.inj hcompile
    have hmem : item ∈ macroItems names fragments :=
      List.mem_flatMap.mpr ⟨fragment, hfragment, hitem⟩
    exact hbytes (List.flatMap_eq_nil_iff.mp hempty.symm item hmem)
  · by_cases hasks : ∃ fragment ∈ fragments, fragment.Asks
    · have hclosed : ¬ Closed false fragments = true := fun hclosed => hspeaks ⟨hclosed, hasks⟩
      rw [hcompile, if_neg hclosed, ite_self]
    · push Not at hasks
      rw [if_pos (macroText_eq_nil hasks)]

end Items

/-! ## Playing -/

section Playing

variable {names : Names} {t : Tables} {interval : UInt8}

theorem toNat_ofNat_of_lt {c : Char} (h : c.toNat < 256) :
    (UInt8.ofNat c.toNat).toNat = c.toNat := by
  rw [UInt8.toNat_ofNat', Nat.mod_eq_of_lt h]

/-- A character is sent. -/
theorem sendStringWithDelay_char {asciiCode : UInt8} (hnul : asciiCode ≠ 0)
    (hmark : asciiCode ≠ ssQmkPrefix) (rest : List UInt8) :
    sendStringWithDelay t interval none (asciiCode :: rest) =
      sendCharWithDelay t asciiCode interval ++ sendStringWithDelay t interval none rest := by
  rw [sendStringWithDelay.eq_def]
  simp only [if_neg hnul, if_neg hmark]

theorem sendStringWithDelay_text {s : List Char} (h : ∀ c ∈ s, IsTextChar c) (rest : List UInt8) :
    sendStringWithDelay t interval none ((s.map fun c => UInt8.ofNat c.toNat) ++ rest) =
      (s.flatMap fun c => sendCharWithDelay t (UInt8.ofNat c.toNat) interval) ++
        sendStringWithDelay t interval none rest := by
  induction s with
  | nil => rfl
  | cons c s ih =>
    have hchar : 9 ≤ c.toNat ∧ c.toNat ≤ 0x7E := by
      rcases h c List.mem_cons_self with rfl | rfl | hprintable
      · decide
      · decide
      · omega
    have hsmall : UInt8.ofNat c.toNat ≠ 0 ∧ UInt8.ofNat c.toNat ≠ ssQmkPrefix := by
      have htoNat := toNat_ofNat_of_lt (c := c) (by omega)
      constructor
      · intro hnul
        rw [hnul] at htoNat
        exact absurd htoNat (by simp; omega)
      · intro hmark
        rw [hmark] at htoNat
        exact absurd htoNat (by simp [ssQmkPrefix]; omega)
    rw [List.map_cons, List.cons_append, sendStringWithDelay_char hsmall.1 hsmall.2,
      ih fun other hother => h other (List.mem_cons_of_mem c hother), List.flatMap_cons,
      List.append_assoc]

/-- A key is sent. -/
theorem sendStringWithDelay_key (action : KeyAction) (keycode : UInt8) (rest : List UInt8) :
    sendStringWithDelay t interval none (ssQmkPrefix :: action.code :: keycode :: rest) =
      action.act keycode.toNat :: .waitMs interval.toNat ::
        sendStringWithDelay t interval none rest := by
  cases action with
  | tap => rfl
  | down => rfl
  | up => rfl

/-- The digits of a delay are read up to the byte behind them. -/
theorem sendStringWithDelay_digits {digits : List Char} (h : ∀ c ∈ digits, c.isDigit = true)
    (ms : ℕ) (rest : List UInt8) :
    sendStringWithDelay t interval (some ms)
        ((digits.map fun c => UInt8.ofNat c.toNat) ++ 0x7C :: rest) =
      delayAct t (Nat.ofDigitChars 10 digits ms) :: .waitMs interval.toNat ::
        sendStringWithDelay t interval none rest := by
  induction digits generalizing ms with
  | nil => rfl
  | cons c digits ih =>
    have hbounds : 48 ≤ c.toNat ∧ c.toNat ≤ 57 :=
      Char.isDigit_iff_toNat.mp (h c List.mem_cons_self)
    have htoNat := toNat_ofNat_of_lt (c := c) (by omega)
    have hdigit : isDigit (UInt8.ofNat c.toNat) = true := by
      unfold isDigit
      rw [Bool.and_eq_true, decide_eq_true_eq, decide_eq_true_eq, UInt8.le_iff_toNat_le,
        UInt8.le_iff_toNat_le, htoNat]
      exact hbounds
    rw [List.map_cons, List.cons_append, sendStringWithDelay, if_pos hdigit, htoNat,
      ih fun other hother => h other (List.mem_cons_of_mem c hother), Nat.ofDigitChars_cons,
      Nat.mul_comm ms 10]
    rfl

/-- What is done for a fragment: a delay can be too long for an {lit}`int`. -/
def Fragment.played (names : Names) (t : Tables) (interval : UInt8) : Fragment → List Act
  | .delay duration => [delayAct t duration, .waitMs interval.toNat]
  | .text s => (Fragment.text s).acts names t interval
  | .keys action keycodes => (Fragment.keys action keycodes).acts names t interval
  | .beep => Fragment.beep.acts names t interval

theorem length_played (fragment : Fragment) :
    (fragment.played names t interval).length = (fragment.acts names t interval).length := by
  cases fragment with
  | text s => rfl
  | delay duration => rfl
  | beep => rfl
  | keys action keycodes => rfl

/-- It is what the fragment asks for just if the duration is in range. -/
theorem played_eq_acts_iff (names : Names) (interval : UInt8) (fragment : Fragment) :
    fragment.played names t interval = fragment.acts names t interval ↔
      fragment.InRange t.intMax := by
  cases fragment with
  | text s => exact iff_of_true rfl trivial
  | beep => exact iff_of_true rfl trivial
  | keys action keycodes => exact iff_of_true rfl trivial
  | delay duration =>
    simp only [Fragment.played, Fragment.acts, List.cons.injEq, and_true, delayAct,
      Fragment.InRange]
    split_ifs with hrange
    · exact iff_of_true rfl hrange
    · exact iff_of_false (by simp) hrange

/-- What is done for a macro is what it asks for just if its durations are in range. -/
theorem flatMap_played_iff (names : Names) (interval : UInt8) (fragments : List Fragment) :
    fragments.flatMap (Fragment.played names t interval) =
        fragments.flatMap (Fragment.acts names t interval) ↔
      ∀ fragment ∈ fragments, fragment.InRange t.intMax := by
  induction fragments with
  | nil => simp
  | cons fragment fragments ih =>
    rw [List.flatMap_cons, List.flatMap_cons, List.forall_mem_cons, ← ih,
      ← played_eq_acts_iff names interval]
    exact ⟨fun hplayed => List.append_inj hplayed (length_played fragment),
      fun ⟨hfirst, hrest⟩ => congrArg₂ (· ++ ·) hfirst hrest⟩

/-- What is sent for a fragment. -/
theorem sendStringWithDelay_fragment {fragment : Fragment} (h : fragment.Valid names)
    (rest : List UInt8) :
    sendStringWithDelay t interval none ((fragment.items names).flatMap Item.bytes ++ rest) =
      fragment.played names t interval ++ sendStringWithDelay t interval none rest := by
  cases fragment with
  | text s =>
    rw [Fragment.items, List.flatMap_singleton]
    exact sendStringWithDelay_text h rest
  | delay duration =>
    have hbytes : (delayItem duration).bytes ++ rest =
        ssQmkPrefix :: ssDelayCode ::
          (((Nat.toDigits 10 duration).map fun c => UInt8.ofNat c.toNat) ++ 0x7C :: rest) := by
      simp only [delayItem, Item.bytes, List.cons_append, List.append_assoc, List.nil_append]
    rw [Fragment.items, List.flatMap_singleton, hbytes]
    have hcode : ∀ string, sendStringWithDelay t interval none
        (ssQmkPrefix :: ssDelayCode :: string) =
        sendStringWithDelay t interval (some 0) string := fun string => by
      rw [sendStringWithDelay.eq_def]
      rfl
    rw [hcode, sendStringWithDelay_digits (fun c hc => isDigit_of_mem hc),
      Nat.ofDigitChars_ten_toDigits]
    rfl
  | beep =>
    exact sendStringWithDelay_char (by decide) (by decide) rest
  | keys action keycodes =>
    rw [Fragment.played, acts_keys, Fragment.items, List.flatMap_map]
    generalize strokes action keycodes = stroked
    induction stroked with
    | nil => rfl
    | cons stroke stroked ih =>
      rw [List.flatMap_cons, List.flatMap_cons, List.append_assoc, List.append_assoc, ← ih]
      exact sendStringWithDelay_key stroke.1 _ _

/-- What is sent for a macro. -/
theorem sendStringWithDelay_macroItems {fragments : List Fragment}
    (h : ∀ fragment ∈ fragments, fragment.Valid names) :
    sendStringWithDelay t interval none
        ((macroItems names fragments).flatMap Item.bytes ++ [0]) =
      fragments.flatMap (Fragment.played names t interval) := by
  induction fragments with
  | nil => rfl
  | cons fragment fragments ih =>
    have hitems : macroItems names (fragment :: fragments) =
        fragment.items names ++ macroItems names fragments := rfl
    rw [hitems, List.flatMap_append, List.append_assoc,
      sendStringWithDelay_fragment (h fragment List.mem_cons_self),
      ih fun other hother => h other (List.mem_cons_of_mem fragment hother), List.flatMap_cons]

/-- Exactly the macros that speak, with durations in range, are played as they say. -/
theorem performs_iff {fragments : List Fragment}
    (h : ∀ fragment ∈ fragments, fragment.Valid names) :
    Performs names t interval fragments ↔
      Speaks fragments ∧ ∀ fragment ∈ fragments, fragment.InRange t.intMax := by
  obtain ⟨hspeaks, hmute⟩ := sendStringArgument_macroText h
  rw [← flatMap_played_iff names interval,
    ← sendStringWithDelay_macroItems h]
  by_cases hfragments : Speaks fragments
  · have hbytes := hspeaks hfragments
    constructor
    · rintro ⟨bytes, hbytes', hplayed⟩
      obtain rfl := Option.some.inj (hbytes.symm.trans hbytes')
      exact ⟨hfragments, hplayed⟩
    · exact fun ⟨_, hplayed⟩ => ⟨_, hbytes, hplayed⟩
  · refine iff_of_false (fun ⟨bytes, hbytes, _⟩ => ?_) fun ⟨hspeak, _⟩ => hfragments hspeak
    rw [hmute hfragments] at hbytes
    exact absurd hbytes (Option.some_ne_none bytes).symm

end Playing

/-! ## A second run -/

/-- The opening parentheses of some keys. -/
def parens (keycodes : List (List Char)) : ℕ :=
  (keycodes.map fun keycode => keycode.count '(' + 1).sum

theorem count_keyText (action : KeyAction) (keycode : List Char) :
    (keyText action keycode).count '(' = keycode.count '(' + 1 := by
  have hcall : action.call.count '(' = 1 := by
    cases action with
    | tap => decide
    | down => decide
    | up => decide
  have hclose : [')'].count '(' = 0 := by decide
  rw [keyText, List.count_append, List.count_append]
  omega

theorem count_keys (action : KeyAction) (keycodes : List (List Char)) :
    (keycodes.flatMap (keyText action)).count '(' = parens keycodes := by
  rw [List.count_flatMap]
  refine congrArg List.sum (List.map_congr_left fun keycode _ => ?_)
  exact count_keyText action keycode

/-- In a chord each held key has two macros. -/
theorem count_chord {held : List (List Char)} (hheld : held ≠ []) (keycode : List Char) :
    (fragmentText (.keys .tap (held ++ [keycode]))).1.count '(' =
      2 * parens held + (keycode.count '(' + 1) := by
  have hreverse : parens held.reverse = parens held := by
    unfold parens
    rw [List.map_reverse, List.sum_reverse]
  rw [fragmentText_chord hheld, List.count_append, List.count_append, count_keys, count_keys,
    count_keyText, hreverse]
  omega

theorem count_tap_le (keycodes : List (List Char)) :
    (fragmentText (.keys .tap keycodes)).1.count '(' ≤ 2 * parens keycodes := by
  rcases List.eq_nil_or_concat' keycodes with rfl | ⟨held, keycode, rfl⟩
  · exact Nat.zero_le _
  · have hparens : parens (held ++ [keycode]) = parens held + (keycode.count '(' + 1) := by
      unfold parens
      rw [List.map_append, List.sum_append, List.map_singleton, List.sum_singleton]
    by_cases hheld : held = []
    · subst hheld
      have hsingle : (fragmentText (.keys .tap ([] ++ [keycode]))).1 =
          [keycode].flatMap (keyText .tap) := rfl
      rw [hsingle, count_keys, List.nil_append]
      omega
    · rw [count_chord hheld, hparens]
      omega

/-- A chord has fewer macros the second time. -/
theorem count_chord_lt {fragment : Fragment} (h : fragment.IsChord) :
    (fragmentText (fragmentText fragment).2).1.count '(' <
      (fragmentText fragment).1.count '(' := by
  match fragment, h with
  | .keys .tap keycodes, h =>
    rcases List.eq_nil_or_concat' keycodes with rfl | ⟨held, keycode, rfl⟩
    · exact absurd h (by decide)
    · have hheld : held ≠ [] := by
        rintro rfl
        exact absurd h (by simp [Fragment.IsChord])
      have hle := count_tap_le held
      have hrest : (fragmentText (.keys .tap (held ++ [keycode]))).2 = .keys .tap held :=
        congrArg Prod.snd (fragmentText_chord hheld keycode)
      rw [count_chord hheld, hrest]
      omega

/-- What is no chord is left as it is. -/
theorem fragmentText_of_not_chord {fragment : Fragment} (h : ¬ fragment.IsChord) :
    (fragmentText fragment).2 = fragment := by
  match fragment, h with
  | .text _, _ | .delay _, _ | .beep, _ | .keys .down _, _ | .keys .up _, _ => rfl
  | .keys .tap keycodes, h =>
    have hlength : ¬ keycodes.length > 1 := h
    rw [fragmentText, dif_neg hlength]

theorem count_macroText (fragments : List Fragment) :
    (macroText fragments).count '(' =
      (fragments.map fun fragment => (fragmentText fragment).1.count '(').sum := by
  rw [macroText, count_replace_pair (by decide), List.count_flatMap]
  rfl

/-- The text of a macro is the same the second time just if it has no chord. -/
theorem macroText_macroRest_iff (fragments : List Fragment) :
    macroText (macroRest fragments) = macroText fragments ↔
      ∀ fragment ∈ fragments, ¬ fragment.IsChord := by
  constructor
  · intro hsame fragment hfragment hchord
    have hcount := congrArg (List.count '(') hsame
    rw [count_macroText, count_macroText, macroRest, List.map_map] at hcount
    refine absurd hcount (ne_of_lt (List.sum_lt_sum _ _ (fun other hother => ?_)
      ⟨fragment, hfragment, count_chord_lt hchord⟩))
    by_cases hother : other.IsChord
    · exact (count_chord_lt hother).le
    · exact (congrArg (fun rest => (fragmentText rest).1.count '(')
        (fragmentText_of_not_chord hother)).le
  · intro hplain
    have hrest : macroRest fragments = fragments :=
      (List.map_congr_left fun fragment hfragment =>
        fragmentText_of_not_chord (hplain fragment hfragment)).trans (List.map_id fragments)
    rw [hrest]

theorem macroLines_inj {i : ℕ} {newMacro newMacro' : List Char} :
    macroLines i newMacro = macroLines i newMacro' ↔ newMacro = newMacro' := by
  simp only [macroLines, List.cons.injEq, String.append_left_inj, String.append_right_inj,
    String.ofList_inj, true_and, and_true]

/-- The lines of the macros are the same just if their texts are. -/
theorem lines_eq_iff (macros : List (List Fragment)) (i : ℕ) :
    (((macros.map macroRest).zipIdx i).flatMap fun (fragments, i) =>
          macroLines i (macroText fragments)) =
        ((macros.zipIdx i).flatMap fun (fragments, i) => macroLines i (macroText fragments)) ↔
      ∀ fragments ∈ macros, macroText (macroRest fragments) = macroText fragments := by
  induction macros generalizing i with
  | nil => simp
  | cons fragments macros ih =>
    rw [List.map_cons, List.zipIdx_cons, List.zipIdx_cons, List.flatMap_cons, List.flatMap_cons,
      List.forall_mem_cons, ← ih (i + 1), ← macroLines_inj (i := i)]
    exact ⟨fun hlines => List.append_inj hlines rfl, fun ⟨hlines, hrest⟩ =>
      congrArg₂ (· ++ ·) hlines hrest⟩

/-- The lines are the same the second time just if there are no chords. -/
theorem sameTwice_iff (macros : List (List Fragment)) :
    SameTwice macros ↔ ∀ fragments ∈ macros, ∀ fragment ∈ fragments, ¬ fragment.IsChord := by
  unfold SameTwice generateMacrosFunction
  rw [List.append_cancel_right_eq, List.append_cancel_left_eq, lines_eq_iff]
  simp only [macroText_macroRest_iff]

/-! ## Keymaps -/

variable (names : Names) (t : Tables) (interval : UInt8)

/-- Exactly those keymaps are played as they say, and generated twice with the same text, whose
macros speak and have durations in range and no chord. -/
theorem generates_iff (macros : List (List Fragment))
    (hvalid : ∀ fragments ∈ macros, ∀ fragment ∈ fragments, fragment.Valid names) :
    ((∀ fragments ∈ macros, Performs names t interval fragments) ∧ SameTwice macros) ↔
      (∀ fragments ∈ macros,
          Speaks fragments ∧ ∀ fragment ∈ fragments, fragment.InRange t.intMax) ∧
        ∀ fragments ∈ macros, ∀ fragment ∈ fragments, ¬ fragment.IsChord := by
  rw [sameTwice_iff]
  refine and_congr_left fun _ => forall₂_congr fun fragments hfragments => ?_
  exact performs_iff (hvalid fragments hfragments)

/-- {lit}`X_A` and {lit}`X_LEFT_SHIFT` -/
def someNames : Names where
  lookup name :=
    if name = ['A'] then some 0x04
    else if name = ['L', 'E', 'F', 'T', '_', 'S', 'H', 'I', 'F', 'T'] then some 0xE1
    else none
  plain := by
    intro name keycode h
    split_ifs at h with hletter hshift
    · subst hletter
      decide
    · subst hshift
      decide

/-- A backslash, quotes that are followed by text, a tap, a delay and a beep. -/
def someMacros : List (List Fragment) :=
  [[.text ['\\', '"', 'a', '"'], .text ['b', '\n'], .keys .tap [['A']], .delay 250], [.beep]]

theorem valid_someMacros :
    ∀ fragments ∈ someMacros, ∀ fragment ∈ fragments, fragment.Valid someNames := by
  simp [someMacros, Fragment.Valid, IsTextChar, someNames]

theorem generates_someMacros :
    (∀ fragments ∈ someMacros, Performs someNames defaultTables 10 fragments) ∧
      SameTwice someMacros :=
  (generates_iff someNames defaultTables 10 someMacros valid_someMacros).mpr
    ⟨by simp [someMacros, Speaks, Closed, endsInQuote, Fragment.Asks, Fragment.InRange,
        defaultTables], by decide⟩

/-- A text that ends in a quote has no closing quote, and a chord is not the same twice. -/
theorem not_generates :
    ((Fragment.text ['s', 'a', 'y', ' ', '"', 'h', 'i', '"']).Valid someNames ∧
        ¬ Performs someNames defaultTables 10 [.text ['s', 'a', 'y', ' ', '"', 'h', 'i', '"']]) ∧
      (Fragment.keys .tap [['L', 'E', 'F', 'T', '_', 'S', 'H', 'I', 'F', 'T'], ['A']]).Valid
          someNames ∧
        ¬ SameTwice
          [[.keys .tap [['L', 'E', 'F', 'T', '_', 'S', 'H', 'I', 'F', 'T'], ['A']]]] := by
  refine ⟨⟨by simp [Fragment.Valid, IsTextChar], ?_⟩, by simp [Fragment.Valid, someNames], ?_⟩
  · rintro ⟨bytes, hbytes, -⟩
    have hnone : sendStringArgument someNames
        (macroText [.text ['s', 'a', 'y', ' ', '"', 'h', 'i', '"']]) = none := by
      decide
    exact absurd hbytes (by rw [hnone]; exact (Option.some_ne_none bytes).symm)
  · rw [sameTwice_iff]
    decide

end Keymap
end VialQmk
