import VialQmk.Keymap.JsonMacros

/-!
# Keymaps - the items of a macro

The text of a macro is a sequence of items: literals, and macros for keys and delays.  Taking
out two quotes in a row joins literals that meet.  Behind a literal that ends in an escaped quote
the closing quote is lost; the next literal gives it back, but nothing else does.

Main results:

- Definition {lit}`closes`: no literal ends in a quote in front of a macro, or the end.
- Theorem {lit}`compile_items`: what is compiled of the text of a sequence of items.
-/

namespace VialQmk
namespace Keymap

open Macro Replace

/-! ## Items -/

/-- A literal, or a macro with the string it stands for. -/
inductive Item
  | lit (chars : List Char)
  | call (text : List Char) (bytes : List UInt8)

/-- A character in a literal. -/
def spell (c : Char) : List Char :=
  if c = '\\' then ['\\', '\\']
  else if c = '\n' then ['\\', 'n']
  else if c = '\t' then ['\\', 't']
  else if c = '"' then ['\\', '"']
  else if c = '\x07' then ['\\', 'a']
  else [c]

namespace Item

def text : Item → List Char
  | lit chars => '"' :: (chars.flatMap spell ++ ['"'])
  | call text _ => text

def bytes : Item → List UInt8
  | lit chars => chars.map fun c => UInt8.ofNat c.toNat
  | call _ bytes => bytes

/-- A literal has characters that can be written in one; a macro begins with its name, has no
quote, and is compiled to its string. -/
def Ok (names : Names) : Item → Prop
  | lit chars => ∀ c ∈ chars, c = '\x07' ∨ IsTextChar c
  | call text bytes =>
    (∃ rest, text = 'S' :: rest) ∧ '"' ∉ text ∧ bytes ≠ [] ∧
      ∀ s, compile names .outside (text ++ s) =
        (compile names .outside s).map (bytes ++ ·)

end Item

/-- The last character is a quote; of no characters it is the one before. -/
def endsInQuote (before : Bool) (chars : List Char) : Bool :=
  chars.foldl (fun _ c => decide (c = '"')) before

/-- No literal that ends in a quote stands in front of a macro or the end; of a literal without
characters this is said of the one before. -/
def closes : Bool → List Item → Bool
  | afterQuote, [] => !afterQuote
  | afterQuote, .lit chars :: rest => closes (endsInQuote afterQuote chars) rest
  | afterQuote, .call _ _ :: rest => !afterQuote && closes false rest

/-! ## Literals -/

section Compile

variable {names : Names}

/-- Two quotes in a row are taken out. -/
def unquote (s : List Char) : List Char :=
  replace ['"', '"'] [] s

theorem unquote_quote_cons {c : Char} (h : c ≠ '"') (s : List Char) :
    unquote ('"' :: c :: s) = '"' :: unquote (c :: s) := by
  unfold unquote
  rw [replace_pair_ne h, replace_cons_of_ne h]

/-- No character is spelled with a quote in front. -/
theorem spell_head (c : Char) : ∃ first rest, spell c = first :: rest ∧ first ≠ '"' := by
  unfold spell
  split_ifs with hback hnewline htab hquote hbell
  · exact ⟨_, _, rfl, by decide⟩
  · exact ⟨_, _, rfl, by decide⟩
  · exact ⟨_, _, rfl, by decide⟩
  · exact ⟨_, _, rfl, by decide⟩
  · exact ⟨_, _, rfl, by decide⟩
  · exact ⟨c, [], rfl, hquote⟩

theorem unquote_quote_spell (c : Char) (s : List Char) :
    unquote ('"' :: (spell c ++ s)) = '"' :: unquote (spell c ++ s) := by
  obtain ⟨first, rest, hspell, hfirst⟩ := spell_head c
  rw [hspell]
  exact unquote_quote_cons hfirst (rest ++ s)

/-- A character that is no quote is spelled without one, and compiled. -/
theorem compile_spell (names : Names) {c : Char} (hquote : c ≠ '"') :
    '"' ∉ spell c ∧ ∀ s, compile names .inLiteral (spell c ++ s) =
      (compile names .inLiteral s).map (UInt8.ofNat c.toNat :: ·) := by
  unfold spell
  split_ifs with hback hnewline htab hbell
  · subst hback
    exact ⟨by decide, fun s => rfl⟩
  · subst hnewline
    exact ⟨by decide, fun s => rfl⟩
  · subst htab
    exact ⟨by decide, fun s => rfl⟩
  · subst hbell
    exact ⟨by decide, fun s => rfl⟩
  · refine ⟨by simpa using Ne.symm hquote, fun s => ?_⟩
    simp only [List.cons_append, List.nil_append, compile, if_neg hquote, if_neg hback,
      if_neg hnewline]

/-- The characters of a literal up to its closing quote, behind a character that is no quote,
and behind the backslash of one. -/
theorem compile_chars {tail : List Char} (closed : Bool → Bool) {bytes : List UInt8}
    (hclosed : compile names .inLiteral (unquote ('"' :: tail)) =
      if closed false then some bytes else none)
    (hescaped : compile names .inEscape (unquote tail) =
      if closed true then some (0x22 :: bytes) else none) (chars : List Char) :
    (compile names .inLiteral (unquote (chars.flatMap spell ++ '"' :: tail)) =
        if closed (endsInQuote false chars)
        then some ((chars.map fun c => UInt8.ofNat c.toNat) ++ bytes) else none) ∧
      compile names .inEscape (unquote ('"' :: (chars.flatMap spell ++ '"' :: tail))) =
        if closed (endsInQuote true chars)
        then some (0x22 :: ((chars.map fun c => UInt8.ofNat c.toNat) ++ bytes)) else none := by
  induction chars with
  | nil =>
    have hsame : unquote ('"' :: '"' :: tail) = unquote tail := replace_pair_same
    exact ⟨hclosed, (congrArg (compile names .inEscape) hsame).trans hescaped⟩
  | cons c chars ih =>
    have hends : ∀ q, endsInQuote q (c :: chars) = endsInQuote (decide (c = '"')) chars :=
      fun q => rfl
    have hliteral : compile names .inLiteral (unquote ((c :: chars).flatMap spell ++ '"' :: tail)) =
        if closed (endsInQuote (decide (c = '"')) chars)
        then some (((c :: chars).map fun c => UInt8.ofNat c.toNat) ++ bytes) else none := by
      by_cases hquote : c = '"'
      · subst hquote
        have hback : unquote (('"' :: chars).flatMap spell ++ '"' :: tail) =
            '\\' :: unquote ('"' :: (chars.flatMap spell ++ '"' :: tail)) :=
          replace_cons_of_ne (by decide)
        rw [hback]
        exact ih.2
      · obtain ⟨hplain, hcompile⟩ := compile_spell names hquote
        have hfront : unquote ((c :: chars).flatMap spell ++ '"' :: tail) =
            spell c ++ unquote (chars.flatMap spell ++ '"' :: tail) := by
          rw [List.flatMap_cons, List.append_assoc]
          exact replace_append_of_notMem hplain _
        rw [hfront, hcompile, ih.1, decide_eq_false hquote]
        split_ifs <;> rfl
    refine ⟨hliteral, ?_⟩
    -- the quote that is left is the escaped one
    have hjoin : unquote ('"' :: ((c :: chars).flatMap spell ++ '"' :: tail)) =
        '"' :: unquote ((c :: chars).flatMap spell ++ '"' :: tail) := by
      rw [List.flatMap_cons, List.append_assoc]
      exact unquote_quote_spell c _
    have hescape : compile names .inEscape
        ('"' :: unquote ((c :: chars).flatMap spell ++ '"' :: tail)) =
        (compile names .inLiteral (unquote ((c :: chars).flatMap spell ++ '"' :: tail))).map
          (0x22 :: ·) := rfl
    rw [hjoin, hescape, hliteral, hends]
    split_ifs <;> rfl

/-! ## Sequences -/

/-- The text of a sequence is compiled if its literals are closed, and not else: from outside
of a literal, inside of one whose closing quote is still to be taken out or kept, and inside of
one that has lost it. -/
theorem compile_items {items : List Item} (hok : ∀ item ∈ items, item.Ok names) :
    (compile names .outside (unquote (items.flatMap Item.text)) =
        if closes false items then some (items.flatMap Item.bytes) else none) ∧
      (compile names .inLiteral (unquote ('"' :: items.flatMap Item.text)) =
        if closes false items then some (items.flatMap Item.bytes) else none) ∧
      compile names .inEscape (unquote (items.flatMap Item.text)) =
        if closes true items then some (0x22 :: items.flatMap Item.bytes) else none := by
  induction items with
  | nil => exact ⟨rfl, rfl, rfl⟩
  | cons item items ih =>
    obtain ⟨houtside, hliteral, hescape⟩ :=
      ih fun other hother => hok other (List.mem_cons_of_mem item hother)
    have hitem := hok item List.mem_cons_self
    cases item with
    | call text bytes =>
      obtain ⟨⟨rest, rfl⟩, hplain, -, hcompile⟩ := hitem
      have htext : unquote ((Item.call ('S' :: rest) bytes :: items).flatMap Item.text) =
          ('S' :: rest) ++ unquote (items.flatMap Item.text) :=
        replace_append_of_notMem hplain _
      have hquoted : unquote ('"' :: (Item.call ('S' :: rest) bytes :: items).flatMap Item.text) =
          '"' :: (('S' :: rest) ++ unquote (items.flatMap Item.text)) := by
        rw [← htext]
        exact unquote_quote_cons (by decide) _
      have hcall : compile names .outside (('S' :: rest) ++ unquote (items.flatMap Item.text)) =
          if closes false (Item.call ('S' :: rest) bytes :: items)
          then some ((Item.call ('S' :: rest) bytes :: items).flatMap Item.bytes) else none := by
        rw [hcompile, houtside]
        have hcloses : closes false (Item.call ('S' :: rest) bytes :: items) =
            closes false items := rfl
        rw [hcloses]
        split_ifs <;> rfl
      refine ⟨by rw [htext, hcall], by rw [hquoted, ← hcall]; rfl, ?_⟩
      rw [htext]
      rfl
    | lit chars =>
      have htext : (Item.lit chars :: items).flatMap Item.text =
          '"' :: (chars.flatMap spell ++ '"' :: items.flatMap Item.text) := by
        simp only [List.flatMap_cons, Item.text, List.cons_append, List.append_assoc,
          List.nil_append]
      have hcloses : ∀ q, closes q (Item.lit chars :: items) =
          closes (endsInQuote q chars) items := fun q => rfl
      have hbytes : (Item.lit chars :: items).flatMap Item.bytes =
          (chars.map fun c => UInt8.ofNat c.toNat) ++ items.flatMap Item.bytes := rfl
      obtain ⟨hin, hesc⟩ := compile_chars (fun q => closes q items) hliteral hescape chars
      have hsame : ∀ s, unquote ('"' :: '"' :: s) = unquote s := fun s => replace_pair_same
      rw [htext, hcloses, hcloses, hbytes]
      refine ⟨?_, ?_, hesc⟩
      · cases chars with
        | nil => exact (congrArg (compile names .outside) (hsame _)).trans houtside
        | cons c chars =>
          have hopen : ∀ s, unquote ('"' :: ((c :: chars).flatMap spell ++ s)) =
              '"' :: unquote ((c :: chars).flatMap spell ++ s) := fun s => by
            rw [List.flatMap_cons, List.append_assoc]
            exact unquote_quote_spell c _
          rw [hopen]
          exact hin
      · rw [hsame]
        exact hin

end Compile

end Keymap
end VialQmk
