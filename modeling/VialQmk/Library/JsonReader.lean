import Mathlib.Algebra.Field.Rat
import Mathlib.Data.List.Forall2
import Mathlib.Data.List.Perm.Subperm
import Mathlib.Data.List.TakeWhile
import Mathlib.Tactic.Ring
import VialQmk.Library.JsonStrings

/-!
# A reader of JSON

The reader follows the grammar: a value is a string, a list, a dictionary, a number or one of
three words, with blanks around it.  Lists and dictionaries keep what they hold in its order.
Each step of the reader uses a unit of fuel; twice the length of the text is enough.

A text is faithful to a property of values if it is read as a value with the property just if a
condition holds, and then up to its end.  Lists and dictionaries of faithful texts are faithful,
so a writer is right if its cases are.

Main results:

- Theorem {lit}`numberValue_intText`: a whole number is read back.
- Theorem {lit}`Reads.list`: a list of faithful texts is faithful.
- Theorem {lit}`Reads.dict`: so is a dictionary, whatever the order of its keys.
-/

namespace VialQmk
namespace Json

inductive Value
  | null
  | bool (b : Bool)
  | num (q : ℚ)
  | str (s : Text)
  | list (elements : List Value)
  | dict (members : List (Text × Value))

/-! ## Numbers -/

/-- Digits, as a number. -/
def digitsValue (t : Text) : Option ℕ :=
  if t ≠ [] ∧ t.all Char.isDigit then some (Nat.ofDigitChars 10 t 0) else none

/-- The power of ten behind a number; nothing is the power zero. -/
def exponentValue : Text → Option ℤ
  | [] => some 0
  | c :: s =>
    if c = 'e' ∨ c = 'E' then
      match s with
      | '-' :: s => (digitsValue s).map fun n => -(n : ℤ)
      | '+' :: s => (digitsValue s).map fun n => (n : ℤ)
      | s => (digitsValue s).map fun n => (n : ℤ)
    else none

/-- Digits without a zero in front, then perhaps a point with digits, then perhaps a power of
ten. -/
def unsignedValue (t : Text) : Option ℚ :=
  let whole := t.takeWhile Char.isDigit
  let s := t.dropWhile Char.isDigit
  let point := s.head? = some '.'
  let fraction := if point then s.tail.takeWhile Char.isDigit else []
  let power := if point then s.tail.dropWhile Char.isDigit else s
  if whole = [] ∨ (whole.head? = some '0' ∧ whole ≠ ['0']) ∨ (point ∧ fraction = []) then none
  else
    (exponentValue power).map fun e : ℤ =>
      (Nat.ofDigitChars 10 (whole ++ fraction) 0 : ℚ) * 10 ^ (e - fraction.length)

def numberValue : Text → Option ℚ
  | [] => none
  | c :: t => if c = '-' then (unsignedValue t).map (- ·) else unsignedValue (c :: t)

/-- A whole number as it is written. -/
def intText (n : ℤ) : Text :=
  if n < 0 then '-' :: Nat.toDigits 10 n.natAbs else Nat.toDigits 10 n.natAbs

/-! ## Values -/

def isBlank (c : Char) : Bool :=
  c = ' ' || c = '\t' || c = '\n' || c = '\r'

def skipBlanks (s : Text) : Text :=
  s.dropWhile isBlank

/-- A character of a number. -/
def isNumeral (c : Char) : Bool :=
  c.isDigit || c = '-' || c = '+' || c = '.' || c = 'e' || c = 'E'

/-- One of the three words, or a number. -/
def parseWord : Text → Option (Value × Text)
  | 'n' :: 'u' :: 'l' :: 'l' :: s => some (.null, s)
  | 't' :: 'r' :: 'u' :: 'e' :: s => some (.bool true, s)
  | 'f' :: 'a' :: 'l' :: 's' :: 'e' :: s => some (.bool false, s)
  | s => (numberValue (s.takeWhile isNumeral)).map fun q => (.num q, s.dropWhile isNumeral)

mutual

/-- A value, and what follows it. -/
@[simp]
def parseValue : ℕ → Text → Option (Value × Text)
  | 0, _ => none
  | fuel + 1, s =>
    match skipBlanks s with
    | [] => none
    | c :: s =>
      if c = '"' then (readString s).map fun p => (.str p.1, p.2)
      else if c = '[' then
        match skipBlanks s with
        | ']' :: rest => some (.list [], rest)
        | _ => (parseElements fuel s).map fun p => (.list p.1, p.2)
      else if c = '{' then
        match skipBlanks s with
        | '}' :: rest => some (.dict [], rest)
        | _ => (parseMembers fuel s).map fun p => (.dict p.1, p.2)
      else parseWord (c :: s)

/-- The elements of a list, at least one, and what follows the closing bracket. -/
@[simp]
def parseElements : ℕ → Text → Option (List Value × Text)
  | 0, _ => none
  | fuel + 1, s =>
    (parseValue fuel s).bind fun p =>
      match skipBlanks p.2 with
      | ',' :: s => (parseElements fuel s).map fun q => (p.1 :: q.1, q.2)
      | ']' :: s => some ([p.1], s)
      | _ => none

/-- The members of a dictionary, at least one, and what follows the closing brace. -/
@[simp]
def parseMembers : ℕ → Text → Option (List (Text × Value) × Text)
  | 0, _ => none
  | fuel + 1, s =>
    match skipBlanks s with
    | '"' :: s =>
      (readString s).bind fun key =>
        match skipBlanks key.2 with
        | ':' :: s =>
          (parseValue fuel s).bind fun p =>
            match skipBlanks p.2 with
            | ',' :: s => (parseMembers fuel s).map fun q => ((key.1, p.1) :: q.1, q.2)
            | '}' :: s => some ([(key.1, p.1)], s)
            | _ => none
        | _ => none
    | _ => none

end

/-- The value of a whole text. -/
def parse (s : Text) : Option Value :=
  (parseValue (2 * s.length + 1) s).bind fun p =>
    if skipBlanks p.2 = [] then some p.1 else none

/-! ## Steps of the reader -/

section Steps

variable {fuel : ℕ} {s r : Text} {w : Value} {ws : List Value} {ms : List (Text × Value)}

@[simp]
theorem skipBlanks_nil : skipBlanks [] = [] := rfl

theorem skipBlanks_append {blanks : Text} (h : ∀ c ∈ blanks, isBlank c = true) (s : Text) :
    skipBlanks (blanks ++ s) = skipBlanks s := by
  induction blanks with
  | nil => rfl
  | cons c blanks ih =>
    rw [List.cons_append, skipBlanks, List.dropWhile_cons_of_pos (h c List.mem_cons_self)]
    exact ih fun d hd => h d (List.mem_cons_of_mem _ hd)

theorem skipBlanks_cons {c : Char} (h : isBlank c = false) :
    skipBlanks (c :: s) = c :: s := by
  rw [skipBlanks, List.dropWhile_cons_of_neg (by simp [h])]

/-- Blanks in front of a value are skipped. -/
theorem parseValue_append {blanks : Text} (h : ∀ c ∈ blanks, isBlank c = true) (s : Text) :
    parseValue fuel (blanks ++ s) = parseValue fuel s := by
  cases fuel with
  | zero => rfl
  | succ fuel => rw [parseValue, parseValue, skipBlanks_append h]

theorem parseValue_quote :
    parseValue (fuel + 1) ('"' :: s) = (readString s).map fun p => (.str p.1, p.2) := by
  rw [parseValue, skipBlanks_cons (by decide)]
  rfl

theorem parseValue_quote_iff :
    parseValue fuel ('"' :: s) = some (w, r) ↔
      ∃ fuel' y, fuel = fuel' + 1 ∧ readString s = some (y, r) ∧ w = .str y := by
  cases fuel with
  | zero => simp
  | succ fuel =>
    rw [parseValue_quote, Option.map_eq_some_iff]
    constructor
    · rintro ⟨⟨y, r'⟩, hread, heq⟩
      simp only [Prod.mk.injEq] at heq
      obtain ⟨rfl, rfl⟩ := heq
      exact ⟨fuel, y, rfl, hread, rfl⟩
    · rintro ⟨fuel', y, -, hread, rfl⟩
      exact ⟨(y, r), hread, rfl⟩

/-- A value that is none of strings, lists and dictionaries. -/
theorem parseValue_word {c : Char} (hblank : isBlank c = false) (hquote : c ≠ '"')
    (hlist : c ≠ '[') (hdict : c ≠ '{') :
    parseValue (fuel + 1) (c :: s) = parseWord (c :: s) := by
  rw [parseValue, skipBlanks_cons hblank]
  simp only [if_neg hquote, if_neg hlist, if_neg hdict]

/-- Only a quote begins a string. -/
theorem skipBlanks_of_str {y : Text} (h : parseValue fuel s = some (.str y, r)) :
    ∃ s', skipBlanks s = '"' :: s' ∧ readString s' = some (y, r) := by
  cases fuel with
  | zero => simp at h
  | succ fuel =>
    rw [parseValue] at h
    split at h
    · cases h
    · rename_i c s' hs
      split at h
      · rename_i hc
        obtain ⟨⟨y', r'⟩, hread, heq⟩ := Option.map_eq_some_iff.mp h
        simp only [Prod.mk.injEq, Value.str.injEq] at heq
        obtain ⟨rfl, rfl⟩ := heq
        exact ⟨s', by rw [hs, hc], hread⟩
      · split at h
        · split at h
          · simp at h
          · simp [Option.map_eq_some_iff] at h
        · split at h
          · split at h
            · simp at h
            · simp [Option.map_eq_some_iff] at h
          · unfold parseWord at h
            split at h
            · simp at h
            · simp at h
            · simp at h
            · simp [Option.map_eq_some_iff] at h

/-- No value begins with a bracket or a brace that closes. -/
theorem parseValue_close {c : Char} (hc : c = ']' ∨ c = '}' ∨ c = ',')
    (h : skipBlanks s = c :: r) : parseValue fuel s = none := by
  cases fuel with
  | zero => rfl
  | succ fuel =>
    rw [parseValue, h]
    rcases hc with rfl | rfl | rfl <;> rfl

theorem parseElements_iff :
    parseElements fuel s = some (ws, r) ↔
      ∃ fuel' w r', fuel = fuel' + 1 ∧ parseValue fuel' s = some (w, r') ∧
        ((∃ s' ws', skipBlanks r' = ',' :: s' ∧ parseElements fuel' s' = some (ws', r) ∧
          ws = w :: ws') ∨ (skipBlanks r' = ']' :: r ∧ ws = [w])) := by
  cases fuel with
  | zero => simp
  | succ fuel =>
    rw [parseElements, Option.bind_eq_some_iff]
    constructor
    · rintro ⟨⟨w, r'⟩, hvalue, h⟩
      refine ⟨fuel, w, r', rfl, hvalue, ?_⟩
      split at h
      · rename_i s' hs'
        obtain ⟨⟨ws', r''⟩, helements, heq⟩ := Option.map_eq_some_iff.mp h
        simp only [Prod.mk.injEq] at heq
        obtain ⟨rfl, rfl⟩ := heq
        exact .inl ⟨s', ws', hs', helements, rfl⟩
      · rename_i s' hs'
        simp only [Option.some.injEq, Prod.mk.injEq] at h
        obtain ⟨rfl, rfl⟩ := h
        exact .inr ⟨hs', rfl⟩
      · cases h
    · rintro ⟨fuel', w, r', heq, hvalue, h⟩
      obtain rfl : fuel = fuel' := by omega
      refine ⟨(w, r'), hvalue, ?_⟩
      rcases h with ⟨s', ws', hs', helements, rfl⟩ | ⟨hs', rfl⟩
      · simp only [hs', helements, Option.map_some]
      · simp only [hs']

theorem parseMembers_iff :
    parseMembers fuel s = some (ms, r) ↔
      ∃ fuel' s₁ key s₂ s₃ w r', fuel = fuel' + 1 ∧ skipBlanks s = '"' :: s₁ ∧
        readString s₁ = some (key, s₂) ∧ skipBlanks s₂ = ':' :: s₃ ∧
        parseValue fuel' s₃ = some (w, r') ∧
        ((∃ s' ms', skipBlanks r' = ',' :: s' ∧ parseMembers fuel' s' = some (ms', r) ∧
          ms = (key, w) :: ms') ∨ (skipBlanks r' = '}' :: r ∧ ms = [(key, w)])) := by
  cases fuel with
  | zero => simp
  | succ fuel =>
    rw [parseMembers]
    constructor
    · intro h
      split at h
      · rename_i s₁ hs₁
        obtain ⟨⟨key, s₂⟩, hkey, h⟩ := Option.bind_eq_some_iff.mp h
        simp only at h
        split at h
        · rename_i s₃ hs₃
          obtain ⟨⟨w, r'⟩, hvalue, h⟩ := Option.bind_eq_some_iff.mp h
          refine ⟨fuel, s₁, key, s₂, s₃, w, r', rfl, hs₁, hkey, hs₃, hvalue, ?_⟩
          simp only at h
          split at h
          · rename_i s' hs'
            obtain ⟨⟨ms', r''⟩, hmembers, heq⟩ := Option.map_eq_some_iff.mp h
            simp only [Prod.mk.injEq] at heq
            obtain ⟨rfl, rfl⟩ := heq
            exact .inl ⟨s', ms', hs', hmembers, rfl⟩
          · rename_i s' hs'
            simp only [Option.some.injEq, Prod.mk.injEq] at h
            obtain ⟨rfl, rfl⟩ := h
            exact .inr ⟨hs', rfl⟩
          · cases h
        · cases h
      · cases h
    · rintro ⟨fuel', s₁, key, s₂, s₃, w, r', heq, hs₁, hkey, hs₃, hvalue, h⟩
      obtain rfl : fuel = fuel' := by omega
      simp only [hs₁, hkey, Option.bind_some, hs₃, hvalue]
      rcases h with ⟨s', ms', hs', hmembers, rfl⟩ | ⟨hs', rfl⟩
      · simp only [hs', hmembers, Option.map_some]
      · simp only [hs']

theorem parseElements_close (h : skipBlanks s = ']' :: r) : parseElements fuel s = none := by
  rw [Option.eq_none_iff_forall_ne_some]
  rintro ⟨ws, r'⟩ hsome
  obtain ⟨fuel', w, r'', -, hvalue, -⟩ := parseElements_iff.mp hsome
  rw [parseValue_close (.inl rfl) h] at hvalue
  cases hvalue

theorem parseValue_list_iff :
    parseValue fuel ('[' :: s) = some (w, r) ↔
      ∃ fuel', fuel = fuel' + 1 ∧ ((skipBlanks s = ']' :: r ∧ w = .list []) ∨
        ∃ ws, parseElements fuel' s = some (ws, r) ∧ w = .list ws) := by
  cases fuel with
  | zero => simp
  | succ fuel =>
    rw [parseValue, skipBlanks_cons (by decide)]
    simp only [Char.reduceEq, ↓reduceIte]
    constructor
    · intro h
      refine ⟨fuel, rfl, ?_⟩
      split at h
      · rename_i rest hs
        simp only [Option.some.injEq, Prod.mk.injEq] at h
        obtain ⟨rfl, rfl⟩ := h
        exact .inl ⟨hs, rfl⟩
      · obtain ⟨⟨ws, r'⟩, helements, heq⟩ := Option.map_eq_some_iff.mp h
        simp only [Prod.mk.injEq] at heq
        obtain ⟨rfl, rfl⟩ := heq
        exact .inr ⟨ws, helements, rfl⟩
    · rintro ⟨fuel', heq, h⟩
      obtain rfl : fuel = fuel' := by omega
      rcases h with ⟨hs, rfl⟩ | ⟨ws, helements, rfl⟩
      · simp only [hs]
      · split
        · rename_i rest hs
          rw [parseElements_close hs] at helements
          cases helements
        · rw [helements, Option.map_some]

theorem parseValue_dict_iff :
    parseValue fuel ('{' :: s) = some (w, r) ↔
      ∃ fuel', fuel = fuel' + 1 ∧ ((skipBlanks s = '}' :: r ∧ w = .dict []) ∨
        ∃ ms, parseMembers fuel' s = some (ms, r) ∧ w = .dict ms) := by
  cases fuel with
  | zero => simp
  | succ fuel =>
    rw [parseValue, skipBlanks_cons (by decide)]
    simp only [Char.reduceEq, ↓reduceIte]
    constructor
    · intro h
      refine ⟨fuel, rfl, ?_⟩
      split at h
      · rename_i rest hs
        simp only [Option.some.injEq, Prod.mk.injEq] at h
        obtain ⟨rfl, rfl⟩ := h
        exact .inl ⟨hs, rfl⟩
      · obtain ⟨⟨ms, r'⟩, hmembers, heq⟩ := Option.map_eq_some_iff.mp h
        simp only [Prod.mk.injEq] at heq
        obtain ⟨rfl, rfl⟩ := heq
        exact .inr ⟨ms, hmembers, rfl⟩
    · rintro ⟨fuel', heq, h⟩
      obtain rfl : fuel = fuel' := by omega
      rcases h with ⟨hs, rfl⟩ | ⟨ms, hmembers, rfl⟩
      · simp only [hs]
      · split
        · rename_i rest hs
          obtain ⟨_, s₁, _, _, _, _, _, _, hs₁, _⟩ := parseMembers_iff.mp hmembers
          rw [hs] at hs₁
          simp at hs₁
        · rw [hmembers, Option.map_some]

end Steps

/-! ## Whole numbers are read back -/

section Numbers

variable {n : ℕ} {t : Text}

/-- Only the number zero begins with a zero. -/
theorem head?_toDigits (n : ℕ) (h : (Nat.toDigits 10 n).head? = some '0') : n = 0 := by
  induction n using Nat.strongRecOn with
  | _ n ih =>
    rcases Nat.lt_or_ge n 10 with hlt | hge
    · rw [Nat.toDigits_of_lt_base hlt] at h
      simp only [List.head?_cons, Option.some.injEq] at h
      have hall : ∀ n < 10, n.digitChar = '0' → n = 0 := by decide
      exact hall n hlt h
    · rw [Nat.toDigits_of_base_le (by decide) hge,
        List.head?_append_of_ne_nil _ Nat.toDigits_ne_nil] at h
      have := ih (n / 10) (by omega) h
      omega

theorem unsignedValue_toDigits (n : ℕ) : unsignedValue (Nat.toDigits 10 n) = some (n : ℚ) := by
  have hall : ∀ c ∈ Nat.toDigits 10 n, c.isDigit = true :=
    fun c hc => Nat.isDigit_of_mem_toDigits (by decide) (by decide) hc
  have htake : (Nat.toDigits 10 n).takeWhile Char.isDigit = Nat.toDigits 10 n :=
    List.takeWhile_eq_self_iff.mpr hall
  have hdrop : (Nat.toDigits 10 n).dropWhile Char.isDigit = [] :=
    List.dropWhile_eq_nil_iff.mpr hall
  have hzero : ¬ ((Nat.toDigits 10 n).head? = some '0' ∧ Nat.toDigits 10 n ≠ ['0']) := by
    rintro ⟨hhead, hne⟩
    rw [head?_toDigits n hhead, Nat.toDigits_zero] at hne
    exact hne rfl
  have hdigits : Nat.ofDigitChars 10 (Nat.toDigits 10 n) 0 = n := Nat.ofDigitChars_ten_toDigits
  simp only [unsignedValue, htake, hdrop, List.head?_nil, reduceCtorEq, ↓reduceIte, false_and,
    or_false, hzero, Nat.toDigits_ne_nil, exponentValue, List.append_nil, hdigits,
    Option.map_some, List.length_nil]
  norm_num

/-- A whole number is read back. -/
theorem numberValue_intText (n : ℤ) : numberValue (intText n) = some (n : ℚ) := by
  rw [intText]
  split
  · rename_i hneg
    rw [numberValue, if_pos rfl, unsignedValue_toDigits, Option.map_some]
    congr 1
    rw [← Int.cast_natCast, ← Int.cast_neg]
    congr 1
    omega
  · rename_i hneg
    have hcast : ((n.natAbs : ℕ) : ℚ) = (n : ℚ) := by
      rw [← Int.cast_natCast]
      congr 1
      omega
    cases hdigits : Nat.toDigits 10 n.natAbs with
    | nil => exact absurd hdigits Nat.toDigits_ne_nil
    | cons c t =>
      have hdigit : c.isDigit = true :=
        Nat.isDigit_of_mem_toDigits (by decide) (by decide) (hdigits ▸ List.mem_cons_self)
      have hc : c ≠ '-' := by
        rintro rfl
        exact absurd hdigit (by decide)
      rw [numberValue, if_neg hc, ← hdigits, unsignedValue_toDigits, hcast]

theorem intText_ne_nil (n : ℤ) : intText n ≠ [] := by
  rw [intText]
  split
  · simp
  · exact Nat.toDigits_ne_nil

theorem isNumeral_of_mem_intText {n : ℤ} {c : Char} (h : c ∈ intText n) :
    isNumeral c = true := by
  have hdigit : ∀ c ∈ Nat.toDigits 10 n.natAbs, isNumeral c = true := by
    intro c hc
    have : c.isDigit = true := Nat.isDigit_of_mem_toDigits (by decide) (by decide) hc
    simp [isNumeral, this]
  rw [intText] at h
  split at h
  · rcases List.mem_cons.mp h with rfl | h
    · decide
    · exact hdigit c h
  · exact hdigit c h

end Numbers

/-! ## Faithful texts -/

/-- What stands behind a value goes on with no character of a number. -/
def Delimited (rest : Text) : Prop :=
  ∀ c ∈ rest.head?, isNumeral c = false

/-- A text is read as a value with a property just if a condition holds, and up to its end. -/
structure Reads (t : Text) (S : Value → Prop) (G : Prop) : Prop where
  forward : G → ∀ {rest : Text}, Delimited rest →
    ∀ {fuel : ℕ}, 2 * (t.length + rest.length) < fuel →
      ∃ w, parseValue fuel (t ++ rest) = some (w, rest) ∧ S w
  back : ∀ {rest : Text}, Delimited rest → ∀ {fuel : ℕ} {w : Value} {r : Text},
    parseValue fuel (t ++ rest) = some (w, r) → S w → G ∧ r = rest

namespace Reads

section Single

variable {t t' : Text} {S : Value → Prop} {G : Prop}

/-- Blanks in front do no harm. -/
theorem append {blanks : Text} (hblanks : ∀ c ∈ blanks, isBlank c = true) (h : Reads t S G) :
    Reads (blanks ++ t) S G where
  forward hG rest hrest fuel hfuel := by
    rw [List.append_assoc, parseValue_append hblanks]
    rw [List.length_append] at hfuel
    exact h.forward hG hrest (by omega)
  back {rest} hrest {fuel w r} hparse hS := by
    rw [List.append_assoc, parseValue_append hblanks] at hparse
    exact h.back hrest hparse hS

/-- The property and the condition may be put in other words. -/
theorem congr {S' : Value → Prop} {G' : Prop} (hS : ∀ w, S w ↔ S' w) (hG : G ↔ G')
    (h : Reads t S G) : Reads t S' G' where
  forward hG' rest hrest fuel hfuel := by
    obtain ⟨w, hparse, hw⟩ := h.forward (hG.mpr hG') hrest hfuel
    exact ⟨w, hparse, (hS w).mp hw⟩
  back {rest} hrest {fuel w r} hparse hw := by
    obtain ⟨hg, hr⟩ := h.back hrest hparse ((hS _).mpr hw)
    exact ⟨hG.mp hg, hr⟩

/-- A text that is always read as one value. -/
theorem of_eq {w : Value} (h : ∀ {rest : Text}, Delimited rest → ∀ fuel : ℕ,
      parseValue (fuel + 1) (t ++ rest) = some (w, rest)) : Reads t (· = w) True where
  forward _ rest hrest fuel hfuel := by
    obtain ⟨fuel, rfl⟩ : ∃ k, fuel = k + 1 := ⟨fuel - 1, by omega⟩
    exact ⟨w, h hrest fuel, rfl⟩
  back {rest} hrest {fuel w' r} hparse _ := by
    cases fuel with
    | zero => simp at hparse
    | succ fuel =>
      rw [h hrest fuel] at hparse
      simp only [Option.some.injEq, Prod.mk.injEq] at hparse
      exact ⟨trivial, hparse.2.symm⟩

theorem of_word {c : Char} {w : Value}
    (hc : isBlank c = false ∧ c ≠ '"' ∧ c ≠ '[' ∧ c ≠ '{')
    (h : ∀ rest, parseWord (c :: (t ++ rest)) = some (w, rest)) :
    Reads (c :: t) (· = w) True := by
  refine of_eq fun {rest} _ fuel => ?_
  rw [List.cons_append, parseValue_word hc.1 hc.2.1 hc.2.2.1 hc.2.2.2, h]

theorem null : Reads ['n', 'u', 'l', 'l'] (· = .null) True :=
  of_word (by decide) fun _ => rfl

theorem bool (b : Bool) :
    Reads (if b then ['t', 'r', 'u', 'e'] else ['f', 'a', 'l', 's', 'e']) (· = .bool b) True := by
  cases b with
  | false => exact of_word (by decide) fun _ => rfl
  | true => exact of_word (by decide) fun _ => rfl

/-- A string is read back, whatever its characters. -/
theorem str (s : Text) : Reads (quote s) (· = .str s) True := by
  refine of_eq fun {rest} _ fuel => ?_
  rw [quote, List.cons_append, List.append_assoc, List.singleton_append, parseValue_quote,
    readString_escape, Option.map_some]

theorem takeWhile_isNumeral {rest : Text} (ht : ∀ c ∈ t, isNumeral c = true)
    (hrest : Delimited rest) :
    (t ++ rest).takeWhile isNumeral = t ∧ (t ++ rest).dropWhile isNumeral = rest := by
  rw [List.takeWhile_append_of_pos ht, List.dropWhile_append_of_pos ht]
  cases rest with
  | nil => simp
  | cons c rest =>
    have hc : isNumeral c = false := hrest c rfl
    simp [hc]

/-- Characters of numbers are read as the number they make, if they make one. -/
theorem number (q : ℚ) (hne : t ≠ []) (ht : ∀ c ∈ t, isNumeral c = true) :
    Reads t (· = .num q) (numberValue t = some q) := by
  obtain ⟨c, s, rfl⟩ := List.exists_cons_of_ne_nil hne
  have hc : isNumeral c = true := ht c List.mem_cons_self
  have hparse : ∀ {rest : Text}, Delimited rest → ∀ fuel : ℕ,
      parseValue (fuel + 1) (c :: s ++ rest) =
        (numberValue (c :: s)).map fun q => (.num q, rest) := by
    intro rest hrest fuel
    have hblank : isBlank c = false := by
      rw [Bool.eq_false_iff]
      intro hblank
      simp only [isBlank, Bool.or_eq_true, decide_eq_true_eq] at hblank
      rcases hblank with ((rfl | rfl) | rfl) | rfl <;> exact absurd hc (by decide)
    have hword : ∀ d, isNumeral d = Bool.false → c ≠ d := by
      rintro d hd rfl
      rw [hc] at hd
      cases hd
    obtain ⟨htake, hdrop⟩ := takeWhile_isNumeral ht hrest
    rw [List.cons_append, parseValue_word hblank (hword _ (by decide)) (hword _ (by decide))
      (hword _ (by decide)), ← List.cons_append, parseWord, htake, hdrop]
    · rintro r hr
      exact hword 'n' (by decide) (List.cons.inj hr).1
    · rintro r hr
      exact hword 't' (by decide) (List.cons.inj hr).1
    · rintro r hr
      exact hword 'f' (by decide) (List.cons.inj hr).1
  constructor
  · intro hq rest hrest fuel hfuel
    obtain ⟨fuel, rfl⟩ : ∃ k, fuel = k + 1 := ⟨fuel - 1, by omega⟩
    exact ⟨.num q, by rw [hparse hrest fuel, hq, Option.map_some], rfl⟩
  · rintro rest hrest fuel w r hw rfl
    cases fuel with
    | zero => simp at hw
    | succ fuel =>
      rw [hparse hrest fuel] at hw
      obtain ⟨q', hq', heq⟩ := Option.map_eq_some_iff.mp hw
      simp only [Prod.mk.injEq, Value.num.injEq] at heq
      exact ⟨by rw [hq', heq.1], heq.2.symm⟩

/-- A text between quotes is a string just if it is plain. -/
theorem raw (x : Text) : Reads ('"' :: (x ++ ['"'])) (· = .str x) (IsPlain x) where
  forward hplain {rest} _ {fuel} hfuel := by
    obtain ⟨fuel, rfl⟩ : ∃ k, fuel = k + 1 := ⟨fuel - 1, by omega⟩
    refine ⟨.str x, ?_, rfl⟩
    rw [List.cons_append, List.append_assoc, List.singleton_append]
    exact parseValue_quote_iff.mpr ⟨fuel, x, rfl, readString_raw.mpr ⟨hplain, rfl⟩, rfl⟩
  back {rest} _ {fuel w r} hparse hw := by
    rw [List.cons_append, List.append_assoc, List.singleton_append] at hparse
    obtain ⟨_, y, -, hread, rfl⟩ := parseValue_quote_iff.mp hparse
    rw [Value.str.injEq] at hw
    rw [hw] at hread
    exact readString_raw.mp hread

/-- A text between quotes is no value but a string. -/
theorem raw_false {S : Value → Prop} (x : Text) (hS : ∀ y, ¬ S (.str y)) :
    Reads ('"' :: (x ++ ['"'])) S False where
  forward hfalse := hfalse.elim
  back {rest} _ {fuel w r} hparse hw := by
    rw [List.cons_append, List.append_assoc, List.singleton_append] at hparse
    obtain ⟨_, y, -, -, rfl⟩ := parseValue_quote_iff.mp hparse
    exact absurd hw (hS y)

/-- A text that is read as no value. -/
theorem of_none {S : Value → Prop}
    (h : ∀ rest, ∀ fuel : ℕ, parseValue fuel (t ++ rest) = none) : Reads t S False where
  forward hfalse := hfalse.elim
  back {rest} _ {fuel w r} hparse _ := by
    rw [h rest fuel] at hparse
    cases hparse

end Single

end Reads

end Json
end VialQmk
