import Mathlib.Data.List.Basic
import Mathlib.Tactic.Common

/-!
# Strings of JSON

A string of JSON is written between quotes.  A quote and a backslash in it are written behind a
backslash, and any character can be written by the number of its one or two units of UTF-16.
Here a string is read in three steps: its body up to the closing quote, the units the body
stands for, and the characters of the units.

A string whose characters are put between quotes as they are may close too early, or its last
character may be a backslash and take the closing quote away.

Main results:

- Theorem {lit}`readString_escape`: an escaped string is read back.
- Theorem {lit}`stringBody_raw`: the three ways to read a text that was put between quotes.
- Theorem {lit}`unescape_eq_self_iff`: a body stands for itself just if it has no backslash.
-/

namespace VialQmk
namespace Json

abbrev Text := List Char

/-! ## Reading -/

/-- The body of a string up to its closing quote, and what follows the quote.  The character
behind a backslash does not close the string; a control character is refused. -/
@[simp]
def stringBody : Text → Option (Text × Text)
  | [] => none
  | c :: s =>
    if c = '"' then some ([], s)
    else if c = '\\' then
      match s with
      | [] => none
      | e :: s => (stringBody s).map fun p => (c :: e :: p.1, p.2)
    else if c.toNat < 0x20 then none
    else (stringBody s).map fun p => (c :: p.1, p.2)

def hexValue (c : Char) : Option ℕ :=
  if '0' ≤ c ∧ c ≤ '9' then some (c.toNat - 48)
  else if 'a' ≤ c ∧ c ≤ 'f' then some (c.toNat - 87)
  else if 'A' ≤ c ∧ c ≤ 'F' then some (c.toNat - 55)
  else none

/-- The number of four hexadecimal digits. -/
def hexUnit (a b c d : Char) : Option ℕ :=
  (hexValue a).bind fun a => (hexValue b).bind fun b => (hexValue c).bind fun c =>
    (hexValue d).map fun d => a * 0x1000 + b * 0x100 + c * 0x10 + d

/-- What a character stands for behind a backslash. -/
def shortEscape (c : Char) : Option ℕ :=
  if c = '"' ∨ c = '\\' ∨ c = '/' then some c.toNat
  else if c = 'b' then some 0x08
  else if c = 'f' then some 0x0C
  else if c = 'n' then some 0x0A
  else if c = 'r' then some 0x0D
  else if c = 't' then some 0x09
  else none

/-- The units a body stands for.  A character that is written as it is counts as one unit, of
its own code. -/
@[simp]
def codeUnits : Text → Option (List ℕ)
  | [] => some []
  | c :: s =>
    if c = '\\' then
      match s with
      | 'u' :: h₁ :: h₂ :: h₃ :: h₄ :: s =>
        (hexUnit h₁ h₂ h₃ h₄).bind fun n => (codeUnits s).map (n :: ·)
      | e :: s => (shortEscape e).bind fun n => (codeUnits s).map (n :: ·)
      | [] => none
    else (codeUnits s).map (c.toNat :: ·)

def IsHigh (n : ℕ) : Prop := 0xD800 ≤ n ∧ n < 0xDC00

def IsLow (n : ℕ) : Prop := 0xDC00 ≤ n ∧ n < 0xE000

instance (n : ℕ) : Decidable (IsHigh n) := inferInstanceAs (Decidable (_ ∧ _))

instance (n : ℕ) : Decidable (IsLow n) := inferInstanceAs (Decidable (_ ∧ _))

/-- The characters of units: a high surrogate and the low one behind it are one character.  A
surrogate alone is no character. -/
@[simp]
def ofUnits : List ℕ → Option Text
  | [] => some []
  | n :: units =>
    if IsHigh n then
      match units with
      | [] => none
      | m :: units =>
        if IsLow m then
          (ofUnits units).map
            (Char.ofNat (0x10000 + (n - 0xD800) * 0x400 + (m - 0xDC00)) :: ·)
        else none
    else if IsLow n then none
    else (ofUnits units).map (Char.ofNat n :: ·)

/-- The string a body stands for. -/
def unescape (body : Text) : Option Text :=
  (codeUnits body).bind ofUnits

/-- A string, read from behind its opening quote. -/
def readString (s : Text) : Option (Text × Text) :=
  (stringBody s).bind fun p => (unescape p.1).map fun y => (y, p.2)

/-! ## Writing -/

def unicodeEscape (n : ℕ) : Text :=
  ['\\', 'u', (n / 0x1000).digitChar, (n / 0x100 % 0x10).digitChar,
    (n / 0x10 % 0x10).digitChar, (n % 0x10).digitChar]

/-- A character as it is written in a string, in ASCII only. -/
def escapeChar (c : Char) : Text :=
  if c = '"' then ['\\', '"']
  else if c = '\\' then ['\\', '\\']
  else if c = '\n' then ['\\', 'n']
  else if c = '\r' then ['\\', 'r']
  else if c = '\t' then ['\\', 't']
  else if c.toNat = 0x0C then ['\\', 'f']
  else if c.toNat = 0x08 then ['\\', 'b']
  else if 0x20 ≤ c.toNat ∧ c.toNat ≤ 0x7E then [c]
  else if c.toNat < 0x10000 then unicodeEscape c.toNat
  else
    unicodeEscape (0xD800 + (c.toNat - 0x10000) / 0x400) ++
      unicodeEscape (0xDC00 + (c.toNat - 0x10000) % 0x400)

/-- A string as it is written. -/
def quote (s : Text) : Text :=
  '"' :: (s.flatMap escapeChar ++ ['"'])

/-! ## Bodies -/

section Bodies

variable {c e : Char} {s body rest : Text}

@[simp]
theorem stringBody_quote : stringBody ('"' :: s) = some ([], s) := by
  simp [stringBody.eq_def]

@[simp]
theorem stringBody_backslash :
    stringBody ('\\' :: e :: s) =
      (stringBody s).map fun p => ('\\' :: e :: p.1, p.2) := by
  rw [stringBody.eq_def]
  simp

theorem stringBody_plain (hquote : c ≠ '"') (hslash : c ≠ '\\') (hcontrol : ¬ c.toNat < 0x20) :
    stringBody (c :: s) = (stringBody s).map fun p => (c :: p.1, p.2) := by
  rw [stringBody.eq_def]
  simp [hquote, hslash, hcontrol]

theorem stringBody_control (h : c.toNat < 0x20) : stringBody (c :: s) = none := by
  have hquote : c ≠ '"' := by
    rintro rfl
    exact absurd h (by decide)
  have hslash : c ≠ '\\' := by
    rintro rfl
    exact absurd h (by decide)
  rw [stringBody.eq_def]
  simp [hquote, hslash, h]

/-- Nothing in a text has to be escaped, if it is put between quotes. -/
def IsPlain (s : Text) : Prop :=
  ∀ c ∈ s, c ≠ '"' ∧ c ≠ '\\' ∧ ¬ c.toNat < 0x20

/-- A plain body ends at the quote behind it. -/
theorem stringBody_append (h : IsPlain body) :
    stringBody (body ++ '"' :: rest) = some (body, rest) := by
  induction body with
  | nil => simp
  | cons c body ih =>
    obtain ⟨hquote, hslash, hcontrol⟩ := h c List.mem_cons_self
    rw [List.cons_append, stringBody_plain hquote hslash hcontrol,
      ih fun d hd => h d (List.mem_cons_of_mem _ hd)]
    rfl

/-- A text that is its own body, and has no backslash, is plain. -/
theorem isPlain_of_stringBody (h : stringBody (body ++ '"' :: rest) = some (body, rest))
    (hslash : '\\' ∉ body) : IsPlain body := by
  induction body with
  | nil => exact fun c hc => absurd hc List.not_mem_nil
  | cons c body ih =>
    rw [List.mem_cons, not_or] at hslash
    have hc : c ≠ '\\' := Ne.symm hslash.1
    by_cases hquote : c = '"'
    · rw [hquote, List.cons_append, stringBody_quote] at h
      simp at h
    by_cases hcontrol : c.toNat < 0x20
    · rw [List.cons_append, stringBody_control hcontrol] at h
      cases h
    rw [List.cons_append, stringBody_plain hquote hc hcontrol, Option.map_eq_some_iff] at h
    obtain ⟨⟨b, r⟩, hb, heq⟩ := h
    simp only [Prod.mk.injEq, List.cons.injEq, true_and] at heq
    obtain ⟨rfl, rfl⟩ := heq
    exact List.forall_mem_cons.mpr ⟨⟨hquote, hc, hcontrol⟩, ih hb hslash.2⟩

/-- A text between quotes: its own closing quote is read, or a quote in the text closes before
it, or a backslash at the end of the text takes the closing quote away. -/
theorem stringBody_raw : ∀ (u : Text) {R body r : Text},
    stringBody (u ++ '"' :: R) = some (body, r) →
      (body = u ∧ r = R) ∨
        (∃ t, u = body ++ '"' :: t ∧ r = t ++ '"' :: R) ∨
          (u.getLast? = some '\\' ∧ ∃ z, stringBody R = some (z, r) ∧ body = u ++ '"' :: z)
  | [], R, body, r, h => by
    rw [List.nil_append, stringBody_quote] at h
    simp only [Option.some.injEq, Prod.mk.injEq] at h
    exact .inl ⟨h.1.symm, h.2.symm⟩
  | c :: u, R, body, r, h => by
    by_cases hquote : c = '"'
    · rw [hquote, List.cons_append, stringBody_quote] at h
      simp only [Option.some.injEq, Prod.mk.injEq] at h
      exact .inr (.inl ⟨u, by rw [hquote, ← h.1]; rfl, h.2.symm⟩)
    by_cases hslash : c = '\\'
    · cases u with
      | nil =>
        -- The backslash is the last character.
        rw [hslash, List.singleton_append, stringBody_backslash, Option.map_eq_some_iff] at h
        obtain ⟨⟨z, r'⟩, hz, heq⟩ := h
        simp only [Prod.mk.injEq] at heq
        refine .inr (.inr ⟨by simp [hslash], z, by rw [hz, heq.2], ?_⟩)
        rw [← heq.1, hslash]
        rfl
      | cons e u =>
        rw [hslash, List.cons_append, List.cons_append, stringBody_backslash,
          Option.map_eq_some_iff] at h
        obtain ⟨⟨b, r'⟩, hb, heq⟩ := h
        simp only [Prod.mk.injEq] at heq
        obtain ⟨hbody, rfl⟩ := heq
        rw [hslash, ← hbody]
        rcases stringBody_raw u hb with ⟨rfl, rfl⟩ | ⟨t, rfl, rfl⟩ | ⟨hlast, z, hz, rfl⟩
        · exact .inl ⟨rfl, rfl⟩
        · exact .inr (.inl ⟨t, rfl, rfl⟩)
        · refine .inr (.inr ⟨?_, z, hz, rfl⟩)
          cases u with
          | nil => simp at hlast
          | cons d u => simpa using hlast
    · by_cases hcontrol : c.toNat < 0x20
      · rw [List.cons_append, stringBody_control hcontrol] at h
        cases h
      · rw [List.cons_append, stringBody_plain hquote hslash hcontrol,
          Option.map_eq_some_iff] at h
        obtain ⟨⟨b, r'⟩, hb, heq⟩ := h
        simp only [Prod.mk.injEq] at heq
        obtain ⟨hbody, rfl⟩ := heq
        rw [← hbody]
        rcases stringBody_raw u hb with ⟨rfl, rfl⟩ | ⟨t, rfl, rfl⟩ | ⟨hlast, z, hz, rfl⟩
        · exact .inl ⟨rfl, rfl⟩
        · exact .inr (.inl ⟨t, rfl, rfl⟩)
        · refine .inr (.inr ⟨?_, z, hz, rfl⟩)
          cases u with
          | nil => simp at hlast
          | cons d u => simpa using hlast

end Bodies

/-! ## What a body stands for -/

section Units

variable {c : Char} {s body y : Text} {n : ℕ} {units : List ℕ}

theorem codeUnits_plain (h : c ≠ '\\') :
    codeUnits (c :: s) = (codeUnits s).map (c.toNat :: ·) := by
  rw [codeUnits.eq_def]
  simp [h]

/-- A body spells units: a character its code, an escape one unit.  An escape does not end with
a space; it has a quote only if it stands for one. -/
inductive Spells : Text → List ℕ → Prop
  | nil : Spells [] []
  | plain {c : Char} {s : Text} {units : List ℕ} (slash : c ≠ '\\') (rest : Spells s units) :
      Spells (c :: s) (c.toNat :: units)
  | escape {used s : Text} {n : ℕ} {units : List ℕ} (ne : used ≠ [])
      (space : used.getLast? ≠ some ' ') (quote : used.count '"' ≤ [n].count '"'.toNat)
      (rest : Spells s units) :
      Spells ('\\' :: (used ++ s)) (n :: units)

theorem spells_of_codeUnits (h : codeUnits s = some units) : Spells s units := by
  fun_induction codeUnits s generalizing units with
  | case1 =>
    cases h
    exact .nil
  | case2 h₁ h₂ h₃ h₄ s ih =>
    obtain ⟨n, hn, hunits⟩ := Option.bind_eq_some_iff.mp h
    obtain ⟨units', hs, rfl⟩ := Option.map_eq_some_iff.mp hunits
    refine @Spells.escape ['u', h₁, h₂, h₃, h₄] s n units' (by simp) ?_ ?_ (ih hs)
    · intro hlast
      simp only [List.getLast?_cons_cons, List.getLast?_singleton, Option.some.injEq] at hlast
      have hnone : hexValue ' ' = none := by decide
      simp [hexUnit, hlast, hnone] at hn
    · -- A quote is no hexadecimal digit.
      have hnone : hexValue '"' = none := by decide
      have hzero : ['u', h₁, h₂, h₃, h₄].count '"' = 0 := by
        rw [List.count_eq_zero]
        intro hmem
        simp only [List.mem_cons, List.not_mem_nil, or_false] at hmem
        rcases hmem with h | rfl | rfl | rfl | rfl
        · exact absurd h (by decide)
        all_goals simp [hexUnit, hnone] at hn
      omega
  | case3 e s _ ih =>
    obtain ⟨n, hn, hunits⟩ := Option.bind_eq_some_iff.mp h
    obtain ⟨units', hs, rfl⟩ := Option.map_eq_some_iff.mp hunits
    refine @Spells.escape [e] s n units' (by simp) ?_ ?_ (ih hs)
    · intro hlast
      simp only [List.getLast?_singleton, Option.some.injEq] at hlast
      have hnone : shortEscape ' ' = none := by decide
      rw [hlast, hnone] at hn
      cases hn
    · by_cases he : e = '"'
      · have hsome : shortEscape '"' = some '"'.toNat := by decide
        rw [he, hsome, Option.some.injEq] at hn
        rw [he, ← hn]
        decide
      · have hzero : [e].count '"' = 0 := by simp [he]
        omega
  | case4 => cases h
  | case5 c s hslash ih =>
    obtain ⟨units', hs, rfl⟩ := Option.map_eq_some_iff.mp h
    exact .plain hslash (ih hs)

/-- Units join to characters: a surrogate with the next one, any other unit alone. -/
inductive Joins : List ℕ → Text → Prop
  | nil : Joins [] []
  | one {n : ℕ} {units : List ℕ} {y : Text} (rest : Joins units y) :
      Joins (n :: units) (Char.ofNat n :: y)
  | two {n m : ℕ} {units : List ℕ} {c : Char} {y : Text} (high : IsHigh n) (low : IsLow m)
      (rest : Joins units y) : Joins (n :: m :: units) (c :: y)

theorem joins_of_ofUnits (h : ofUnits units = some y) : Joins units y := by
  fun_induction ofUnits units generalizing y with
  | case1 =>
    cases h
    exact .nil
  | case2 => cases h
  | case3 n hhigh m units hlow ih =>
    obtain ⟨y', hy, rfl⟩ := Option.map_eq_some_iff.mp h
    exact .two hhigh hlow (ih hy)
  | case4 => cases h
  | case5 => cases h
  | case6 n units hhigh hlow ih =>
    obtain ⟨y', hy, rfl⟩ := Option.map_eq_some_iff.mp h
    exact .one (ih hy)

/-- A character's code is no surrogate. -/
theorem not_isHigh_toNat (c : Char) : ¬ IsHigh c.toNat := by
  have hvalid : c.toNat < 0xD800 ∨ 0xDFFF < c.toNat ∧ c.toNat < 0x110000 := c.valid
  rintro ⟨hlow, hhigh⟩
  omega

theorem not_isLow_toNat (c : Char) : ¬ IsLow c.toNat := by
  have hvalid : c.toNat < 0xD800 ∨ 0xDFFF < c.toNat ∧ c.toNat < 0x110000 := c.valid
  rintro ⟨hlow, hhigh⟩
  omega

theorem ofUnits_toNat (c : Char) (units : List ℕ) :
    ofUnits (c.toNat :: units) = (ofUnits units).map (c :: ·) := by
  rw [ofUnits.eq_def]
  simp only [if_neg (not_isHigh_toNat c), if_neg (not_isLow_toNat c), Char.ofNat_toNat]

/-- There are at most as many units as characters in the body, and fewer with a backslash. -/
theorem Spells.length_le (h : Spells s units) :
    units.length ≤ s.length ∧ ('\\' ∈ s → units.length < s.length) := by
  induction h with
  | nil => simp
  | plain hslash _ ih =>
    simp only [List.length_cons]
    refine ⟨by omega, fun hmem => ?_⟩
    have := ih.2 ((List.mem_cons.mp hmem).resolve_left (Ne.symm hslash))
    omega
  | escape hne _ _ _ ih =>
    have hpos := List.length_pos_of_ne_nil hne
    simp only [List.length_cons, List.length_append]
    exact ⟨by omega, fun _ => by omega⟩

/-- A space at the end of a body is the last unit. -/
theorem Spells.getLast? (h : Spells s units) (hlast : s.getLast? = some ' ') :
    units.getLast? = some 0x20 := by
  induction h with
  | nil => cases hlast
  | @plain c s units _ hrest ih =>
    cases s with
    | nil =>
      simp only [List.getLast?_singleton, Option.some.injEq] at hlast
      cases hrest
      rw [hlast]
      rfl
    | cons d s =>
      rw [List.getLast?_cons, ih (by rwa [List.getLast?_cons_cons] at hlast)]
      rfl
  | @escape used s n units hne hspace _ hrest ih =>
    have hlast' : s.getLast? = some ' ' := by
      rw [List.getLast?_cons, List.getLast?_append] at hlast
      cases hs : s.getLast? with
      | none =>
        rw [hs, Option.none_or] at hlast
        cases hu : used.getLast? with
        | none => exact absurd (List.getLast?_eq_none_iff.mp hu) hne
        | some d =>
          rw [hu] at hlast
          exact absurd (hu.trans hlast) hspace
      | some d => simpa [hs] using hlast
    rw [List.getLast?_cons, ih hlast']
    rfl

/-- There are at least as many quotes among the units as in the body. -/
theorem Spells.count_le (h : Spells s units) : s.count '"' ≤ units.count '"'.toNat := by
  induction h with
  | nil => exact Nat.le_refl _
  | @plain c s units _ _ ih =>
    rw [List.count_cons, List.count_cons]
    by_cases hc : c = '"'
    · simpa [hc] using ih
    · have : (c == '"') = false := by simpa using hc
      rw [this]
      simp only [Bool.false_eq_true, ↓reduceIte]
      omega
  | @escape used s n units _ _ hquote _ ih =>
    rw [← List.singleton_append (x := n), List.count_append, List.count_cons, List.count_append]
    simp only [show ('\\' == '"') = false from rfl, Bool.false_eq_true, ↓reduceIte]
    omega

/-- There are at most as many characters as units. -/
theorem Joins.length_le (h : Joins units y) : y.length ≤ units.length := by
  induction h with
  | nil => exact Nat.le_refl _
  | one _ ih => simpa using ih
  | two _ _ _ ih =>
    simp only [List.length_cons]
    omega

/-- A unit that is the code of a character is that character. -/
theorem Joins.count_le (c : Char) (h : Joins units y) : units.count c.toNat ≤ y.count c := by
  have hsurrogate : ∀ n, IsHigh n ∨ IsLow n → (n == c.toNat) = false := by
    intro n hn
    rw [beq_eq_false_iff_ne]
    rintro rfl
    exact hn.elim (not_isHigh_toNat c) (not_isLow_toNat c)
  induction h with
  | nil => exact Nat.le_refl _
  | @one n units y _ ih =>
    rw [List.count_cons, List.count_cons]
    by_cases hn : n = c.toNat
    · simpa [hn] using ih
    · have : (n == c.toNat) = false := by simpa using hn
      rw [this]
      simp only [Bool.false_eq_true, ↓reduceIte]
      omega
  | @two n m units d y hhigh hlow _ ih =>
    rw [List.count_cons, List.count_cons, List.count_cons, hsurrogate n (.inl hhigh),
      hsurrogate m (.inr hlow)]
    simp only [Bool.false_eq_true, ↓reduceIte]
    omega

/-- The last unit is the last character, if it is the code of one. -/
theorem Joins.getLast? (c : Char) (h : Joins units y) (hlast : units.getLast? = some c.toNat) :
    y.getLast? = some c := by
  induction h with
  | nil => cases hlast
  | @one n units y hrest ih =>
    cases units with
    | nil =>
      simp only [List.getLast?_singleton, Option.some.injEq] at hlast
      cases hrest
      simp [hlast]
    | cons m units =>
      rw [List.getLast?_cons, ih (by rwa [List.getLast?_cons_cons] at hlast)]
      rfl
  | @two n m units d y _ hlow hrest ih =>
    cases units with
    | nil =>
      -- The last unit would be a low surrogate.
      simp only [List.getLast?_cons_cons, List.getLast?_singleton, Option.some.injEq] at hlast
      rw [hlast] at hlow
      exact absurd hlow (not_isLow_toNat c)
    | cons k units =>
      rw [List.getLast?_cons_cons, List.getLast?_cons_cons] at hlast
      rw [List.getLast?_cons, ih hlast]
      rfl

end Units

section Unescape

variable {c : Char} {body y : Text}

/-- A string is at most as long as its body. -/
theorem unescape_length (h : unescape body = some y) : y.length ≤ body.length := by
  obtain ⟨units, hunits, hy⟩ := Option.bind_eq_some_iff.mp h
  exact Nat.le_trans (joins_of_ofUnits hy).length_le (spells_of_codeUnits hunits).length_le.1

/-- A string has at least as many quotes as its body. -/
theorem unescape_count (h : unescape body = some y) : body.count '"' ≤ y.count '"' := by
  obtain ⟨units, hunits, hy⟩ := Option.bind_eq_some_iff.mp h
  exact Nat.le_trans (spells_of_codeUnits hunits).count_le ((joins_of_ofUnits hy).count_le '"')

theorem codeUnits_eq_map (h : '\\' ∉ body) : codeUnits body = some (body.map Char.toNat) := by
  induction body with
  | nil => rfl
  | cons c body ih =>
    rw [List.mem_cons, not_or] at h
    rw [codeUnits_plain (Ne.symm h.1), ih h.2]
    rfl

theorem ofUnits_map_toNat (y : Text) : ofUnits (y.map Char.toNat) = some y := by
  induction y with
  | nil => rfl
  | cons c y ih => rw [List.map_cons, ofUnits_toNat, ih, Option.map_some]

/-- A body stands for itself just if it has no backslash. -/
theorem unescape_eq_self_iff : unescape body = some body ↔ '\\' ∉ body := by
  constructor
  · intro h hmem
    obtain ⟨units, hunits, hy⟩ := Option.bind_eq_some_iff.mp h
    have hle := (joins_of_ofUnits hy).length_le
    have hlt := (spells_of_codeUnits hunits).length_le.2 hmem
    omega
  · intro h
    rw [unescape, codeUnits_eq_map h, Option.bind_some, ofUnits_map_toNat]

/-- A text between quotes is read back just if it is plain. -/
theorem readString_raw {u R r : Text} :
    readString (u ++ '"' :: R) = some (u, r) ↔ IsPlain u ∧ r = R := by
  constructor
  · intro h
    obtain ⟨⟨b, r'⟩, hb, hu⟩ := Option.bind_eq_some_iff.mp h
    obtain ⟨y, hy, heq⟩ := Option.map_eq_some_iff.mp hu
    simp only [Prod.mk.injEq] at heq
    obtain ⟨rfl, rfl⟩ := heq
    rcases stringBody_raw y hb with ⟨rfl, rfl⟩ | ⟨t, hcut, -⟩ | ⟨-, z, -, rfl⟩
    · exact ⟨isPlain_of_stringBody hb (unescape_eq_self_iff.mp hy), rfl⟩
    · -- What was read is too short.
      have hle : y.length ≤ b.length := unescape_length hy
      have hlength := congrArg List.length hcut
      simp only [List.length_append, List.length_cons] at hlength
      omega
    · -- What was read has too many quotes.
      have hle := unescape_count hy
      rw [List.count_append, List.count_cons_self] at hle
      omega
  · rintro ⟨hplain, rfl⟩
    have hslash : '\\' ∉ u := fun hmem => (hplain _ hmem).2.1 rfl
    rw [readString, stringBody_append hplain, Option.bind_some,
      unescape_eq_self_iff.mpr hslash, Option.map_some]

/-- A string begins as its body does, unless it is with an escape. -/
theorem unescape_head? (h : unescape (c :: body) = some y) (hslash : c ≠ '\\') :
    y.head? = some c := by
  obtain ⟨units, hunits, hy⟩ := Option.bind_eq_some_iff.mp h
  rw [codeUnits_plain hslash] at hunits
  obtain ⟨units', -, rfl⟩ := Option.map_eq_some_iff.mp hunits
  rw [ofUnits_toNat] at hy
  obtain ⟨y', -, rfl⟩ := Option.map_eq_some_iff.mp hy
  rfl

/-- A string ends with a space if its body does. -/
theorem unescape_getLast? (h : unescape body = some y) (hlast : body.getLast? = some ' ') :
    y.getLast? = some ' ' := by
  obtain ⟨units, hunits, hy⟩ := Option.bind_eq_some_iff.mp h
  exact (joins_of_ofUnits hy).getLast? ' ' ((spells_of_codeUnits hunits).getLast? hlast)

end Unescape

/-! ## Escapes are read back -/

section Escapes

variable {s : Text} {n : ℕ}

theorem hexValue_digitChar : ∀ d < 16, hexValue d.digitChar = some d := by
  decide

theorem hexUnit_digitChar (h : n < 0x10000) :
    hexUnit (n / 0x1000).digitChar (n / 0x100 % 0x10).digitChar (n / 0x10 % 0x10).digitChar
      (n % 0x10).digitChar = some n := by
  rw [hexUnit, hexValue_digitChar _ (by omega), hexValue_digitChar _ (by omega),
    hexValue_digitChar _ (by omega), hexValue_digitChar _ (by omega)]
  simp only [Option.bind_some, Option.map_some, Option.some.injEq]
  omega

/-- A digit is no quote, no backslash and no control character. -/
theorem digitChar_plain : ∀ d < 16,
    d.digitChar ≠ '"' ∧ d.digitChar ≠ '\\' ∧ ¬ d.digitChar.toNat < 0x20 := by
  decide

theorem stringBody_unicodeEscape (h : n < 0x10000) :
    stringBody (unicodeEscape n ++ s) =
      (stringBody s).map fun p => (unicodeEscape n ++ p.1, p.2) := by
  obtain ⟨h₁, h₁', h₁''⟩ := digitChar_plain (n / 0x1000) (by omega)
  obtain ⟨h₂, h₂', h₂''⟩ := digitChar_plain (n / 0x100 % 0x10) (by omega)
  obtain ⟨h₃, h₃', h₃''⟩ := digitChar_plain (n / 0x10 % 0x10) (by omega)
  obtain ⟨h₄, h₄', h₄''⟩ := digitChar_plain (n % 0x10) (by omega)
  rw [unicodeEscape]
  simp only [List.cons_append, List.nil_append]
  rw [stringBody_backslash, stringBody_plain h₁ h₁' h₁'', stringBody_plain h₂ h₂' h₂'',
    stringBody_plain h₃ h₃' h₃'', stringBody_plain h₄ h₄' h₄'']
  simp only [Option.map_map]
  rfl

theorem codeUnits_unicodeEscape (h : n < 0x10000) :
    codeUnits (unicodeEscape n ++ s) = (codeUnits s).map (n :: ·) := by
  rw [unicodeEscape, codeUnits.eq_def]
  simp only [List.cons_append, List.nil_append, ↓reduceIte]
  rw [hexUnit_digitChar h, Option.bind_some]

/-- Two units for a character behind the first plane, one for any other. -/
def utf16 (c : Char) : List ℕ :=
  if c.toNat < 0x10000 then [c.toNat]
  else [0xD800 + (c.toNat - 0x10000) / 0x400, 0xDC00 + (c.toNat - 0x10000) % 0x400]

theorem ofUnits_utf16 (c : Char) (units : List ℕ) :
    ofUnits (utf16 c ++ units) = (ofUnits units).map (c :: ·) := by
  rw [utf16]
  split
  · exact ofUnits_toNat c units
  · rename_i hplane
    have hvalid : c.toNat < 0xD800 ∨ 0xDFFF < c.toNat ∧ c.toNat < 0x110000 := c.valid
    have hhigh : IsHigh (0xD800 + (c.toNat - 0x10000) / 0x400) := ⟨by omega, by omega⟩
    have hlow : IsLow (0xDC00 + (c.toNat - 0x10000) % 0x400) := ⟨by omega, by omega⟩
    have hcode : 0x10000 + (0xD800 + (c.toNat - 0x10000) / 0x400 - 0xD800) * 0x400 +
        (0xDC00 + (c.toNat - 0x10000) % 0x400 - 0xDC00) = c.toNat := by omega
    rw [List.cons_append, List.singleton_append, ofUnits.eq_def]
    simp only [if_pos hhigh, if_pos hlow, hcode, Char.ofNat_toNat]

/-- A character is written as it is, by a letter behind a backslash, or by the number of its one
or two units. -/
theorem escapeChar_cases (c : Char) :
    (escapeChar c = [c] ∧ c ≠ '"' ∧ c ≠ '\\' ∧ ¬ c.toNat < 0x20 ∧ c.toNat < 0x10000) ∨
      (∃ e, escapeChar c = ['\\', e] ∧ shortEscape e = some c.toNat ∧ e ≠ 'u' ∧
        c.toNat < 0x10000) ∨
        (c.toNat < 0x10000 ∧ escapeChar c = unicodeEscape c.toNat) ∨
          (¬ c.toNat < 0x10000 ∧ escapeChar c =
            unicodeEscape (0xD800 + (c.toNat - 0x10000) / 0x400) ++
              unicodeEscape (0xDC00 + (c.toNat - 0x10000) % 0x400)) := by
  by_cases hquote : c = '"'
  · exact .inr (.inl ⟨'"', by rw [hquote]; decide⟩)
  by_cases hslash : c = '\\'
  · exact .inr (.inl ⟨'\\', by rw [hslash]; decide⟩)
  by_cases hn : c = '\n'
  · exact .inr (.inl ⟨'n', by rw [hn]; decide⟩)
  by_cases hr : c = '\r'
  · exact .inr (.inl ⟨'r', by rw [hr]; decide⟩)
  by_cases ht : c = '\t'
  · exact .inr (.inl ⟨'t', by rw [ht]; decide⟩)
  by_cases hf : c.toNat = 0x0C
  · exact .inr (.inl ⟨'f', by simp [escapeChar, hquote, hslash, hn, hr, ht, hf],
      by rw [hf]; decide, by decide, by omega⟩)
  by_cases hb : c.toNat = 0x08
  · exact .inr (.inl ⟨'b', by simp [escapeChar, hquote, hslash, hn, hr, ht, hb],
      by rw [hb]; decide, by decide, by omega⟩)
  by_cases hascii : 0x20 ≤ c.toNat ∧ c.toNat ≤ 0x7E
  · refine .inl ⟨?_, hquote, hslash, by omega, by omega⟩
    simp [escapeChar, hquote, hslash, hn, hr, ht, hf, hb, hascii]
  by_cases hplane : c.toNat < 0x10000
  · refine .inr (.inr (.inl ⟨hplane, ?_⟩))
    rw [escapeChar, if_neg hquote, if_neg hslash, if_neg hn, if_neg hr, if_neg ht, if_neg hf,
      if_neg hb, if_neg hascii, if_pos hplane]
  · refine .inr (.inr (.inr ⟨hplane, ?_⟩))
    rw [escapeChar, if_neg hquote, if_neg hslash, if_neg hn, if_neg hr, if_neg ht, if_neg hf,
      if_neg hb, if_neg hascii, if_neg hplane]

theorem stringBody_escapeChar (c : Char) :
    stringBody (escapeChar c ++ s) =
      (stringBody s).map fun p => (escapeChar c ++ p.1, p.2) := by
  have hvalid : c.toNat < 0xD800 ∨ 0xDFFF < c.toNat ∧ c.toNat < 0x110000 := c.valid
  rcases escapeChar_cases c with ⟨heq, hquote, hslash, hcontrol, -⟩ |
    ⟨e, heq, -⟩ | ⟨hplane, heq⟩ | ⟨hplane, heq⟩
  · rw [heq]
    exact stringBody_plain hquote hslash hcontrol
  · rw [heq]
    exact stringBody_backslash
  · rw [heq]
    exact stringBody_unicodeEscape hplane
  · rw [heq, List.append_assoc, stringBody_unicodeEscape (by omega),
      stringBody_unicodeEscape (by omega), Option.map_map]
    simp only [List.append_assoc]
    rfl

theorem codeUnits_escapeChar (c : Char) :
    codeUnits (escapeChar c ++ s) = (codeUnits s).map (utf16 c ++ ·) := by
  have hvalid : c.toNat < 0xD800 ∨ 0xDFFF < c.toNat ∧ c.toNat < 0x110000 := c.valid
  rcases escapeChar_cases c with ⟨heq, -, hslash, -, hplane⟩ | ⟨e, heq, he, hu, hplane⟩ |
    ⟨hplane, heq⟩ | ⟨hplane, heq⟩
  · rw [heq, List.singleton_append, codeUnits_plain hslash, utf16, if_pos hplane]
    rfl
  · rw [heq, utf16, if_pos hplane, codeUnits.eq_def]
    simp only [List.cons_append, List.nil_append, ↓reduceIte]
    split
    · rename_i hs
      exact absurd (List.cons.inj hs).1 hu
    · rename_i hs
      obtain ⟨rfl, rfl⟩ := List.cons.inj hs
      rw [he, Option.bind_some]
    · rename_i hs
      cases hs
  · rw [heq, codeUnits_unicodeEscape hplane, utf16, if_pos hplane]
    rfl
  · rw [heq, List.append_assoc, codeUnits_unicodeEscape (by omega),
      codeUnits_unicodeEscape (by omega), Option.map_map, utf16, if_neg hplane]
    rfl

end Escapes

variable {rest : Text}

theorem stringBody_escape (s : Text) :
    stringBody (s.flatMap escapeChar ++ '"' :: rest) = some (s.flatMap escapeChar, rest) := by
  induction s with
  | nil => exact stringBody_quote
  | cons c s ih =>
    rw [List.flatMap_cons, List.append_assoc, stringBody_escapeChar, ih, Option.map_some]

theorem codeUnits_escape (s : Text) :
    codeUnits (s.flatMap escapeChar) = some (s.flatMap utf16) := by
  induction s with
  | nil => rfl
  | cons c s ih =>
    rw [List.flatMap_cons, codeUnits_escapeChar, ih, Option.map_some, List.flatMap_cons]

theorem ofUnits_escape (s : Text) : ofUnits (s.flatMap utf16) = some s := by
  induction s with
  | nil => rfl
  | cons c s ih => rw [List.flatMap_cons, ofUnits_utf16, ih, Option.map_some]

/-- An escaped string is read back. -/
theorem readString_escape (s rest : Text) :
    readString (s.flatMap escapeChar ++ '"' :: rest) = some (s, rest) := by
  rw [readString, stringBody_escape, Option.bind_some, unescape, codeUnits_escape,
    Option.bind_some, ofUnits_escape, Option.map_some]

end Json
end VialQmk
