import VialQmk.Keymap.JsonRows

/-!
# JSON - line ends outside of layers

{lit}`KeymapJSONEncoder` drops a {lit}`JSON_NEWLINE` from each list at the second level, also
from one that is no layer.  There it is an element like any other, so it has to come back from
somewhere: out of the text of another element, which can have quotes and commas of its own.

Then that element must come back too, and its own text is too short to hold it.  So up to the
end of the row, what is still to be read stays ahead of what is left to read it from.

Main results:

- Theorem {lit}`not_ahead`: a row is not read as its elements with strings in front of them.
- Theorem {lit}`reads_rows`: the text of rows is faithful to the list itself just if it has no
  line ends.
-/

namespace VialQmk
namespace JsonEncoder

open Json

/-! ## One literal -/

/-- A string that is to be read from a row.  It does not end as the text between two elements
does. -/
structure IsPending (a : Text) : Prop where
  head : a.head? = some 'J' ∨ a.head? = some '\\'
  last : a.getLast? ≠ some ' '

/-- A string that is read from here would be the text between two elements. -/
def IsGap (R : Text) : Prop :=
  ∀ z r, stringBody R = some (z, r) → z.getLast? = some ' ' ∧ '"' ∉ z ∧ '\\' ∉ z

theorem isPending_jsonNewline : IsPending jsonNewline :=
  ⟨by decide, by decide⟩

section Literal

variable {u x y body R r s : Text} {a : Text}

/-- A body begins as the string it stands for, or with an escape. -/
theorem IsPending.head_of_unescape (ha : IsPending a) (h : unescape body = some a) :
    body.head? = some 'J' ∨ body.head? = some '\\' := by
  cases body with
  | nil =>
    have hle := unescape_length h
    rw [List.length_nil, Nat.le_zero, List.length_eq_zero_iff] at hle
    rw [hle] at ha
    exact absurd ha.head (by decide)
  | cons c body =>
    by_cases hc : c = '\\'
    · exact .inr (by rw [hc]; rfl)
    · have hhead := unescape_head? h hc
      have := ha.head
      rw [hhead] at this
      exact this

/-- What is read from behind a quote in a text, and how its body lies in the text. -/
theorem readString_cases (h : readString (u ++ '"' :: R) = some (y, r)) :
    ∃ body, unescape body = some y ∧
      ((body = u ∧ r = R) ∨ (∃ t, u = body ++ '"' :: t ∧ r = t ++ '"' :: R) ∨
        (u.getLast? = some '\\' ∧ ∃ z, stringBody R = some (z, r) ∧ body = u ++ '"' :: z)) := by
  obtain ⟨⟨body, r'⟩, hb, hu⟩ := Option.bind_eq_some_iff.mp h
  obtain ⟨y', hy, heq⟩ := Option.map_eq_some_iff.mp hu
  simp only [Prod.mk.injEq] at heq
  obtain ⟨rfl, rfl⟩ := heq
  exact ⟨body, hy, stringBody_raw u hb⟩

/-- A string read across the end of its text ends as the text between two elements. -/
theorem getLast?_of_crossing (hgap : IsGap R) {z : Text} (hz : stringBody R = some (z, r))
    (h : unescape (u ++ '"' :: z) = some y) : y.getLast? = some ' ' := by
  refine unescape_getLast? h ?_
  rw [List.getLast?_append, List.getLast?_cons, (hgap z r hz).1]
  rfl

/-- A quote or a comma is found in a text, or it is the quote behind it. -/
theorem skipBlanks_append_quote (t R : Text) :
    (∃ p c t', t = p ++ c :: t' ∧ (∀ b ∈ p, isBlank b = true) ∧
      skipBlanks (t ++ '"' :: R) = c :: (t' ++ '"' :: R)) ∨
      skipBlanks (t ++ '"' :: R) = '"' :: R := by
  induction t with
  | nil => exact .inr (skipBlanks_cons (by decide))
  | cons c t ih =>
    by_cases hc : isBlank c = true
    · have hskip : skipBlanks (c :: (t ++ '"' :: R)) = skipBlanks (t ++ '"' :: R) :=
        @skipBlanks_append [c] (by simpa using hc) _
      rw [List.cons_append, hskip]
      rcases ih with ⟨p, d, t', rfl, hp, h⟩ | h
      · exact .inl ⟨c :: p, d, t', rfl, List.forall_mem_cons.mpr ⟨hc, hp⟩, h⟩
      · exact .inr h
    · refine .inl ⟨[], c, t, rfl, by simp, ?_⟩
      rw [List.cons_append, skipBlanks_cons (by simpa using hc)]

variable {fuel : ℕ} {ws : List Value} {rest : List Object}

/-- The first string that is read from a text between quotes: it was read to the end of the
text, or only to a quote in the text. -/
theorem first_literal (hgap : IsGap R) (ha : IsPending a) (hrest : rest ≠ [])
    (hparse : parseElements fuel ('"' :: (u ++ '"' :: R)) = some (ws, r))
    (hws : List.Forall₂ Same (.str a :: rest) ws) :
    (u.head? = some 'J' ∨ u.head? = some '\\') ∧
      ∃ fuel' ws' s, List.Forall₂ Same rest ws' ∧ parseElements fuel' s = some (ws', r) ∧
        ((skipBlanks R = ',' :: s ∧ u.getLast? ≠ some ' ') ∨
          ∃ body t, u = body ++ '"' :: t ∧ skipBlanks (t ++ '"' :: R) = ',' :: s) := by
  cases hws with
  | @cons _ w _ ws hw hws =>
  rw [Same] at hw
  subst hw
  obtain ⟨fuel, w', r', rfl, hvalue, hnext⟩ := parseElements_iff.mp hparse
  obtain ⟨s, hs, hrest', rfl⟩ : ∃ s, skipBlanks r' = ',' :: s ∧
      parseElements fuel s = some (ws, r) ∧ w' = .str a := by
    rcases hnext with ⟨s, ws', hs, hmore, heq⟩ | ⟨-, heq⟩
    · obtain ⟨rfl, rfl⟩ := List.cons.inj heq
      exact ⟨s, hs, hmore, rfl⟩
    · rw [(List.cons.inj heq).2] at hws
      exact absurd (List.forall₂_nil_right_iff.mp hws) hrest
  obtain ⟨_, y, -, hread, hy⟩ := parseValue_quote_iff.mp hvalue
  rw [Value.str.injEq] at hy
  subst hy
  obtain ⟨body, hbody, ⟨rfl, rfl⟩ | ⟨t, rfl, rfl⟩ | ⟨-, z, hz, rfl⟩⟩ := readString_cases hread
  · refine ⟨ha.head_of_unescape hbody, fuel, ws, s, hws, hrest', .inl ⟨hs, ?_⟩⟩
    exact fun hlast => ha.last (unescape_getLast? hbody hlast)
  · refine ⟨?_, fuel, ws, s, hws, hrest', .inr ⟨body, t, rfl, hs⟩⟩
    have hhead := ha.head_of_unescape hbody
    cases body with
    | nil => exact absurd hhead (by decide)
    | cons c body => exact hhead
  · exact absurd (getLast?_of_crossing hgap hz hbody) ha.last

end Literal

/-! ## One keycode -/

section Keycode

variable {x R r : Text}

/-- A string whose text has a quote cannot be read from within this text. -/
theorem not_read_within (hgap : IsGap R) {body p u : Text}
    (hx : x = body ++ '"' :: (p ++ '"' :: u)) :
    readString (u ++ '"' :: R) ≠ some (x, r) := by
  intro hread
  obtain ⟨b, hb, hcases⟩ := readString_cases hread
  have hle := unescape_length hb
  have hlength := congrArg List.length hx
  simp only [List.length_append, List.length_cons] at hlength
  rcases hcases with ⟨rfl, -⟩ | ⟨t', hcut, -⟩ | ⟨hlast, z, hz, rfl⟩
  · omega
  · have hcut' := congrArg List.length hcut
    simp only [List.length_append, List.length_cons] at hcut'
    omega
  · -- It would end with a space, but the text ends with a backslash.
    have hspace := getLast?_of_crossing hgap hz hb
    have hx' : x = (body ++ '"' :: (p ++ ['"'])) ++ u := by
      rw [hx]
      simp
    rw [hx', List.getLast?_append, hlast, Option.some_or] at hspace
    exact absurd hspace (by decide)

variable {fuel : ℕ} {ws : List Value} {s t y : Text} {objects : List Object}

/-- The string that is read behind a quote in a text is read from a later quote in the text, or
it is the text between two elements. -/
theorem next_literal (hgap : IsGap R) (hs : skipBlanks (t ++ '"' :: R) = ',' :: s)
    (hparse : parseElements fuel s = some (ws, r))
    (hws : List.Forall₂ Same (.str y :: objects) ws) :
    (y.getLast? = some ' ' ∧ '"' ∉ y) ∨
      ∃ p u r', t = p ++ '"' :: u ∧ readString (u ++ '"' :: R) = some (y, r') ∧
        parseElements fuel ('"' :: (u ++ '"' :: R)) = some (ws, r) := by
  obtain ⟨p, c, t', rfl, -, hskip⟩ | hskip := skipBlanks_append_quote t R
  · rw [hskip] at hs
    obtain ⟨rfl, rfl⟩ := List.cons.inj hs
    cases hws with
    | @cons _ w _ ws hw hws =>
    rw [Same] at hw
    subst hw
    obtain ⟨fuel, w, r', rfl, hvalue, hnext⟩ := parseElements_iff.mp hparse
    obtain rfl : w = .str y := by
      rcases hnext with ⟨_, _, -, -, heq⟩ | ⟨-, heq⟩ <;>
        exact (List.cons.inj heq).1.symm
    obtain ⟨s', hs', hread⟩ := skipBlanks_of_str hvalue
    obtain ⟨p', c, u, rfl, hp', hskip'⟩ | hskip' := skipBlanks_append_quote t' R
    · rw [hskip'] at hs'
      obtain ⟨rfl, rfl⟩ := List.cons.inj hs'
      refine .inr ⟨p ++ ',' :: p', u, r', by simp, hread, ?_⟩
      rw [← hparse, List.append_assoc, parseElements_append hp']
      rfl
    · -- The quote behind the text opens the string.
      rw [hskip'] at hs'
      obtain ⟨-, rfl⟩ := List.cons.inj hs'
      obtain ⟨⟨z, r''⟩, hz, hmap⟩ := Option.bind_eq_some_iff.mp hread
      obtain ⟨y', hunescape, heq⟩ := Option.map_eq_some_iff.mp hmap
      simp only [Prod.mk.injEq] at heq
      obtain ⟨rfl, rfl⟩ := heq
      obtain ⟨hspace, hquote, hslash⟩ := hgap z _ hz
      have hself : unescape z = some z := unescape_eq_self_iff.mpr hslash
      obtain rfl : z = y' := Option.some.inj (hself.symm.trans hunescape)
      exact .inl ⟨hspace, hquote⟩
  · rw [hskip] at hs
    exact absurd (List.cons.inj hs).1 (by decide)

/-- Strings that are read from the text of a string, which is to follow them: the last of them
is read to the end of the text. -/
theorem read_through (hgap : IsGap R) {more : List Object} (n : ℕ) :
    ∀ {u pre : Text} {pend : List Text} {fuel : ℕ} {ws : List Value}, u.length = n →
      x = pre ++ u → pend ≠ [] → (∀ a ∈ pend, IsPending a) →
      parseElements fuel ('"' :: (u ++ '"' :: R)) = some (ws, r) →
      List.Forall₂ Same (pend.map Object.str ++ .str x :: more) ws →
      ∃ (fuel' : ℕ) (ws' : List Value) (pend' : List Text) (s : Text),
        skipBlanks R = ',' :: s ∧ parseElements fuel' s = some (ws', r) ∧
          List.Forall₂ Same (pend'.map Object.str ++ .str x :: more) ws' ∧
          (∀ a ∈ pend', IsPending a) ∧ x.getLast? ≠ some ' ' := by
  induction n using Nat.strongRecOn with
  | _ n ih =>
    intro u pre pend fuel ws hn hx hne hpend hparse hws
    cases pend with
    | nil => exact absurd rfl hne
    | cons a pend =>
    obtain ⟨ha, hpend⟩ := List.forall_mem_cons.mp hpend
    obtain ⟨hhead, fuel', ws', s, hws', hparse', ⟨hs, hlast⟩ | ⟨body, t, hu, hs⟩⟩ :=
      first_literal hgap ha (by simp) hparse hws
    · refine ⟨fuel', ws', pend, s, hs, hparse', hws', hpend, ?_⟩
      have hune : u ≠ [] := by
        rintro rfl
        exact absurd hhead (by decide)
      rw [hx, List.getLast?_append_of_ne_nil _ hune]
      exact hlast
    · cases pend with
      | nil =>
        -- The string itself is next.
        rcases next_literal hgap hs hparse' hws' with ⟨-, hquote⟩ | ⟨p, u', r', rfl, hread, -⟩
        · rw [hx, hu] at hquote
          exact absurd (by simp) hquote
        · refine absurd hread (@not_read_within x R r' hgap (pre ++ body) p u' ?_)
          rw [hx, hu]
          simp
      | cons b pend =>
        rcases next_literal hgap hs hparse' hws' with ⟨hspace, -⟩ | ⟨p, u', r', rfl, -, hparse''⟩
        · exact absurd hspace (hpend b List.mem_cons_self).last
        · have hlength : u'.length < n := by
            rw [← hn, hu]
            simp only [List.length_append, List.length_cons]
            omega
          have hx' : x = pre ++ body ++ '"' :: p ++ ['"'] ++ u' := by
            rw [hx, hu]
            simp
          exact ih u'.length hlength rfl hx' (by simp) hpend hparse'' hws'

end Keycode

/-! ## A row -/

section Row

variable {python : Python} {o : Options} {level : ℕ}

theorem stringBody_newline (s : Text) : stringBody ('\n' :: s) = none :=
  stringBody_control (by decide)

theorem stringBody_comma (s : Text) :
    stringBody (", ".toList ++ s) = (stringBody s).map fun p => (", ".toList ++ p.1, p.2) := by
  rw [show ", ".toList ++ s = ',' :: ' ' :: s from rfl,
    stringBody_plain (by decide) (by decide) (by decide),
    stringBody_plain (by decide) (by decide) (by decide), Option.map_map]
  rfl

/-- Between two keycodes of a row there is no quote, and a space is last. -/
theorem isGap_comma {row : List Object} {texts : List Text} (s : Text)
    (h : List.Forall₂ (fun v t => keycodeText python o level v = some t) row texts)
    (hne : texts ≠ []) : IsGap (", ".toList ++ (", ".toList.intercalate texts ++ '\n' :: s)) := by
  induction h with
  | nil => exact absurd rfl hne
  | @cons v t row texts ht htexts ih =>
    intro z r hz
    rw [stringBody_comma, Option.map_eq_some_iff] at hz
    obtain ⟨⟨z', r'⟩, hz', heq⟩ := hz
    simp only [Prod.mk.injEq] at heq
    obtain ⟨rfl, rfl⟩ := heq
    obtain ⟨rest, hrest, hgap⟩ : ∃ rest, ", ".toList.intercalate (t :: texts) ++ '\n' :: s =
        t ++ rest ∧ (rest = '\n' :: s ∨ IsGap rest) := by
      cases texts with
      | nil => exact ⟨_, by rw [List.intercalate_singleton], .inl rfl⟩
      | cons t' texts =>
        exact ⟨_, by rw [List.intercalate_cons_cons, List.append_assoc, List.append_assoc],
          .inr (ih (by simp))⟩
    rw [hrest] at hz'
    rcases keycodeText_cases ht with ⟨rfl, -⟩ | ⟨-, rfl | ⟨s', rfl⟩⟩
    · rw [List.cons_append, stringBody_quote, Option.some.injEq, Prod.mk.injEq] at hz'
      rw [← hz'.1]
      decide
    · -- An empty dictionary is passed over.
      rw [List.cons_append, List.singleton_append,
        stringBody_plain (by decide) (by decide) (by decide),
        stringBody_plain (by decide) (by decide) (by decide), Option.map_map,
        Option.map_eq_some_iff] at hz'
      obtain ⟨⟨z, r⟩, hz, heq⟩ := hz'
      simp only [Function.comp_apply, Prod.mk.injEq] at heq
      obtain ⟨rfl, rfl⟩ := heq
      rcases hgap with rfl | hgap
      · rw [stringBody_newline] at hz
        cases hz
      · obtain ⟨hspace, hquote, hslash⟩ := hgap z r hz
        refine ⟨?_, ?_, ?_⟩
        · rw [List.getLast?_append, List.getLast?_cons, List.getLast?_cons, hspace]
          rfl
        · simpa using hquote
        · simpa using hslash
    · rw [List.cons_append, stringBody_plain (by decide) (by decide) (by decide),
        List.cons_append, stringBody_newline] at hz'
      cases hz'

/-- What is put between quotes and begins like a string that is to be read is a string. -/
theorem eq_str_of_head {v : Object}
    (h : (python.formatted v).head? = some 'J' ∨ (python.formatted v).head? = some '\\') :
    v = .str (python.formatted v) := by
  by_cases hv : ∃ s, v = .str s
  · obtain ⟨s, rfl⟩ := hv
    rfl
  · have hne : ∀ s, v ≠ .str s := fun s hs => hv ⟨s, hs⟩
    obtain ⟨hJ, hslash⟩ := python.objectStr_head v hne
    have hformatted : python.formatted v = python.objectStr v := by
      cases v with
      | str s => exact absurd rfl (hne s)
      | _ => rfl
    rw [hformatted] at h
    exact absurd h (not_or.mpr ⟨hJ, hslash⟩)

/-- A row is not read as its elements with strings in front of them. -/
theorem not_ahead {row : List Object} {texts : List Text} {s r : Text}
    (h : List.Forall₂ (fun v t => keycodeText python o level v = some t) row texts)
    (hrow : row ≠ []) (hcomma : ∀ s', skipBlanks s ≠ ',' :: s') {pend : List Text}
    (hne : pend ≠ []) (hpend : ∀ a ∈ pend, IsPending a) {more : List Object} {fuel : ℕ}
    {ws : List Value}
    (hparse : parseElements fuel (", ".toList.intercalate texts ++ '\n' :: s) = some (ws, r))
    (hws : List.Forall₂ Same (pend.map Object.str ++ (row ++ more)) ws) : False := by
  induction h generalizing pend fuel ws with
  | nil => exact hrow rfl
  | @cons v t row texts ht htexts ih =>
    obtain ⟨a, pend', rfl⟩ := List.exists_cons_of_ne_nil hne
    obtain ⟨rest, hrest, hgap⟩ : ∃ rest, ", ".toList.intercalate (t :: texts) ++ '\n' :: s =
        t ++ rest ∧ IsGap rest ∧ ((texts = [] ∧ rest = '\n' :: s) ∨ (texts ≠ [] ∧
          rest = ", ".toList ++ (", ".toList.intercalate texts ++ '\n' :: s))) := by
      cases texts with
      | nil =>
        refine ⟨_, by rw [List.intercalate_singleton], fun z r hz => ?_, .inl ⟨rfl, rfl⟩⟩
        rw [stringBody_newline] at hz
        cases hz
      | cons t' texts =>
        exact ⟨_, by rw [List.intercalate_cons_cons, List.append_assoc, List.append_assoc],
          isGap_comma s htexts (by simp), .inr ⟨by simp, rfl⟩⟩
    rw [hrest] at hparse
    obtain ⟨hgap, hcases⟩ := hgap
    rcases keycodeText_cases ht with ⟨rfl, -⟩ | ⟨-, hbrace⟩
    · rw [List.cons_append, List.append_assoc, List.singleton_append] at hparse
      have hhead := (first_literal hgap (hpend a List.mem_cons_self) (by simp) hparse hws).1
      have hv := eq_str_of_head hhead
      rw [hv] at hws
      generalize python.formatted v = x at hparse hhead hws
      obtain ⟨fuel', ws', pend, s', hs', hparse', hws', hpend', hlast⟩ :=
        read_through hgap _ rfl (List.nil_append _).symm hne hpend hparse hws
      rcases hcases with ⟨-, rfl⟩ | ⟨htne, rfl⟩
      · exact hcomma s' hs'
      · obtain ⟨b, hb, hblank⟩ :=
          @skipBlanks_comma _ (", ".toList.intercalate texts ++ '\n' :: s) isComma_one
        rw [hb] at hs'
        obtain rfl := (List.cons.inj hs').2
        rw [← List.singleton_append, parseElements_append (by simpa using hblank)] at hparse'
        have hrow' : row ≠ [] := by
          rintro rfl
          cases htexts
          exact htne rfl
        have hpend'' : ∀ b ∈ pend ++ [x], IsPending b := by
          intro b hb
          rcases List.mem_append.mp hb with hb | hb
          · exact hpend' b hb
          · rw [List.mem_singleton.mp hb]
            exact ⟨hhead, hlast⟩
        exact ih hrow' (by simp) hpend'' hparse' (by simpa using hws')
    · -- A dictionary is read as one.
      obtain ⟨s', rfl⟩ : ∃ s', t = '{' :: s' := by
        rcases hbrace with rfl | ⟨s', rfl⟩
        · exact ⟨_, rfl⟩
        · exact ⟨_, rfl⟩
      obtain ⟨fuel, w, r', rfl, hvalue, hnext⟩ := parseElements_iff.mp hparse
      obtain ⟨ws', rfl⟩ : ∃ ws', ws = w :: ws' := by
        rcases hnext with ⟨_, ws', -, -, rfl⟩ | ⟨-, rfl⟩
        · exact ⟨ws', rfl⟩
        · exact ⟨[], rfl⟩
      obtain ⟨hw, -⟩ := List.forall₂_cons.mp hws
      rw [Same] at hw
      rw [List.cons_append] at hvalue
      obtain ⟨_, -, ⟨-, hdict⟩ | ⟨ms, -, hdict⟩⟩ := parseValue_dict_iff.mp hvalue
      · rw [hw] at hdict
        cases hdict
      · rw [hw] at hdict
        cases hdict

end Row

/-! ## Rows outside of layers -/

section Lists

variable {python : Python} {o : Options} {level : ℕ} {G : Object → Prop} {vs : List Object}
  {rows : List (List Text)}

/-- A keycode's text, which is faithful. -/
def IsText (python : Python) (o : Options) (level : ℕ) (G : Object → Prop) (v : Object)
    (t : Text) : Prop :=
  IsKeycode G v t ∧ keycodeText python o level v = some t

theorem forall₂_isKeycode {row : List (List Object)}
    (h : List.Forall₂ (List.Forall₂ (IsText python o level G)) row rows) :
    List.Forall₂ (List.Forall₂ (IsKeycode G)) row rows :=
  h.imp fun _ _ hrow => hrow.imp fun _ _ ht => ht.1

theorem eq_str_of_isNewline {v : Object} (h : v.isNewline = true) : v = .str jsonNewline := by
  cases v with
  | str s =>
    simp only [Object.isNewline, decide_eq_true_eq] at h
    rw [h]
  | _ => cases h

/-- The first row is followed by a line end, or by nothing. -/
theorem eq_append_of_rowsOf {row : List Object} {rest : List (List Object)}
    (h : rowsOf vs = row :: rest) :
    ∃ more, vs = row ++ more ∧ (∀ v ∈ row, v.isNewline = false) ∧
      ∀ v ∈ more.head?, v.isNewline = true := by
  induction vs generalizing row rest with
  | nil =>
    rw [rowsOf] at h
    rw [← (List.cons.inj h).1]
    exact ⟨[], rfl, by simp, by simp⟩
  | cons v vs ih =>
    rw [rowsOf] at h
    split at h
    · rename_i hv
      rw [← (List.cons.inj h).1]
      exact ⟨v :: vs, rfl, by simp, by simpa using hv⟩
    · rename_i hv
      cases hrows : rowsOf vs with
      | nil => exact absurd hrows (rowsOf_ne_nil vs)
      | cons row' rest' =>
        rw [hrows] at h
        obtain ⟨more, rfl, hrow, hmore⟩ := ih hrows
        rw [← (List.cons.inj h).1]
        exact ⟨more, rfl, List.forall_mem_cons.mpr ⟨by simpa using hv, hrow⟩, hmore⟩

/-- Without line ends there is one row. -/
theorem rowsOf_of_no_newline (h : ∀ v ∈ vs, v.isNewline = false) : rowsOf vs = [vs] := by
  induction vs with
  | nil => rfl
  | cons v vs ih =>
    obtain ⟨hv, hvs⟩ := List.forall_mem_cons.mp h
    rw [rowsOf, if_neg (by simp [hv]), ih hvs]
    rfl

/-- Rows are not read as a list with line ends. -/
theorem not_newlines {lead stop rest r : Text} (hlead : ∀ c ∈ lead, isBlank c = true)
    (hclose : skipBlanks stop = ']' :: rest)
    (h : List.Forall₂ (List.Forall₂ (IsText python o level G)) (rowsOf vs) rows)
    {pend : List Text} (hpend : ∀ a ∈ pend, IsPending a)
    (hnewline : pend ≠ [] ∨ ∃ v ∈ vs, v.isNewline = true) {fuel : ℕ} {ws : List Value}
    (hparse : parseElements fuel (rowsText lead stop rows) = some (ws, r))
    (hws : List.Forall₂ Same (pend.map Object.str ++ vs) ws) : False := by
  induction vs generalizing rows pend with
  | nil =>
    rw [rowsOf] at h
    cases h with
    | cons hrow hrest =>
    cases hrow
    cases hrest
    rw [rowsText, parseElements_append hlead, List.intercalate_nil, List.nil_append,
      parseElements_newline, rowsText, parseElements_close hclose] at hparse
    cases hparse
  | cons v vs ih =>
    by_cases hv : v.isNewline = true
    · -- The line end is to be read from the rows behind it.
      rw [rowsOf, if_pos hv] at h
      cases h with
      | @cons _ texts _ rows hrow hrest =>
      cases hrow
      rw [rowsText, parseElements_append hlead, List.intercalate_nil, List.nil_append,
        parseElements_newline] at hparse
      rw [eq_str_of_isNewline hv] at hws
      have hpend' : ∀ a ∈ pend ++ [jsonNewline], IsPending a := by
        intro a ha
        rcases List.mem_append.mp ha with ha | ha
        · exact hpend a ha
        · rw [List.mem_singleton.mp ha]
          exact isPending_jsonNewline
      exact ih hrest hpend' (.inl (by simp)) hparse (by simpa using hws)
    · cases hrows : rowsOf (v :: vs) with
      | nil => exact absurd hrows (rowsOf_ne_nil _)
      | cons row objects =>
        obtain ⟨more, hmore, hrow, hhead⟩ := eq_append_of_rowsOf hrows
        have hne : row ≠ [] := by
          rintro rfl
          rw [List.nil_append] at hmore
          rw [← hmore] at hhead
          exact hv (hhead v rfl)
        rw [hrows] at h
        cases h with
        | @cons _ texts _ rows htexts hrest =>
        have hcomma := no_comma_behind hlead hclose (forall₂_isKeycode hrest)
        rw [rowsText, parseElements_append hlead] at hparse
        by_cases hpendne : pend = []
        · rw [hpendne, List.map_nil, List.nil_append, hmore] at hws
          have hsplit : ws = ws.take row.length ++ ws.drop row.length :=
            (List.take_append_drop _ _).symm
          have hfirst := List.forall₂_take row.length hws
          have hsecond := List.forall₂_drop row.length hws
          rw [List.take_left] at hfirst
          rw [List.drop_left] at hsecond
          rw [hsplit] at hparse
          obtain ⟨-, hnil, -⟩ := parseElements_back isComma_one
            (htexts.imp fun _ _ ht => ht.1.1) hne (delimited_line _) hcomma hparse hfirst
          rw [hnil] at hsecond
          obtain rfl : more = [] := List.forall₂_nil_right_iff.mp hsecond
          rw [List.append_nil] at hmore
          obtain ⟨u, hu, hunewline⟩ := hnewline.resolve_left (not_not.mpr hpendne)
          rw [hmore] at hu
          rw [hrow u hu] at hunewline
          cases hunewline
        · rw [hmore] at hws
          have hcomma' : ∀ s, skipBlanks (rowsText lead stop rows) ≠ ',' :: s := hcomma
          exact not_ahead (htexts.imp fun _ _ ht => ht.2) hne hcomma' hpendne hpend hparse hws

/-- Outside of layers the text of rows is faithful to the list, if it has no line ends. -/
theorem reads_rows (h : List.Forall₂ (List.Forall₂ (IsText python o level G)) (rowsOf vs) rows) :
    Reads (o.layer level rows) (fun w => ∃ ws, w = .list ws ∧ List.Forall₂ Same vs ws)
      ((∀ v ∈ vs, v.isNewline = false) ∧ ∀ v ∈ vs, G v) := by
  have hlayer := @reads_layer o level G vs rows (forall₂_isKeycode h)
  by_cases hall : ∀ v ∈ vs, v.isNewline = false
  · have hfilter : (vs.filter fun v => !v.isNewline) = vs :=
      List.filter_eq_self.mpr fun v hv => by simp [hall v hv]
    have hone : IsOneRow vs := by
      rw [IsOneRow, rowsOf_of_no_newline hall]
      exact List.length_filter_le _ [vs]
    rw [hfilter] at hlayer
    exact hlayer.congr (fun _ => Iff.rfl) ⟨fun hg => ⟨hall, hg.2⟩, fun hg => ⟨hone, hg.2⟩⟩
  · constructor
    · exact fun hg => absurd hg.1 hall
    · rintro rest - fuel w r hparse ⟨ws, rfl, hws⟩
      have hne : rows ≠ [] := by
        rintro rfl
        exact rowsOf_ne_nil vs (List.forall₂_nil_right_iff.mp h)
      rw [layer_append hne, parseValue_append isBlank_indentStr] at hparse
      have hexists : ∃ v ∈ vs, v.isNewline = true := by
        simpa using hall
      obtain ⟨fuel, rfl, ⟨-, heq⟩ | ⟨ws', hparse, heq⟩⟩ := parseValue_list_iff.mp hparse
      · simp only [Value.list.injEq] at heq
        rw [heq] at hws
        obtain ⟨v, hv, -⟩ := hexists
        rw [List.forall₂_nil_right_iff.mp hws] at hv
        cases hv
      · simp only [Value.list.injEq] at heq
        subst heq
        rw [parseElements_newline] at hparse
        have hclose : skipBlanks (times level (o.indentStr level) ++ ']' :: rest) =
            ']' :: rest := by
          rw [skipBlanks_append (isBlank_times isBlank_indentStr), skipBlanks_cons (by decide)]
        have hnil : ∀ a ∈ ([] : List Text), IsPending a := by simp
        exact (not_newlines (isBlank_times isBlank_indentStr) hclose h hnil (.inr hexists) hparse
          hws).elim

end Lists

end JsonEncoder
end VialQmk
