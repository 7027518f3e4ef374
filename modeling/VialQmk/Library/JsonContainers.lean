import Mathlib.Data.List.Nodup
import VialQmk.Library.JsonReader

/-!
# Lists and dictionaries of JSON

A list is written as its elements with commas between them, in brackets; a dictionary as keys
and values, in braces.  If the text of each element is faithful, so is the text of the list.
Read back from the other side: a list whose elements have their properties is read element by
element where they were written, so nothing in one of them was taken for the end of it.

A dictionary has the keys it should, each with a value of its property, in whatever order.

Main results:

- Theorem {lit}`Reads.list`: a list of faithful texts is faithful.
- Theorem {lit}`Reads.dict`: so is a dictionary with each of its keys once.
- Theorem {lit}`parseElements_back`: how far the elements of a list are read.
-/

namespace VialQmk
namespace Json

/-- What stands between two elements. -/
def IsComma (sep : Text) : Prop :=
  ∃ b, sep = [',', b] ∧ isBlank b = true

theorem parseElements_append {fuel : ℕ} {blanks : Text}
    (h : ∀ c ∈ blanks, isBlank c = true) (s : Text) :
    parseElements fuel (blanks ++ s) = parseElements fuel s := by
  cases fuel with
  | zero => rfl
  | succ fuel => rw [parseElements, parseElements, parseValue_append h]

theorem parseMembers_append {fuel : ℕ} {blanks : Text}
    (h : ∀ c ∈ blanks, isBlank c = true) (s : Text) :
    parseMembers fuel (blanks ++ s) = parseMembers fuel s := by
  cases fuel with
  | zero => rfl
  | succ fuel => rw [parseMembers, parseMembers, skipBlanks_append h]

theorem delimited_comma {sep s : Text} (h : IsComma sep) : Delimited (sep ++ s) := by
  obtain ⟨b, rfl, -⟩ := h
  intro c hc
  simp only [List.cons_append, List.head?_cons, Option.mem_def, Option.some.injEq] at hc
  rw [← hc]
  decide

theorem skipBlanks_comma {sep s : Text} (h : IsComma sep) :
    ∃ b, skipBlanks (sep ++ s) = ',' :: b :: s ∧ isBlank b = true := by
  obtain ⟨b, rfl, hb⟩ := h
  exact ⟨b, skipBlanks_cons (by decide), hb⟩

/-- Blanks and a bracket or a brace that closes may stand behind a value. -/
theorem delimited_close {blanks rest : Text} (hblanks : ∀ c ∈ blanks, isBlank c = true)
    {d : Char} (hd : isNumeral d = false) : Delimited (blanks ++ d :: rest) := by
  intro c hc
  cases blanks with
  | nil =>
    simp only [List.nil_append, List.head?_cons, Option.mem_def, Option.some.injEq] at hc
    rwa [← hc]
  | cons b blanks =>
    have hb := hblanks b List.mem_cons_self
    simp only [List.cons_append, List.head?_cons, Option.mem_def, Option.some.injEq] at hc
    rw [← hc]
    simp only [isBlank, Bool.or_eq_true, decide_eq_true_eq] at hb
    rcases hb with ((rfl | rfl) | rfl) | rfl <;> decide

theorem exists_of_forall₂ {α β : Type} {R : α → β → Prop} {as : List α} {bs : List β}
    (h : List.Forall₂ R as bs) {a : α} (ha : a ∈ as) : ∃ b ∈ bs, R a b := by
  induction h with
  | nil => cases ha
  | cons hab _ ih =>
    rcases List.mem_cons.mp ha with rfl | ha
    · exact ⟨_, List.mem_cons_self, hab⟩
    · obtain ⟨b, hb, hR⟩ := ih ha
      exact ⟨b, List.mem_cons_of_mem _ hb, hR⟩

/-! ## Lists -/

section Elements

variable {α : Type} {S : α → Value → Prop} {G : α → Prop} {as : List α} {ts : List Text}
  {sep tail : Text}

/-- Elements whose conditions hold are read up to the closing bracket. -/
theorem parseElements_forward (hsep : IsComma sep)
    (h : List.Forall₂ (fun a t => Reads t (S a) (G a)) as ts) (hne : as ≠ [])
    (hG : ∀ a ∈ as, G a) {rest : Text} (htail : Delimited tail)
    (hclose : skipBlanks tail = ']' :: rest) {fuel : ℕ}
    (hfuel : 2 * ((sep.intercalate ts).length + tail.length) + 1 < fuel) :
    ∃ ws, parseElements fuel (sep.intercalate ts ++ tail) = some (ws, rest) ∧
      List.Forall₂ S as ws := by
  induction h generalizing fuel with
  | nil => exact absurd rfl hne
  | @cons a t as ts hread htexts ih =>
    obtain ⟨fuel, rfl⟩ : ∃ k, fuel = k + 1 := ⟨fuel - 1, by omega⟩
    have hga := hG a List.mem_cons_self
    cases htexts with
    | nil =>
      rw [List.intercalate_singleton] at hfuel ⊢
      have hfuel' : 2 * (t.length + tail.length) < fuel := by omega
      obtain ⟨w, hparse, hw⟩ := hread.forward hga htail hfuel'
      exact ⟨[w], parseElements_iff.mpr ⟨fuel, w, tail, rfl, hparse, .inr ⟨hclose, rfl⟩⟩,
        .cons hw .nil⟩
    | @cons a' t' as ts hread' htexts =>
      rw [List.intercalate_cons_cons] at hfuel ⊢
      rw [List.append_assoc, List.append_assoc]
      obtain ⟨b, hcomma, hb⟩ := @skipBlanks_comma sep (sep.intercalate (t' :: ts) ++ tail) hsep
      have hlength : sep.length = 2 := by
        obtain ⟨b, rfl, -⟩ := hsep
        rfl
      simp only [List.length_append] at hfuel
      have hfuel₁ : 2 * (t.length + (sep ++ (sep.intercalate (t' :: ts) ++ tail)).length) <
          fuel := by
        simp only [List.length_append]
        omega
      have hfuel₂ : 2 * ((sep.intercalate (t' :: ts)).length + tail.length) + 1 < fuel := by
        omega
      obtain ⟨w, hparse, hw⟩ := hread.forward hga (delimited_comma hsep) hfuel₁
      obtain ⟨ws, hparses, hws⟩ :=
        ih (by simp) (fun a ha => hG a (List.mem_cons_of_mem _ ha)) hfuel₂
      refine ⟨w :: ws, parseElements_iff.mpr ⟨fuel, w, _, rfl, hparse, .inl ⟨_, ws, hcomma, ?_,
        rfl⟩⟩, .cons hw hws⟩
      rw [← List.singleton_append, parseElements_append (by simpa using hb), hparses]

/-- If the values read first have the properties of the elements, they were read from the
elements' own texts, and nothing is read behind them. -/
theorem parseElements_back (hsep : IsComma sep)
    (h : List.Forall₂ (fun a t => Reads t (S a) (G a)) as ts) (hne : as ≠ [])
    (htail : Delimited tail) (hcomma : ∀ s, skipBlanks tail ≠ ',' :: s) {fuel : ℕ}
    {ws ws' : List Value} {r : Text}
    (hparse : parseElements fuel (sep.intercalate ts ++ tail) = some (ws ++ ws', r))
    (hws : List.Forall₂ S as ws) :
    (∀ a ∈ as, G a) ∧ ws' = [] ∧ skipBlanks tail = ']' :: r := by
  induction h generalizing fuel ws with
  | nil => exact absurd rfl hne
  | @cons a t as ts hread htexts ih =>
    cases hws with
    | @cons _ w _ ws hw hws =>
    obtain ⟨fuel, w', r', rfl, hvalue, hnext⟩ := parseElements_iff.mp hparse
    cases htexts with
    | nil =>
      cases hws
      rw [List.intercalate_singleton] at hvalue
      obtain rfl : w = w' := by
        rcases hnext with ⟨_, _, -, -, heq⟩ | ⟨-, heq⟩ <;>
          exact (List.cons.inj heq).1
      obtain ⟨hga, rfl⟩ := hread.back htail hvalue hw
      rcases hnext with ⟨s, _, hs, -⟩ | ⟨hclose, heq⟩
      · exact absurd hs (hcomma s)
      · exact ⟨by simpa using hga, (List.cons.inj heq).2, hclose⟩
    | @cons a' t' as ts hread' htexts =>
      rw [List.intercalate_cons_cons, List.append_assoc, List.append_assoc] at hvalue
      obtain rfl : w = w' := by
        rcases hnext with ⟨_, _, -, -, heq⟩ | ⟨-, heq⟩ <;>
          exact (List.cons.inj heq).1
      obtain ⟨hga, rfl⟩ := hread.back (delimited_comma hsep) hvalue hw
      obtain ⟨b, hb, hblank⟩ := @skipBlanks_comma sep (sep.intercalate (t' :: ts) ++ tail) hsep
      rcases hnext with ⟨s, ws'', hs, hrest, heq⟩ | ⟨hclose, -⟩
      · rw [hb] at hs
        obtain rfl := (List.cons.inj hs).2
        rw [← List.singleton_append, parseElements_append (by simpa using hblank),
          ← (List.cons.inj heq).2] at hrest
        obtain ⟨hG, hend⟩ := ih (by simp) hrest hws
        exact ⟨List.forall_mem_cons.mpr ⟨hga, hG⟩, hend⟩
      · rw [hb] at hclose
        simp at hclose

theorem Reads.list (hsep : IsComma sep)
    (h : List.Forall₂ (fun a t => Reads t (S a) (G a)) as ts) {blanks : Text}
    (hblanks : ∀ c ∈ blanks, isBlank c = true) :
    Reads ('[' :: (sep.intercalate ts ++ (blanks ++ [']'])))
      (fun w => ∃ ws, w = .list ws ∧ List.Forall₂ S as ws) (∀ a ∈ as, G a) := by
  have hdelimited : ∀ rest, Delimited (blanks ++ ']' :: rest) :=
    fun rest => delimited_close hblanks (by decide)
  have hclose : ∀ rest, skipBlanks (blanks ++ ']' :: rest) = ']' :: rest := by
    intro rest
    rw [skipBlanks_append hblanks, skipBlanks_cons (by decide)]
  constructor
  · intro hG rest hrest fuel hfuel
    simp only [List.length_cons, List.length_append, List.length_nil] at hfuel
    obtain ⟨fuel, rfl⟩ : ∃ k, fuel = k + 1 := ⟨fuel - 1, by omega⟩
    rw [List.cons_append, List.append_assoc, List.append_assoc, List.singleton_append]
    cases h with
    | nil =>
      refine ⟨.list [], parseValue_list_iff.mpr ⟨fuel, rfl, .inl ⟨?_, rfl⟩⟩, [], rfl, .nil⟩
      rw [List.intercalate_nil, List.nil_append, hclose]
    | @cons a t as ts hread htexts =>
      have hfuel' : 2 * ((sep.intercalate (t :: ts)).length +
          (blanks ++ ']' :: rest).length) + 1 < fuel := by
        simp only [List.length_append, List.length_cons]
        omega
      obtain ⟨ws, hparse, hws⟩ := parseElements_forward hsep (.cons hread htexts) (by simp) hG
        (hdelimited rest) (hclose rest) hfuel'
      exact ⟨.list ws, parseValue_list_iff.mpr ⟨fuel, rfl, .inr ⟨ws, hparse, rfl⟩⟩, ws, rfl, hws⟩
  · rintro rest hrest fuel w r hparse ⟨ws, rfl, hws⟩
    rw [List.cons_append, List.append_assoc, List.append_assoc, List.singleton_append] at hparse
    obtain ⟨fuel, rfl, ⟨hempty, heq⟩ | ⟨ws', hparse, heq⟩⟩ := parseValue_list_iff.mp hparse
    · simp only [Value.list.injEq] at heq
      rw [heq] at hws
      cases hws
      cases h
      rw [List.intercalate_nil, List.nil_append, hclose] at hempty
      simp only [List.cons.injEq, true_and] at hempty
      exact ⟨by simp, hempty.symm⟩
    · simp only [Value.list.injEq] at heq
      subst heq
      cases h with
      | nil =>
        rw [List.intercalate_nil, List.nil_append, parseElements_close (hclose rest)] at hparse
        cases hparse
      | cons hread htexts =>
        rw [← List.append_nil ws] at hparse
        obtain ⟨hG, -, hend⟩ := parseElements_back hsep (.cons hread htexts) (by simp)
          (hdelimited rest) (by simp [hclose]) hparse hws
        rw [hclose] at hend
        exact ⟨hG, (List.cons.inj hend).2.symm⟩

end Elements

/-- Blanks behind an opening bracket or brace are skipped. -/
theorem parseValue_open {c : Char} (hc : c = '[' ∨ c = '{') {fuel : ℕ} {blanks : Text}
    (h : ∀ c ∈ blanks, isBlank c = true) (s : Text) :
    parseValue fuel (c :: (blanks ++ s)) = parseValue fuel (c :: s) := by
  cases fuel with
  | zero => rfl
  | succ fuel =>
    rcases hc with rfl | rfl <;>
      rw [parseValue, parseValue, skipBlanks_cons (by decide), skipBlanks_cons (by decide)] <;>
      simp only [Char.reduceEq, ↓reduceIte, skipBlanks_append h, parseElements_append h,
        parseMembers_append h]

theorem Reads.inside {c : Char} (hc : c = '[' ∨ c = '{') {blanks t : Text}
    (h : ∀ c ∈ blanks, isBlank c = true) {S : Value → Prop} {G : Prop}
    (hread : Reads (c :: t) S G) : Reads (c :: (blanks ++ t)) S G where
  forward hG rest hrest fuel hfuel := by
    rw [List.cons_append, List.append_assoc, parseValue_open hc h]
    simp only [List.length_cons, List.length_append] at hfuel
    exact hread.forward hG hrest (by rw [List.length_cons]; omega)
  back {rest} hrest {fuel w r} hparse hS := by
    rw [List.cons_append, List.append_assoc, parseValue_open hc h] at hparse
    exact hread.back hrest hparse hS

/-! ## Dictionaries -/

/-- The text of a key and its value, with blanks in front. -/
def IsMember (key : Text) (S : Value → Prop) (G : Prop) (m : Text) : Prop :=
  ∃ blanks t, (∀ c ∈ blanks, isBlank c = true) ∧
    m = blanks ++ (quote key ++ ':' :: ' ' :: t) ∧ Reads t S G

section Members

variable {α : Type} {key : α → Text} {S : α → Value → Prop} {G : α → Prop} {as : List α}
  {ts : List Text} {sep tail : Text}

/-- A key is read, and its value is next. -/
theorem parseMembers_member_iff {blanks t s : Text} (hblanks : ∀ c ∈ blanks, isBlank c = true)
    {k : Text} {fuel : ℕ} {ms : List (Text × Value)} {r : Text} :
    parseMembers fuel (blanks ++ (quote k ++ ':' :: ' ' :: t) ++ s) = some (ms, r) ↔
      ∃ fuel' w r', fuel = fuel' + 1 ∧ parseValue fuel' (t ++ s) = some (w, r') ∧
        ((∃ s' ms', skipBlanks r' = ',' :: s' ∧ parseMembers fuel' s' = some (ms', r) ∧
          ms = (k, w) :: ms') ∨ (skipBlanks r' = '}' :: r ∧ ms = [(k, w)])) := by
  have hquote : skipBlanks (quote k ++ ':' :: ' ' :: t ++ s) =
      '"' :: (k.flatMap escapeChar ++ '"' :: (':' :: ' ' :: (t ++ s))) := by
    rw [quote, List.cons_append, List.cons_append, skipBlanks_cons (by decide)]
    simp
  have hcolon : skipBlanks (':' :: ' ' :: (t ++ s)) = ':' :: ' ' :: (t ++ s) :=
    skipBlanks_cons (by decide)
  have hvalue : ∀ fuel, parseValue fuel (' ' :: (t ++ s)) = parseValue fuel (t ++ s) :=
    fun fuel => @parseValue_append fuel [' '] (by simp [isBlank]) (t ++ s)
  rw [List.append_assoc, parseMembers_append hblanks, parseMembers_iff]
  constructor
  · rintro ⟨fuel', s₁, k', s₂, s₃, w, r', rfl, hs₁, hkey, hs₃, hparse, hnext⟩
    rw [hquote] at hs₁
    obtain rfl := (List.cons.inj hs₁).2
    rw [readString_escape] at hkey
    simp only [Option.some.injEq, Prod.mk.injEq] at hkey
    obtain ⟨rfl, rfl⟩ := hkey
    rw [hcolon] at hs₃
    obtain rfl := (List.cons.inj hs₃).2
    rw [hvalue] at hparse
    exact ⟨fuel', w, r', rfl, hparse, hnext⟩
  · rintro ⟨fuel', w, r', rfl, hparse, hnext⟩
    exact ⟨fuel', _, k, _, _, w, r', rfl, hquote, readString_escape _ _, hcolon,
      by rw [hvalue, hparse], hnext⟩

theorem parseMembers_forward (hsep : IsComma sep)
    (h : List.Forall₂ (fun a m => IsMember (key a) (S a) (G a) m) as ts) (hne : as ≠ [])
    (hG : ∀ a ∈ as, G a) {rest : Text} (htail : Delimited tail)
    (hclose : skipBlanks tail = '}' :: rest) {fuel : ℕ}
    (hfuel : 2 * ((sep.intercalate ts).length + tail.length) + 1 < fuel) :
    ∃ ms, parseMembers fuel (sep.intercalate ts ++ tail) = some (ms, rest) ∧
      List.Forall₂ (fun a p => p.1 = key a ∧ S a p.2) as ms := by
  induction h generalizing fuel with
  | nil => exact absurd rfl hne
  | @cons a m as ts hmember htexts ih =>
    obtain ⟨fuel, rfl⟩ : ∃ k, fuel = k + 1 := ⟨fuel - 1, by omega⟩
    have hga := hG a List.mem_cons_self
    obtain ⟨blanks, t, hblanks, rfl, hread⟩ := hmember
    cases htexts with
    | nil =>
      rw [List.intercalate_singleton] at hfuel ⊢
      simp only [List.length_append, List.length_cons] at hfuel
      have hfuel' : 2 * (t.length + tail.length) < fuel := by omega
      obtain ⟨w, hparse, hw⟩ := hread.forward hga htail hfuel'
      exact ⟨[(key a, w)], (parseMembers_member_iff hblanks).mpr
        ⟨fuel, w, tail, rfl, hparse, .inr ⟨hclose, rfl⟩⟩, .cons ⟨rfl, hw⟩ .nil⟩
    | @cons a' m' as ts hmember' htexts =>
      rw [List.intercalate_cons_cons] at hfuel ⊢
      rw [List.append_assoc, List.append_assoc]
      obtain ⟨b, hcomma, hb⟩ := @skipBlanks_comma sep (sep.intercalate (m' :: ts) ++ tail) hsep
      have hlength : sep.length = 2 := by
        obtain ⟨b, rfl, -⟩ := hsep
        rfl
      simp only [List.length_append, List.length_cons] at hfuel
      have hfuel₁ : 2 * (t.length + (sep ++ (sep.intercalate (m' :: ts) ++ tail)).length) <
          fuel := by
        simp only [List.length_append]
        omega
      have hfuel₂ : 2 * ((sep.intercalate (m' :: ts)).length + tail.length) + 1 < fuel := by
        omega
      obtain ⟨w, hparse, hw⟩ := hread.forward hga (delimited_comma hsep) hfuel₁
      obtain ⟨ms, hparses, hms⟩ :=
        ih (by simp) (fun a ha => hG a (List.mem_cons_of_mem _ ha)) hfuel₂
      refine ⟨(key a, w) :: ms, (parseMembers_member_iff hblanks).mpr
        ⟨fuel, w, _, rfl, hparse, .inl ⟨_, ms, hcomma, ?_, rfl⟩⟩, .cons ⟨rfl, hw⟩ hms⟩
      rw [← List.singleton_append, parseMembers_append (by simpa using hb), hparses]

/-- If the members that were read have the properties of their keys, they were read from the
values' own texts. -/
theorem parseMembers_back (hsep : IsComma sep)
    (h : List.Forall₂ (fun a m => IsMember (key a) (S a) (G a) m) as ts) (hne : as ≠ [])
    (htail : Delimited tail) (hcomma : ∀ s, skipBlanks tail ≠ ',' :: s) {fuel : ℕ}
    {ms : List (Text × Value)} {r : Text}
    (hparse : parseMembers fuel (sep.intercalate ts ++ tail) = some (ms, r))
    (hms : ∀ a ∈ as, ∀ p ∈ ms, p.1 = key a → S a p.2) :
    (∀ a ∈ as, G a) ∧ skipBlanks tail = '}' :: r := by
  induction h generalizing fuel ms with
  | nil => exact absurd rfl hne
  | @cons a m as ts hmember htexts ih =>
    obtain ⟨blanks, t, hblanks, rfl, hread⟩ := hmember
    cases htexts with
    | nil =>
      rw [List.intercalate_singleton] at hparse
      obtain ⟨fuel, w, r', rfl, hvalue, hnext⟩ := (parseMembers_member_iff hblanks).mp hparse
      have hmem : (key a, w) ∈ ms := by
        rcases hnext with ⟨_, _, -, -, rfl⟩ | ⟨-, rfl⟩ <;> exact List.mem_cons_self
      obtain ⟨hga, rfl⟩ :=
        hread.back htail hvalue (hms a List.mem_cons_self _ hmem rfl)
      rcases hnext with ⟨s, _, hs, -⟩ | ⟨hclose, -⟩
      · exact absurd hs (hcomma s)
      · exact ⟨by simpa using hga, hclose⟩
    | @cons a' m' as ts hmember' htexts =>
      rw [List.intercalate_cons_cons, List.append_assoc, List.append_assoc] at hparse
      obtain ⟨fuel, w, r', rfl, hvalue, hnext⟩ := (parseMembers_member_iff hblanks).mp hparse
      have hmem : (key a, w) ∈ ms := by
        rcases hnext with ⟨_, _, -, -, rfl⟩ | ⟨-, rfl⟩ <;> exact List.mem_cons_self
      obtain ⟨hga, rfl⟩ :=
        hread.back (delimited_comma hsep) hvalue (hms a List.mem_cons_self _ hmem rfl)
      obtain ⟨b, hb, hblank⟩ := @skipBlanks_comma sep (sep.intercalate (m' :: ts) ++ tail) hsep
      rcases hnext with ⟨s, ms', hs, hrest, rfl⟩ | ⟨hclose, -⟩
      · rw [hb] at hs
        obtain rfl := (List.cons.inj hs).2
        rw [← List.singleton_append, parseMembers_append (by simpa using hblank)] at hrest
        obtain ⟨hG, hend⟩ := ih (by simp) hrest fun a ha p hp =>
          hms a (List.mem_cons_of_mem _ ha) p (List.mem_cons_of_mem _ hp)
        exact ⟨List.forall_mem_cons.mpr ⟨hga, hG⟩, hend⟩
      · rw [hb] at hclose
        simp at hclose

/-- With as many members as keys, each key has one value. -/
theorem value_of_key {ms : List (Text × Value)} (hkeys : (as.map key).Nodup)
    (hlength : ms.length = as.length) (hmem : ∀ a ∈ as, ∃ w, (key a, w) ∈ ms ∧ S a w) :
    ∀ a ∈ as, ∀ p ∈ ms, p.1 = key a → S a p.2 := by
  have hsub : as.map key ⊆ ms.map Prod.fst := by
    intro k hk
    obtain ⟨a, ha, rfl⟩ := List.mem_map.mp hk
    obtain ⟨w, hw, -⟩ := hmem a ha
    exact List.mem_map.mpr ⟨_, hw, rfl⟩
  have hperm : (as.map key).Perm (ms.map Prod.fst) :=
    (hkeys.subperm hsub).perm_of_length_le (by simp [hlength])
  have hnodup : (ms.map Prod.fst).Nodup := hperm.nodup_iff.mp hkeys
  intro a ha p hp heq
  obtain ⟨w, hw, hS⟩ := hmem a ha
  have := List.inj_on_of_nodup_map hnodup hp hw heq
  rwa [this]

theorem Reads.dict (hsep : IsComma sep) (hkeys : (as.map key).Nodup)
    (h : List.Forall₂ (fun a m => IsMember (key a) (S a) (G a) m) as ts) {blanks : Text}
    (hblanks : ∀ c ∈ blanks, isBlank c = true) :
    Reads ('{' :: (sep.intercalate ts ++ (blanks ++ ['}'])))
      (fun w => ∃ ms, w = .dict ms ∧ ms.length = as.length ∧
        ∀ a ∈ as, ∃ w, (key a, w) ∈ ms ∧ S a w) (∀ a ∈ as, G a) := by
  have hdelimited : ∀ rest, Delimited (blanks ++ '}' :: rest) :=
    fun rest => delimited_close hblanks (by decide)
  have hclose : ∀ rest, skipBlanks (blanks ++ '}' :: rest) = '}' :: rest := by
    intro rest
    rw [skipBlanks_append hblanks, skipBlanks_cons (by decide)]
  constructor
  · intro hG rest hrest fuel hfuel
    simp only [List.length_cons, List.length_append, List.length_nil] at hfuel
    obtain ⟨fuel, rfl⟩ : ∃ k, fuel = k + 1 := ⟨fuel - 1, by omega⟩
    rw [List.cons_append, List.append_assoc, List.append_assoc, List.singleton_append]
    cases h with
    | nil =>
      refine ⟨.dict [], parseValue_dict_iff.mpr ⟨fuel, rfl, .inl ⟨?_, rfl⟩⟩, [], rfl, rfl,
        by simp⟩
      rw [List.intercalate_nil, List.nil_append, hclose]
    | @cons a m as ts hmember htexts =>
      have hfuel' : 2 * ((sep.intercalate (m :: ts)).length +
          (blanks ++ '}' :: rest).length) + 1 < fuel := by
        simp only [List.length_append, List.length_cons]
        omega
      obtain ⟨ms, hparse, hms⟩ := parseMembers_forward hsep (.cons hmember htexts) (by simp) hG
        (hdelimited rest) (hclose rest) hfuel'
      refine ⟨.dict ms, parseValue_dict_iff.mpr ⟨fuel, rfl, .inr ⟨ms, hparse, rfl⟩⟩, ms, rfl,
        hms.length_eq.symm, fun a ha => ?_⟩
      obtain ⟨⟨k, w⟩, hp, rfl, hw⟩ := exists_of_forall₂ hms ha
      exact ⟨w, hp, hw⟩
  · rintro rest hrest fuel w r hparse ⟨ms, rfl, hlength, hmem⟩
    rw [List.cons_append, List.append_assoc, List.append_assoc, List.singleton_append] at hparse
    obtain ⟨fuel, rfl, ⟨hempty, heq⟩ | ⟨ms', hparse, heq⟩⟩ := parseValue_dict_iff.mp hparse
    · simp only [Value.dict.injEq] at heq
      rw [heq] at hlength
      obtain rfl := List.length_eq_zero_iff.mp hlength.symm
      cases h
      rw [List.intercalate_nil, List.nil_append, hclose] at hempty
      simp only [List.cons.injEq, true_and] at hempty
      exact ⟨by simp, hempty.symm⟩
    · simp only [Value.dict.injEq] at heq
      subst heq
      cases h with
      | nil =>
        obtain ⟨_, s₁, _, _, _, _, _, _, hs₁, _⟩ := parseMembers_iff.mp hparse
        rw [List.intercalate_nil, List.nil_append, hclose] at hs₁
        simp at hs₁
      | cons hmember htexts =>
        obtain ⟨hG, hend⟩ := parseMembers_back hsep (.cons hmember htexts) (by simp)
          (hdelimited rest) (by simp [hclose]) hparse (value_of_key hkeys hlength hmem)
        rw [hclose] at hend
        exact ⟨hG, (List.cons.inj hend).2.symm⟩

end Members

end Json
end VialQmk
