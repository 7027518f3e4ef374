import VialQmk.Keymap.JsonEncoders
import VialQmk.Library.JsonContainers

/-!
# JSON - the rows of a layer

A layer is written row by row, with commas between the keycodes of a row but none between two
rows.  So at most one row may have keycodes, and a keycode between quotes has to be plain.

Main results:

- Definition {lit}`rowsText`: what {lit}`KeymapJSONEncoder` joins the rows to.
- Theorem {lit}`reads_layer`: the text of a layer is faithful to the list without line ends.
-/

namespace VialQmk
namespace JsonEncoder

open Json

/-! ## Rows -/

/-- The rows of a list: each line end begins a new one. -/
def rowsOf : List Object → List (List Object)
  | [] => [[]]
  | v :: vs => if v.isNewline then [] :: rowsOf vs else inFirstRow v (rowsOf vs)

/-- At most one row has keycodes. -/
def IsOneRow (vs : List Object) : Prop :=
  ((rowsOf vs).filter fun row => !row.isEmpty).length ≤ 1

/-- What stands for a keycode in its row. -/
def keycodeText (python : Python) (o : Options) (level : ℕ) : Object → Option Text
  | .dict items => (encode python o level [] (.dict items)).map Encoded.format
  | v => some ('"' :: (python.formatted v ++ ['"']))

section Rows

variable {python : Python} {o : Options} {level : ℕ} {vs : List Object}

theorem rowsOf_ne_nil (vs : List Object) : rowsOf vs ≠ [] := by
  induction vs with
  | nil => simp [rowsOf]
  | cons v vs ih =>
    rw [rowsOf]
    split
    · simp
    · cases hrows : rowsOf vs <;> simp [inFirstRow]

/-- The rows have the elements that are no line ends, in order. -/
theorem flatten_rowsOf (vs : List Object) :
    (rowsOf vs).flatten = vs.filter fun v => !v.isNewline := by
  induction vs with
  | nil => rfl
  | cons v vs ih =>
    rw [rowsOf]
    split
    · rename_i hv
      rw [List.filter_cons_of_neg (by simp [hv]), List.flatten_cons, List.nil_append, ih]
    · rename_i hv
      rw [List.filter_cons_of_pos (by simpa using hv), ← ih]
      cases hrows : rowsOf vs with
      | nil => exact absurd hrows (rowsOf_ne_nil vs)
      | cons row rows => rfl

theorem encodeRows_cons {v : Object} :
    encodeRows python o level (v :: vs) =
      if v.isNewline then (encodeRows python o level vs).map ([] :: ·)
      else (keycodeText python o level v).bind fun t =>
        (encodeRows python o level vs).map (inFirstRow t) := by
  cases v with
  | dict items =>
    rw [encodeRows, keycodeText]
    cases encode python o level [] (.dict items) <;> rfl
  | _ =>
    rw [encodeRows, keycodeText]
    · rfl
    all_goals simp

/-- The texts of the rows are those of the keycodes in them. -/
theorem forall₂_encodeRows {rows : List (List Text)}
    (h : encodeRows python o level vs = some rows) :
    List.Forall₂ (List.Forall₂ fun v t => keycodeText python o level v = some t)
      (rowsOf vs) rows := by
  induction vs generalizing rows with
  | nil =>
    rw [encodeRows, Option.some.injEq] at h
    rw [← h]
    exact .cons .nil .nil
  | cons v vs ih =>
    rw [encodeRows_cons] at h
    rw [rowsOf]
    split at h
    · rename_i hv
      obtain ⟨rows', hrows, rfl⟩ := Option.map_eq_some_iff.mp h
      rw [if_pos hv]
      exact .cons .nil (ih hrows)
    · rename_i hv
      obtain ⟨t, ht, h⟩ := Option.bind_eq_some_iff.mp h
      obtain ⟨rows', hrows, rfl⟩ := Option.map_eq_some_iff.mp h
      rw [if_neg hv]
      have hall := ih hrows
      cases hof : rowsOf vs with
      | nil => exact absurd hof (rowsOf_ne_nil vs)
      | cons row rest =>
        rw [hof] at hall
        cases hall with
        | cons hrow hrest => exact .cons (.cons ht hrow) hrest

/-- There is no text of the rows only if there is none of a keycode. -/
theorem exists_of_encodeRows_eq_none (h : encodeRows python o level vs = none) :
    ∃ v ∈ vs, v.isNewline = false ∧ keycodeText python o level v = none := by
  induction vs with
  | nil => simp at h
  | cons v vs ih =>
    rw [encodeRows_cons] at h
    split at h
    · obtain ⟨u, hu, hnone⟩ := ih (Option.map_eq_none_iff.mp h)
      exact ⟨u, List.mem_cons_of_mem _ hu, hnone⟩
    · rename_i hv
      cases ht : keycodeText python o level v with
      | none => exact ⟨v, List.mem_cons_self, by simpa using hv, ht⟩
      | some t =>
        rw [ht, Option.bind_some, Option.map_eq_none_iff] at h
        obtain ⟨u, hu, hnone⟩ := ih h
        exact ⟨u, List.mem_cons_of_mem _ hu, hnone⟩

/-- A dictionary begins with a brace, which stands alone or at the end of a line. -/
theorem encode_dict_cases {path : List Step} {items : List (Text × Object)} {e : Encoded}
    (h : encode python o level path (.dict items) = some e) :
    e.format = ['{', '}'] ∨ ∃ s, e.format = '{' :: '\n' :: s := by
  rw [encode] at h
  split at h
  · rw [Option.some.injEq] at h
    rw [← h]
    exact .inl rfl
  · obtain ⟨members, -, rfl⟩ := Option.map_eq_some_iff.mp h
    exact .inr ⟨_, rfl⟩

/-- A keycode stands between quotes, or it is a dictionary. -/
theorem keycodeText_cases {v : Object} {t : Text} (h : keycodeText python o level v = some t) :
    (t = '"' :: (python.formatted v ++ ['"']) ∧ ∀ items, v ≠ .dict items) ∨
      (∃ items, v = .dict items) ∧ (t = ['{', '}'] ∨ ∃ s, t = '{' :: '\n' :: s) := by
  cases v with
  | dict items =>
    obtain ⟨e, he, rfl⟩ := Option.map_eq_some_iff.mp h
    exact .inr ⟨⟨items, rfl⟩, encode_dict_cases he⟩
  | _ =>
    rw [keycodeText, Option.some.injEq] at h
    · exact .inl ⟨h.symm, by simp⟩
    · simp

end Rows

/-! ## Layers are read -/

/-- Rows on lines of their own, and what stands behind the last one. -/
def rowsText (lead stop : Text) : List (List Text) → Text
  | [] => stop
  | row :: rows => lead ++ (", ".toList.intercalate row ++ '\n' :: rowsText lead stop rows)

/-- A keycode's text is faithful, and begins with no blank and no bracket. -/
def IsKeycode (G : Object → Prop) (v : Object) (t : Text) : Prop :=
  Reads t (Same v) (G v) ∧ ∃ c s, t = c :: s ∧ (c = '"' ∨ c = '{')

section Layer

variable {o : Options} {level : ℕ} {lead stop rest : Text} {G : Object → Prop}
  {objects : List (List Object)} {rows : List (List Text)}

theorem isComma_one : IsComma ", ".toList :=
  ⟨' ', by decide, by decide⟩

theorem isBlank_indentStr : ∀ c ∈ o.indentStr level, isBlank c = true := by
  intro c hc
  rw [List.eq_of_mem_replicate hc]
  decide

theorem isBlank_times {n : ℕ} {t : Text} (h : ∀ c ∈ t, isBlank c = true) :
    ∀ c ∈ times n t, isBlank c = true := by
  intro c hc
  obtain ⟨t', ht', hc⟩ := List.mem_flatten.mp hc
  rw [List.eq_of_mem_replicate ht'] at hc
  exact h c hc

theorem intercalate_rows (hne : rows ≠ []) :
    ['\n'].intercalate (rows.map fun row => lead ++ ", ".toList.intercalate row) ++ '\n' :: stop =
      rowsText lead stop rows := by
  induction rows with
  | nil => exact absurd rfl hne
  | cons row rows ih =>
    cases rows with
    | nil => simp [rowsText]
    | cons row' rows =>
      have ih' := ih (by simp)
      rw [List.map_cons] at ih' ⊢
      rw [List.map_cons, List.intercalate_cons_cons, List.append_assoc, List.append_assoc, ih',
        rowsText, List.append_assoc]
      rfl

theorem layer_append (hne : rows ≠ []) (rest : Text) :
    o.layer level rows ++ rest =
      o.indentStr level ++ '[' :: '\n' :: rowsText (times (level + 1) (o.indentStr level))
        (times level (o.indentStr level) ++ ']' :: rest) rows := by
  rw [← intercalate_rows hne, Options.layer]
  simp

theorem skipBlanks_newline (s : Text) : skipBlanks ('\n' :: s) = skipBlanks s := rfl

theorem parseElements_newline (fuel : ℕ) (s : Text) :
    parseElements fuel ('\n' :: s) = parseElements fuel s :=
  @parseElements_append fuel ['\n'] (by simp [isBlank]) s

variable (hlead : ∀ c ∈ lead, isBlank c = true) (hclose : skipBlanks stop = ']' :: rest)

include hlead hclose in
/-- What comes first in the text of rows: a keycode, or the closing bracket. -/
theorem skipBlanks_rowsText (h : List.Forall₂ (List.Forall₂ (IsKeycode G)) objects rows) :
    (objects.flatten = [] → skipBlanks (rowsText lead stop rows) = ']' :: rest) ∧
      (objects.flatten ≠ [] → ∃ c s, skipBlanks (rowsText lead stop rows) = c :: s ∧
        (c = '"' ∨ c = '{')) := by
  induction h with
  | nil => exact ⟨fun _ => hclose, fun hne => absurd rfl hne⟩
  | @cons row texts objects rows hrow _ ih =>
    rw [rowsText, skipBlanks_append hlead]
    cases hrow with
    | nil =>
      rw [List.intercalate_nil, List.nil_append, skipBlanks_newline]
      exact ih
    | @cons v t row texts hkeycode hrow =>
      refine ⟨fun hnil => by simp at hnil, fun _ => ?_⟩
      obtain ⟨-, c, s, rfl, hc⟩ := hkeycode
      have hblank : isBlank c = false := by
        rcases hc with rfl | rfl <;> decide
      have hcons : ∃ s', ", ".toList.intercalate ((c :: s) :: texts) = c :: s' := by
        cases texts with
        | nil => exact ⟨s, by rw [List.intercalate_singleton]⟩
        | cons t texts => exact ⟨_, by rw [List.intercalate_cons_cons, List.cons_append,
            List.cons_append]⟩
      obtain ⟨s', hs'⟩ := hcons
      rw [hs', List.cons_append]
      exact ⟨c, _, skipBlanks_cons hblank, hc⟩

/-- Behind a row stands no comma. -/
theorem delimited_line (s : Text) : Delimited ('\n' :: s) := by
  intro c hc
  simp only [List.head?_cons, Option.mem_def, Option.some.injEq] at hc
  rw [← hc]
  decide

include hlead hclose in
theorem no_comma_behind (h : List.Forall₂ (List.Forall₂ (IsKeycode G)) objects rows) :
    ∀ s, skipBlanks ('\n' :: rowsText lead stop rows) ≠ ',' :: s := by
  intro s hs
  rw [skipBlanks_newline] at hs
  obtain ⟨hnil, hne⟩ := skipBlanks_rowsText hlead hclose h
  by_cases hflat : objects.flatten = []
  · rw [hnil hflat] at hs
    simp at hs
  · obtain ⟨c, s', hc, hor⟩ := hne hflat
    rw [hc] at hs
    obtain rfl := (List.cons.inj hs).1
    rcases hor with h | h <;> exact absurd h (by decide)

theorem filter_of_flatten_nil {objects : List (List Object)} (h : objects.flatten = []) :
    (objects.filter fun row => !row.isEmpty) = [] := by
  rw [List.filter_eq_nil_iff]
  intro row hrow
  simp [List.flatten_eq_nil_iff.mp h row hrow]

include hlead hclose in
/-- If the elements of rows are read, they are in one row and were read from their texts. -/
theorem parseElements_rows_back (h : List.Forall₂ (List.Forall₂ (IsKeycode G)) objects rows)
    {fuel : ℕ} {ws : List Value} {r : Text}
    (hparse : parseElements fuel (rowsText lead stop rows) = some (ws, r))
    (hws : List.Forall₂ Same objects.flatten ws) :
    (∀ v ∈ objects.flatten, G v) ∧ (objects.filter fun row => !row.isEmpty).length ≤ 1 ∧
      r = rest := by
  induction h with
  | nil =>
    rw [rowsText, parseElements_close hclose] at hparse
    cases hparse
  | @cons row texts objects rows hrow hrows ih =>
    rw [rowsText, parseElements_append hlead] at hparse
    cases hrow with
    | nil =>
      rw [List.intercalate_nil, List.nil_append, parseElements_newline] at hparse
      exact ih hparse hws
    | @cons v t row texts hkeycode hrow =>
      have hsplit : ws = ws.take (v :: row).length ++ ws.drop (v :: row).length :=
        (List.take_append_drop _ _).symm
      have hfirst := List.forall₂_take (v :: row).length hws
      have hsecond := List.forall₂_drop (v :: row).length hws
      rw [List.flatten_cons, List.take_left] at hfirst
      rw [List.flatten_cons, List.drop_left] at hsecond
      rw [hsplit] at hparse
      have hreads : List.Forall₂ (fun v t => Reads t (Same v) (G v)) (v :: row) (t :: texts) :=
        (List.Forall₂.cons hkeycode hrow).imp fun _ _ h => h.1
      obtain ⟨hG, hnil, hend⟩ := parseElements_back isComma_one hreads (by simp)
        (delimited_line _) (no_comma_behind hlead hclose hrows) hparse hfirst
      rw [hnil] at hsecond
      have hflat : objects.flatten = [] := List.forall₂_nil_right_iff.mp hsecond
      rw [skipBlanks_newline, (skipBlanks_rowsText hlead hclose hrows).1 hflat] at hend
      refine ⟨?_, ?_, (List.cons.inj hend).2.symm⟩
      · rw [List.flatten_cons, hflat, List.append_nil]
        exact hG
      · rw [List.filter_cons_of_pos (by simp), filter_of_flatten_nil hflat]
        exact Nat.le_refl _

include hlead hclose in
/-- Keycodes that fit, in one row, are read. -/
theorem parseElements_rows_forward
    (h : List.Forall₂ (List.Forall₂ (IsKeycode G)) objects rows)
    (hone : (objects.filter fun row => !row.isEmpty).length ≤ 1)
    (hne : objects.flatten ≠ []) (hG : ∀ v ∈ objects.flatten, G v) {fuel : ℕ}
    (hfuel : 2 * (rowsText lead stop rows).length + 1 < fuel) :
    ∃ ws, parseElements fuel (rowsText lead stop rows) = some (ws, rest) ∧
      List.Forall₂ Same objects.flatten ws := by
  induction h with
  | nil => exact absurd rfl hne
  | @cons row texts objects rows hrow hrows ih =>
    rw [rowsText] at hfuel ⊢
    rw [parseElements_append hlead]
    simp only [List.length_append, List.length_cons] at hfuel
    cases hrow with
    | nil =>
      rw [List.intercalate_nil, List.nil_append, parseElements_newline]
      exact ih hone hne hG (by omega)
    | @cons v t row texts hkeycode hrow =>
      rw [List.filter_cons_of_pos (by simp), List.length_cons] at hone
      have hflat : objects.flatten = [] := by
        rw [List.flatten_eq_nil_iff]
        intro row' hrow'
        have hnil : (objects.filter fun row => !row.isEmpty) = [] :=
          List.length_eq_zero_iff.mp (by omega)
        have := List.filter_eq_nil_iff.mp hnil row' hrow'
        simpa using this
      have hclose' : skipBlanks ('\n' :: rowsText lead stop rows) = ']' :: rest := by
        rw [skipBlanks_newline]
        exact (skipBlanks_rowsText hlead hclose hrows).1 hflat
      rw [List.flatten_cons, hflat, List.append_nil] at hG ⊢
      have hreads : List.Forall₂ (fun v t => Reads t (Same v) (G v)) (v :: row) (t :: texts) :=
        (List.Forall₂.cons hkeycode hrow).imp fun _ _ h => h.1
      have hfuel' : 2 * ((", ".toList.intercalate (t :: texts)).length +
          ('\n' :: rowsText lead stop rows).length) + 1 < fuel := by
        rw [List.length_cons]
        omega
      exact parseElements_forward isComma_one hreads (by simp) hG (delimited_line _) hclose'
        hfuel'

end Layer

section ReadsLayer

variable {o : Options} {level : ℕ} {G : Object → Prop} {vs : List Object}
  {rows : List (List Text)}

/-- The text of a layer is faithful to the list without line ends, if one row has all keycodes
and each of them fits. -/
theorem reads_layer (h : List.Forall₂ (List.Forall₂ (IsKeycode G)) (rowsOf vs) rows) :
    Reads (o.layer level rows)
      (fun w => ∃ ws, w = .list ws ∧ List.Forall₂ Same (vs.filter fun v => !v.isNewline) ws)
      (IsOneRow vs ∧ ∀ v ∈ vs.filter fun v => !v.isNewline, G v) := by
  have hne : rows ≠ [] := by
    rintro rfl
    exact rowsOf_ne_nil vs (List.forall₂_nil_right_iff.mp h)
  have hlead : ∀ c ∈ times (level + 1) (o.indentStr level), isBlank c = true :=
    isBlank_times isBlank_indentStr
  have hclose : ∀ rest, skipBlanks (times level (o.indentStr level) ++ ']' :: rest) =
      ']' :: rest := by
    intro rest
    rw [skipBlanks_append (isBlank_times isBlank_indentStr), skipBlanks_cons (by decide)]
  rw [← flatten_rowsOf]
  constructor
  · rintro ⟨hone, hG⟩ rest - fuel hfuel
    have hlength := congrArg List.length (@layer_append o level rows hne rest)
    simp only [List.length_append, List.length_cons] at hlength
    obtain ⟨fuel, rfl⟩ : ∃ k, fuel = k + 1 := ⟨fuel - 1, by omega⟩
    rw [layer_append hne, parseValue_append isBlank_indentStr]
    by_cases hflat : (rowsOf vs).flatten = []
    · refine ⟨.list [], parseValue_list_iff.mpr ⟨fuel, rfl, .inl ⟨?_, rfl⟩⟩, [], rfl, ?_⟩
      · rw [skipBlanks_newline]
        exact (skipBlanks_rowsText hlead (hclose rest) h).1 hflat
      · rw [hflat]
        exact .nil
    · obtain ⟨ws, hparse, hws⟩ := parseElements_rows_forward hlead (hclose rest) h hone hflat hG
        (show 2 * (rowsText _ _ rows).length + 1 < fuel by omega)
      refine ⟨.list ws, parseValue_list_iff.mpr ⟨fuel, rfl, .inr ⟨ws, ?_, rfl⟩⟩, ws, rfl, hws⟩
      rw [parseElements_newline, hparse]
  · rintro rest - fuel w r hparse ⟨ws, rfl, hws⟩
    rw [layer_append hne, parseValue_append isBlank_indentStr] at hparse
    obtain ⟨fuel, rfl, ⟨hempty, heq⟩ | ⟨ws', hparse, heq⟩⟩ := parseValue_list_iff.mp hparse
    · simp only [Value.list.injEq] at heq
      rw [heq] at hws
      have hflat : (rowsOf vs).flatten = [] := List.forall₂_nil_right_iff.mp hws
      rw [skipBlanks_newline, (skipBlanks_rowsText hlead (hclose rest) h).1 hflat] at hempty
      refine ⟨⟨?_, by simp [hflat]⟩, (List.cons.inj hempty).2.symm⟩
      rw [IsOneRow, filter_of_flatten_nil hflat]
      exact Nat.zero_le _
    · simp only [Value.list.injEq] at heq
      subst heq
      rw [parseElements_newline] at hparse
      obtain ⟨hG, hone, hr⟩ := parseElements_rows_back hlead (hclose rest) h hparse hws
      exact ⟨⟨hone, hG⟩, hr⟩

end ReadsLayer

end JsonEncoder
end VialQmk
