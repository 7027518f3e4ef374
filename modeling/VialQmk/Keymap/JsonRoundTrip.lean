import VialQmk.Keymap.JsonAhead

/-!
# JSON - what is read back

An object is read back as it was unless one of the encoders' own cases is in the way: a Decimal
where texts are joined, or one whose float has other digits; a list of containers without a
path, or one under {lit}`layout` with an element that is no dictionary; a layer in several rows,
or with a keycode that is not plain.

Main results:

- Definition {lit}`Fits`: none of these cases is in an object.
- Theorem {lit}`faithful`: each part of an object is written faithfully, where it stands.
- Theorem {lit}`roundTrips_iff`: an object is read back just if it fits.
-/

namespace VialQmk
namespace JsonEncoder

open Json

/-! ## Places -/

/-- Where an object stands: it is the keymap, its layers, one of them, or anything else. -/
inductive Place
  | keymap
  | layers
  | layer
  | other
deriving DecidableEq

namespace Place

def ofItem (place : Place) (key : Text) : Place :=
  if place = .keymap ∧ key = "layers".toList then .layers else .other

def ofElement (place : Place) : Place :=
  if place = .layers then .layer else .other

/-- What is expected back of an object at a place. -/
def expected : Place → Object → Object
  | .keymap, v => keymapWithoutNewlines v
  | .layers, v => layersWithoutNewlines v
  | .layer, v => withoutNewlines v
  | .other, v => v

end Place

/-- The place of a whole object. -/
def Options.place (o : Options) : Place :=
  match o.encoder with
  | .info => .other
  | .keymap => .keymap

/-- The level at which a place is written, and the encoder that knows it. -/
def Stands (o : Options) (level : ℕ) : Place → Prop
  | .keymap => o.encoder = .keymap ∧ level = 0
  | .layers => o.encoder = .keymap ∧ level = 1
  | .layer => o.encoder = .keymap ∧ level = 2
  | .other => True

/-! ## What fits -/

/-- A float has the digits of the Decimal, or it is not needed. -/
def DecimalFits (python : Python) (q : ℚ) : Prop :=
  q.den = 1 ∨ numberValue (python.floatStr q) = some q

section Fits

variable (python : Python) (o : Options)

mutual

/-- An object is written faithfully at its place. -/
@[simp]
def Fits (place : Place) (level : ℕ) (path : List Step) : Object → Prop
  | .decimal digits exponent => DecimalFits python (decimalValue digits exponent)
  | .list elements =>
    match o.encoder with
    | .info =>
      if primitivesOnly elements then ElementsFit .other level path 0 elements
      else
        match onSingleLine path with
        | none => False
        | some true => EntriesFit (level + 1) path 0 elements
        | some false => ElementsFit .other (level + 1) path 0 elements
    | .keymap =>
      if level = 2 then
        (if place = .layer then IsOneRow elements else ∀ v ∈ elements, v.isNewline = false) ∧
          KeycodesFit level elements
      else if primitivesOnly elements then ElementsFit .other level path 0 elements
      else ElementsFit place.ofElement (level + 1) path 0 elements
  | .dict items => ItemsFit place (level + 1) path items
  | _ => True

/-- Elements are joined, so none of them is a Decimal. -/
@[simp]
def ElementsFit (place : Place) (level : ℕ) (path : List Step) (i : ℕ) : List Object → Prop
  | [] => True
  | v :: vs =>
    (v.isDecimal = false ∧ Fits place level (o.elementPath path i) v) ∧
      ElementsFit place level path (i + 1) vs

@[simp]
def ItemsFit (place : Place) (level : ℕ) (path : List Step) : List (Text × Object) → Prop
  | [] => True
  | (k, v) :: items =>
    Fits (place.ofItem k) level (path ++ [.key k]) v ∧ ItemsFit place level path items

/-- The entries of a layout are dictionaries. -/
@[simp]
def EntriesFit (level : ℕ) (path : List Step) (i : ℕ) : List Object → Prop
  | [] => True
  | .dict items :: vs =>
    ItemsFit .other level (path ++ [.index i]) items ∧ EntriesFit level path (i + 1) vs
  | _ :: _ => False

/-- A keycode is a plain string or a dictionary. -/
@[simp]
def KeycodesFit (level : ℕ) : List Object → Prop
  | [] => True
  | v :: vs =>
    (v.isNewline = true ∨
      match v with
      | .dict items => Fits .other level [] (.dict items)
      | .str s => IsPlain s
      | _ => False) ∧ KeycodesFit level vs

end

end Fits

/-! ## What is expected -/

theorem sameElements_iff {vs : List Object} {ws : List Value} :
    SameElements vs ws ↔ List.Forall₂ Same vs ws := by
  induction vs generalizing ws with
  | nil => simp
  | cons v vs ih =>
    rw [SameElements, List.forall₂_cons_left_iff]
    constructor
    · rintro ⟨w, ws', rfl, hw, hws⟩
      exact ⟨w, ws', hw, ih.mp hws, rfl⟩
    · rintro ⟨w, ws', hw, hws, rfl⟩
      exact ⟨w, ws', rfl, hw, ih.mpr hws⟩

theorem sameItems_iff {items : List (Text × Object)} {ms : List (Text × Value)} :
    SameItems items ms ↔ ∀ p ∈ items, ∃ w, (p.1, w) ∈ ms ∧ Same p.2 w := by
  induction items with
  | nil => simp
  | cons p items ih => rw [SameItems, List.forall_mem_cons, ih]

section Expected

variable {place : Place} {vs : List Object} {items : List (Text × Object)} {w : Value}

theorem expected_of_not_container {v : Object} (h : v.isContainer = false) :
    place.expected v = v := by
  cases v with
  | list _ => cases h
  | dict _ => cases h
  | _ => cases place <;> rfl

theorem same_expected_dict :
    Same (place.expected (.dict items)) w ↔
      ∃ ms, w = .dict ms ∧ ms.length = items.length ∧
        ∀ p ∈ items, ∃ w, (p.1, w) ∈ ms ∧ Same ((place.ofItem p.1).expected p.2) w := by
  cases place with
  | keymap =>
    rw [Place.expected, keymapWithoutNewlines, Same]
    simp only [sameItems_iff, List.length_map, List.forall_mem_map, Place.ofItem, true_and]
    refine exists_congr fun ms => and_congr_right fun _ => and_congr_right fun _ =>
      forall₂_congr fun p _ => ?_
    split <;> rfl
  | layers => simp [Place.expected, layersWithoutNewlines, sameItems_iff, Place.ofItem]
  | layer => simp [Place.expected, withoutNewlines, sameItems_iff, Place.ofItem]
  | other => simp [Place.expected, sameItems_iff, Place.ofItem]

theorem same_expected_list (h : place ≠ .layer) :
    Same (place.expected (.list vs)) w ↔
      ∃ ws, w = .list ws ∧ List.Forall₂ (fun v => Same (place.ofElement.expected v)) vs ws := by
  cases place with
  | layer => exact absurd rfl h
  | layers =>
    simp only [Place.expected, layersWithoutNewlines, Same, sameElements_iff, Place.ofElement,
      ↓reduceIte, List.forall₂_map_left_iff]
  | keymap =>
    simp [Place.expected, keymapWithoutNewlines, sameElements_iff, Place.ofElement]
  | other => simp [Place.expected, sameElements_iff, Place.ofElement]

theorem same_expected_layer :
    Same (Place.layer.expected (.list vs)) w ↔
      ∃ ws, w = .list ws ∧ List.Forall₂ Same (vs.filter fun v => !v.isNewline) ws := by
  simp only [Place.expected, withoutNewlines, Same, sameElements_iff]

/-- Nothing else is expected of plain elements. -/
theorem forall₂_expected {place' : Place} (h : primitivesOnly vs = true) {ws : List Value} :
    List.Forall₂ (fun v => Same (place.expected v)) vs ws ↔
      List.Forall₂ (fun v => Same (place'.expected v)) vs ws := by
  have hplain : ∀ v ∈ vs, v.isContainer = false := by
    simpa [primitivesOnly] using h
  have heq : ∀ v ∈ vs, place.expected v = place'.expected v := fun v hv => by
    rw [expected_of_not_container (hplain v hv), expected_of_not_container (hplain v hv)]
  clear h hplain
  induction vs generalizing ws with
  | nil => simp
  | cons v vs ih =>
    obtain ⟨hv, hvs⟩ := List.forall_mem_cons.mp heq
    rw [List.forall₂_cons_left_iff, List.forall₂_cons_left_iff]
    simp only [hv, ih hvs]

end Expected

/-! ## Decimals -/

theorem numberValue_encodeDecimal (python : Python) (q : ℚ) :
    numberValue (encodeDecimal python q) = some q ↔ DecimalFits python q := by
  rw [encodeDecimal, DecimalFits]
  by_cases hq : q = (q.num.tdiv q.den : ℤ)
  · rw [if_pos hq, numberValue_intText, ← hq]
    simp only [true_iff]
    left
    rw [hq]
    exact Rat.den_intCast _
  · rw [if_neg hq]
    have hden : q.den ≠ 1 := by
      intro hden
      refine hq ?_
      rw [hden, Nat.cast_one, Int.tdiv_one]
      exact (Rat.coe_int_num_of_den_eq_one hden).symm
    simp [hden]

/-- A float's text is a number, or no JSON at all. -/
theorem reads_floatStr (python : Python) (q : ℚ) :
    Reads (python.floatStr q) (· = .num q) (numberValue (python.floatStr q) = some q) := by
  rcases python.floatStr_cases q with ⟨hne, hall⟩ | hinf | hinf
  · exact Reads.number q hne hall
  · have hnone : numberValue "inf".toList = none := by decide
    rw [hinf, hnone]
    refine (Reads.of_none fun rest fuel => ?_).congr (fun _ => Iff.rfl) (by simp)
    cases fuel with
    | zero => rfl
    | succ fuel => exact parseValue_word (by decide) (by decide) (by decide) (by decide)
  · have hnone : numberValue "-inf".toList = none := by decide
    rw [hinf, hnone]
    refine (Reads.of_none fun rest fuel => ?_).congr (fun _ => Iff.rfl) (by simp)
    cases fuel with
    | zero => rfl
    | succ fuel => exact parseValue_word (by decide) (by decide) (by decide) (by decide)

theorem reads_encodeDecimal (python : Python) (q : ℚ) :
    Reads (encodeDecimal python q) (· = .num q) (DecimalFits python q) := by
  refine Reads.congr (fun _ => Iff.rfl) (numberValue_encodeDecimal python q) ?_
  rw [encodeDecimal]
  split
  · exact Reads.number q (intText_ne_nil _) fun c hc => isNumeral_of_mem_intText hc
  · exact reads_floatStr python q

/-! ## Parts of an object -/

section Parts

variable (python : Python) (o : Options)

/-- An object is written faithfully where it stands; an exception is raised only if it does not
fit. -/
def Faithful (place : Place) (level : ℕ) (path : List Step) (v : Object) : Prop :=
  (∀ e, encode python o level path v = some e →
    Reads e.format (Same (place.expected v)) (Fits python o place level path v)) ∧
    (encode python o level path v = none → ¬ Fits python o place level path v)

variable {python o} {place : Place} {level : ℕ} {path : List Step} {vs : List Object}
  {items : List (Text × Object)}

/-- Only a Decimal is encoded to a number. -/
theorem exists_text {v : Object} {e : Encoded} (hv : v.isDecimal = false)
    (h : encode python o level path v = some e) : ∃ t, e = .text t := by
  cases v with
  | decimal _ _ => cases hv
  | list vs =>
    rw [encode] at h
    split at h
    · split at h
      · obtain ⟨texts, -, rfl⟩ := Option.map_eq_some_iff.mp h
        exact ⟨_, rfl⟩
      · obtain ⟨single, -, h⟩ := Option.bind_eq_some_iff.mp h
        obtain ⟨texts, -, rfl⟩ := Option.map_eq_some_iff.mp h
        exact ⟨_, rfl⟩
    · split at h
      · obtain ⟨rows, -, rfl⟩ := Option.map_eq_some_iff.mp h
        exact ⟨_, rfl⟩
      · split at h
        all_goals
          obtain ⟨texts, -, rfl⟩ := Option.map_eq_some_iff.mp h
          exact ⟨_, rfl⟩
  | dict items =>
    rw [encode] at h
    split at h
    · exact ⟨_, (Option.some.inj h).symm⟩
    · obtain ⟨members, -, rfl⟩ := Option.map_eq_some_iff.mp h
      exact ⟨_, rfl⟩
  | _ =>
    rw [encode] at h
    exact ⟨_, (Option.some.inj h).symm⟩

/-- The texts of elements are faithful, each to its element under its own condition. -/
theorem elements_some {i : ℕ} {texts : List Text}
    (ih : ∀ v ∈ vs, ∀ path, Faithful python o place level path v)
    (h : encodeElements python o level path i vs = some texts) :
    ∃ as : List (Object × Prop), as.map Prod.fst = vs ∧
      List.Forall₂ (fun a t => Reads t (Same (place.expected a.1)) a.2) as texts ∧
      ((∀ a ∈ as, a.2) ↔ ElementsFit python o place level path i vs) := by
  induction vs generalizing i texts with
  | nil =>
    rw [encodeElements, Option.some.injEq] at h
    rw [← h]
    exact ⟨[], rfl, .nil, by simp⟩
  | cons v vs ihvs =>
    obtain ⟨hv, hvs⟩ := List.forall_mem_cons.mp ih
    rw [encodeElements] at h
    obtain ⟨t, ht, h⟩ := Option.bind_eq_some_iff.mp h
    obtain ⟨e, he, hstr⟩ := Option.bind_eq_some_iff.mp ht
    obtain ⟨texts', htexts, rfl⟩ := Option.map_eq_some_iff.mp h
    obtain ⟨as, rfl, hreads, hfit⟩ := ihvs hvs htexts
    have hdecimal : v.isDecimal = false := by
      cases v with
      | decimal _ _ =>
        rw [encode, Option.some.injEq] at he
        rw [← he] at hstr
        cases hstr
      | _ => rfl
    have hformat : e.format = t := by
      cases e with
      | text _ => exact Option.some.inj hstr
      | number _ => cases hstr
    have hread := (hv (o.elementPath path i)).1 e he
    rw [hformat] at hread
    refine ⟨(v, Fits python o place level (o.elementPath path i) v) :: as, rfl,
      .cons hread hreads, ?_⟩
    rw [List.forall_mem_cons, hfit, ElementsFit]
    simp [hdecimal]

theorem elements_none {i : ℕ} (ih : ∀ v ∈ vs, ∀ path, Faithful python o place level path v)
    (h : encodeElements python o level path i vs = none) :
    ¬ ElementsFit python o place level path i vs := by
  induction vs generalizing i with
  | nil => cases h
  | cons v vs ihvs =>
    obtain ⟨hv, hvs⟩ := List.forall_mem_cons.mp ih
    rintro ⟨⟨hdecimal, hfit⟩, hfits⟩
    rw [encodeElements] at h
    cases he : encode python o level (o.elementPath path i) v with
    | none => exact (hv _).2 he hfit
    | some e =>
      obtain ⟨t, rfl⟩ := exists_text hdecimal he
      rw [he] at h
      simp only [Option.bind_some, Encoded.str?, Option.map_eq_none_iff] at h
      exact ihvs hvs h hfits

/-- The members of a dictionary are faithful, each under its own condition. -/
theorem items_some {members : List (Text × Text)}
    (ih : ∀ p ∈ items, ∀ path, Faithful python o (place.ofItem p.1) level path p.2)
    (h : encodeItems python o level path items = some members) :
    ∃ as : List ((Text × Object) × Prop), as.map Prod.fst = items ∧
      List.Forall₂ (fun a m => ∀ blanks : Text, (∀ c ∈ blanks, isBlank c = true) →
        IsMember a.1.1 (Same ((place.ofItem a.1.1).expected a.1.2)) a.2 (blanks ++ m.2))
        as members ∧
      ((∀ a ∈ as, a.2) ↔ ItemsFit python o place level path items) := by
  induction items generalizing members with
  | nil =>
    rw [encodeItems, Option.some.injEq] at h
    rw [← h]
    exact ⟨[], rfl, .nil, by simp⟩
  | cons p items ihitems =>
    obtain ⟨k, v⟩ := p
    obtain ⟨hv, hitems⟩ := List.forall_mem_cons.mp ih
    rw [encodeItems] at h
    obtain ⟨e, he, h⟩ := Option.bind_eq_some_iff.mp h
    obtain ⟨members', hmembers, rfl⟩ := Option.map_eq_some_iff.mp h
    obtain ⟨as, rfl, hreads, hfit⟩ := ihitems hitems hmembers
    refine ⟨((k, v), Fits python o (place.ofItem k) level (path ++ [.key k]) v) :: as, rfl,
      .cons (fun blanks hblanks => ⟨blanks, e.format, hblanks, rfl, (hv _).1 e he⟩) hreads, ?_⟩
    rw [List.forall_mem_cons, hfit, ItemsFit]

theorem items_none (ih : ∀ p ∈ items, ∀ path, Faithful python o (place.ofItem p.1) level path p.2)
    (h : encodeItems python o level path items = none) :
    ¬ ItemsFit python o place level path items := by
  induction items with
  | nil => cases h
  | cons p items ihitems =>
    obtain ⟨k, v⟩ := p
    obtain ⟨hv, hitems⟩ := List.forall_mem_cons.mp ih
    rintro ⟨hfit, hfits⟩
    rw [encodeItems] at h
    cases he : encode python o level (path ++ [.key k]) v with
    | none => exact (hv _).2 he hfit
    | some e =>
      rw [he, Option.bind_some, Option.map_eq_none_iff] at h
      exact ihitems hitems h hfits

theorem sorted_perm (key : Text → Text) (members : List (Text × Text)) :
    (sorted key members).Perm members :=
  List.mergeSort_perm members _

/-- A dictionary of faithful members is faithful, in any order. -/
theorem reads_members {as : List ((Text × Object) × Prop)} {members members' : List (Text × Text)}
    (hnodup : ((as.map Prod.fst).map Prod.fst).Nodup)
    (h : List.Forall₂ (fun a m => ∀ blanks : Text, (∀ c ∈ blanks, isBlank c = true) →
      IsMember a.1.1 (Same ((place.ofItem a.1.1).expected a.1.2)) a.2 (blanks ++ m.2)) as members)
    (hperm : members'.Perm members) {sep front indent blanks : Text} (hsep : IsComma sep)
    (hfront : ∀ c ∈ front, isBlank c = true) (hindent : ∀ c ∈ indent, isBlank c = true)
    (hblanks : ∀ c ∈ blanks, isBlank c = true) :
    Reads ('{' :: (front ++ (sep.intercalate (members'.map fun m => indent ++ m.2) ++
      (blanks ++ ['}'])))) (Same (place.expected (.dict (as.map Prod.fst)))) (∀ a ∈ as, a.2) := by
  obtain ⟨as', hreads, has⟩ := List.perm_comp_forall₂ hperm h.flip
  have hkeys : (as'.map fun a => a.1.1).Nodup := by
    rw [List.map_map] at hnodup
    exact (has.map _).nodup_iff.mpr hnodup
  have hmembers : List.Forall₂ (fun a m =>
      IsMember a.1.1 (Same ((place.ofItem a.1.1).expected a.1.2)) a.2 m) as'
        (members'.map fun m => indent ++ m.2) :=
    List.forall₂_map_right_iff.mpr (hreads.flip.imp fun _ _ hm => hm indent hindent)
  refine (Reads.inside (.inr rfl) hfront (Reads.dict hsep hkeys hmembers hblanks)).congr
    (fun w => ?_) ⟨fun hall a ha => hall a (has.mem_iff.mpr ha),
      fun hall a ha => hall a (has.mem_iff.mp ha)⟩
  rw [same_expected_dict]
  refine exists_congr fun ms => and_congr_right fun _ => ?_
  rw [List.length_map, has.length_eq, List.forall_mem_map]
  exact and_congr_right fun _ =>
    ⟨fun hall a ha => hall a (has.mem_iff.mpr ha), fun hall a ha => hall a (has.mem_iff.mp ha)⟩

/-- A list of faithful elements is faithful. -/
theorem reads_elements {as : List (Object × Prop)} {texts : List Text}
    (h : List.Forall₂ (fun a t => Reads t (Same (place.expected a.1)) a.2) as texts)
    {sep front indent blanks : Text} (hsep : IsComma sep)
    (hfront : ∀ c ∈ front, isBlank c = true) (hindent : ∀ c ∈ indent, isBlank c = true)
    (hblanks : ∀ c ∈ blanks, isBlank c = true) :
    Reads ('[' :: (front ++ (sep.intercalate (texts.map fun t => indent ++ t) ++
      (blanks ++ [']']))))
      (fun w => ∃ ws, w = .list ws ∧
        List.Forall₂ (fun v => Same (place.expected v)) (as.map Prod.fst) ws)
      (∀ a ∈ as, a.2) := by
  have htexts : List.Forall₂ (fun a t => Reads t (Same (place.expected a.1)) a.2) as
      (texts.map fun t => indent ++ t) :=
    List.forall₂_map_right_iff.mpr (h.imp fun _ _ ht => ht.append hindent)
  refine (Reads.inside (.inl rfl) hfront (Reads.list hsep htexts hblanks)).congr (fun w => ?_)
    Iff.rfl
  simp only [List.forall₂_map_left_iff]

theorem itemsWellFormed_iff :
    Object.ItemsWellFormed items ↔ ∀ p ∈ items, p.2.WellFormed := by
  induction items with
  | nil => simp [Object.ItemsWellFormed]
  | cons p items ih => rw [Object.ItemsWellFormed, List.forall_mem_cons, ih]

theorem allWellFormed_iff : Object.AllWellFormed vs ↔ ∀ v ∈ vs, v.WellFormed := by
  induction vs with
  | nil => simp [Object.AllWellFormed]
  | cons v vs ih => rw [Object.AllWellFormed, List.forall_mem_cons, ih]

/-- The entries of a layout are faithful, each under its own condition. -/
theorem entries_some {i : ℕ} {texts : List Text} (hvs : ∀ v ∈ vs, v.WellFormed)
    (ih : ∀ items, .dict items ∈ vs → ∀ p ∈ items, ∀ path,
      Faithful python o .other level path p.2)
    (h : encodeSingleLines python o level path i vs = some texts) :
    ∃ as : List (Object × Prop), as.map Prod.fst = vs ∧
      List.Forall₂ (fun a t => Reads t (Same (Place.other.expected a.1)) a.2) as texts ∧
      ((∀ a ∈ as, a.2) ↔ EntriesFit python o level path i vs) := by
  induction vs generalizing i texts with
  | nil =>
    rw [encodeSingleLines, Option.some.injEq] at h
    rw [← h]
    exact ⟨[], rfl, .nil, by simp⟩
  | cons v vs ihvs =>
    cases v with
    | dict items =>
      rw [encodeSingleLines] at h
      obtain ⟨members, hmembers, h⟩ := Option.bind_eq_some_iff.mp h
      obtain ⟨texts', htexts, rfl⟩ := Option.map_eq_some_iff.mp h
      obtain ⟨hwf, hvs⟩ := List.forall_mem_cons.mp hvs
      obtain ⟨as, rfl, hreads, hfit⟩ :=
        ihvs hvs (fun items hitems => ih items (List.mem_cons_of_mem _ hitems)) htexts
      obtain ⟨bs, rfl, hbs, hbfit⟩ :=
        @items_some python o .other level _ items members (ih items List.mem_cons_self) hmembers
      have hnil : ∀ c ∈ ([] : Text), isBlank c = true := by simp
      have hread := reads_members hwf.1 hbs (sorted_perm sortLayout members) isComma_one hnil
        hnil hnil
      refine ⟨(.dict (bs.map Prod.fst), ∀ b ∈ bs, b.2) :: as, rfl, .cons hread hreads, ?_⟩
      rw [List.forall_mem_cons, hfit, EntriesFit, hbfit]
    | _ =>
      rw [encodeSingleLines] at h
      · cases h
      · simp

theorem entries_none {i : ℕ}
    (ih : ∀ items, .dict items ∈ vs → ∀ p ∈ items, ∀ path,
      Faithful python o .other level path p.2)
    (h : encodeSingleLines python o level path i vs = none) :
    ¬ EntriesFit python o level path i vs := by
  induction vs generalizing i with
  | nil => cases h
  | cons v vs ihvs =>
    cases v with
    | dict items =>
      rintro ⟨hfit, hfits⟩
      rw [encodeSingleLines] at h
      cases hmembers : encodeItems python o level (path ++ [.index i]) items with
      | none =>
        exact @items_none python o .other level _ items (ih items List.mem_cons_self) hmembers hfit
      | some members =>
        rw [hmembers, Option.bind_some, Option.map_eq_none_iff] at h
        exact ihvs (fun items hitems => ih items (List.mem_cons_of_mem _ hitems)) h hfits
    | _ => simp

/-- A keycode fits, unless it is a line end. -/
def KeycodeFits (python : Python) (o : Options) (level : ℕ) : Object → Prop
  | .dict items => Fits python o .other level [] (.dict items)
  | .str s => IsPlain s
  | _ => False

theorem keycodesFit_cons {v : Object} :
    KeycodesFit python o level (v :: vs) ↔
      (v.isNewline = true ∨ KeycodeFits python o level v) ∧ KeycodesFit python o level vs := by
  cases v with
  | dict items => rw [KeycodesFit, KeycodeFits]
  | str s => rw [KeycodesFit, KeycodeFits]
  | _ =>
    rw [KeycodesFit, KeycodeFits]
    all_goals simp

theorem keycodesFit_iff :
    KeycodesFit python o level vs ↔
      ∀ v ∈ vs, v.isNewline = false → KeycodeFits python o level v := by
  induction vs with
  | nil => simp
  | cons v vs ih =>
    rw [keycodesFit_cons, List.forall_mem_cons, ih]
    refine and_congr_left fun _ => ?_
    cases v.isNewline <;> simp

/-- The text of a keycode is faithful. -/
theorem isText_of_keycodeText {v : Object} {t : Text}
    (ih : ∀ items, v = .dict items → Faithful python o .other level [] v)
    (h : keycodeText python o level v = some t) :
    IsText python o level (KeycodeFits python o level) v t := by
  refine ⟨⟨?_, ?_⟩, h⟩
  · rcases keycodeText_cases h with ⟨rfl, hdict⟩ | ⟨⟨items, rfl⟩, -⟩
    · cases v with
      | str s => exact (Reads.raw s).congr (fun w => by rw [Same]) Iff.rfl
      | dict items => exact absurd rfl (hdict items)
      | list vs => exact Reads.raw_false _ fun y => by simp
      | _ => exact Reads.raw_false _ fun y => by simp
    · obtain ⟨e, he, rfl⟩ := Option.map_eq_some_iff.mp h
      exact (ih items rfl).1 e he
  · rcases keycodeText_cases h with ⟨rfl, -⟩ | ⟨-, rfl | ⟨s, rfl⟩⟩
    · exact ⟨_, _, rfl, .inl rfl⟩
    · exact ⟨_, _, rfl, .inr rfl⟩
    · exact ⟨_, _, rfl, .inr rfl⟩

theorem forall_mem_rowsOf {row : List Object} (hrow : row ∈ rowsOf vs) {v : Object}
    (hv : v ∈ row) : v ∈ vs ∧ v.isNewline = false := by
  have hmem : v ∈ (rowsOf vs).flatten := List.mem_flatten.mpr ⟨row, hrow, hv⟩
  rw [flatten_rowsOf, List.mem_filter] at hmem
  exact ⟨hmem.1, by simpa using hmem.2⟩

/-- The rows of a list at the second level are faithful. -/
theorem rows_some {rows : List (List Text)} (hplace : Stands o level place)
    (hlevel : level = 2) (ih : ∀ v ∈ vs, Faithful python o .other level [] v)
    (h : encodeRows python o level vs = some rows) :
    Reads (o.layer level rows) (Same (place.expected (.list vs)))
      ((if place = .layer then IsOneRow vs else ∀ v ∈ vs, v.isNewline = false) ∧
        KeycodesFit python o level vs) := by
  have htexts : List.Forall₂ (List.Forall₂ (IsText python o level (KeycodeFits python o level)))
      (rowsOf vs) rows := by
    have hall := forall₂_encodeRows h
    rw [List.forall₂_iff_get] at hall ⊢
    refine ⟨hall.1, fun i hi hi' => ?_⟩
    have hrow := hall.2 i hi hi'
    have hmem := List.get_mem (rowsOf vs) ⟨i, hi⟩
    rw [List.forall₂_iff_get] at hrow ⊢
    refine ⟨hrow.1, fun j hj hj' => isText_of_keycodeText (fun items _ => ?_) (hrow.2 j hj hj')⟩
    exact ih _ (forall_mem_rowsOf hmem (List.get_mem _ ⟨j, hj⟩)).1
  rw [keycodesFit_iff]
  split
  · rename_i hlayer
    subst hlayer
    refine (reads_layer (forall₂_isKeycode htexts)).congr (fun w => same_expected_layer.symm) ?_
    refine and_congr_right fun _ => ?_
    simp [List.mem_filter]
  · rename_i hlayer
    have hother : place = .other := by
      cases place with
      | keymap => exact absurd (hlevel.symm.trans hplace.2) (by decide)
      | layers => exact absurd (hlevel.symm.trans hplace.2) (by decide)
      | layer => exact absurd rfl hlayer
      | other => rfl
    subst hother
    refine (reads_rows htexts).congr (fun w => ?_) ?_
    · simp only [Place.expected, Same, sameElements_iff]
    · refine and_congr_right fun hall => ?_
      exact ⟨fun hG v hv _ => hG v hv, fun hG v hv => hG v hv (hall v hv)⟩

theorem rows_none (ih : ∀ v ∈ vs, Faithful python o .other level [] v)
    (h : encodeRows python o level vs = none) : ¬ KeycodesFit python o level vs := by
  rw [keycodesFit_iff]
  intro hfits
  obtain ⟨v, hv, hnewline, hnone⟩ := exists_of_encodeRows_eq_none h
  have hfit := hfits v hv hnewline
  cases v with
  | dict items =>
    rw [keycodeText, Option.map_eq_none_iff] at hnone
    exact (ih _ hv).2 hnone hfit
  | _ =>
    rw [keycodeText] at hnone
    · cases hnone
    · simp

end Parts

/-! ## Whole objects -/

section Whole

variable {python : Python} {o : Options} {place : Place} {level : ℕ} {path : List Step}
  {vs : List Object} {items : List (Text × Object)}

theorem Stands.ofItem (h : Stands o level place) (key : Text) :
    Stands o (level + 1) (place.ofItem key) := by
  rw [Place.ofItem]
  split
  · rename_i hlayers
    rw [hlayers.1] at h
    exact ⟨h.1, by rw [h.2]⟩
  · trivial

theorem Stands.ofElement (h : Stands o level place) : Stands o (level + 1) place.ofElement := by
  rw [Place.ofElement]
  split
  · rename_i hlayers
    rw [hlayers] at h
    exact ⟨h.1, by rw [h.2]⟩
  · trivial

theorem isBlank_newline {t : Text} (h : ∀ c ∈ t, isBlank c = true) :
    ∀ c ∈ '\n' :: t, isBlank c = true :=
  List.forall_mem_cons.mpr ⟨by decide, h⟩

theorem isComma_line : IsComma ",\n".toList :=
  ⟨'\n', by decide, by decide⟩

/-- The text of elements on lines of their own. -/
theorem lines_eq (first last : Char) (texts : List Text) :
    o.lines level first last texts =
      first :: (['\n'] ++ (",\n".toList.intercalate
        (texts.map fun t => o.indentStr (level + 1) ++ t) ++
          (('\n' :: o.indentStr level) ++ [last]))) := by
  rw [Options.lines]
  simp

/-- The text of elements on one line. -/
theorem oneLine_eq (first last : Char) (texts : List Text) :
    oneLine first last texts =
      first :: ([] ++ (", ".toList.intercalate (texts.map fun t => [] ++ t) ++
        ([] ++ [last]))) := by
  rw [oneLine]
  simp

theorem isBlank_nil : ∀ c ∈ ([] : Text), isBlank c = true := by simp

theorem faithful_dict (hplace : Stands o level place) (hwf : (Object.dict items).WellFormed)
    (ih : ∀ p ∈ items, ∀ place level path, Stands o level place →
      Faithful python o place level path p.2) :
    Faithful python o place level path (.dict items) := by
  have ih' : ∀ p ∈ items, ∀ path, Faithful python o (place.ofItem p.1) (level + 1) path p.2 :=
    fun p hp path => ih p hp _ _ path (hplace.ofItem p.1)
  constructor
  · intro e he
    rw [encode] at he
    rw [Fits]
    split at he
    · rename_i hempty
      obtain rfl := List.isEmpty_iff.mp hempty
      rw [← Option.some.inj he]
      have hread := @reads_members place [] [] [] (by simp) .nil (List.Perm.refl _) _ _ [] _
        isComma_one isBlank_nil isBlank_nil isBlank_nil
      exact hread.congr (fun _ => Iff.rfl) (by simp)
    · obtain ⟨members, hmembers, rfl⟩ := Option.map_eq_some_iff.mp he
      obtain ⟨as, rfl, hreads, hfit⟩ := items_some ih' hmembers
      rw [Encoded.format, lines_eq, List.map_map]
      have hperm : (if o.sortKeys then sorted (o.sortDict (level + 1)) members
          else members).Perm members := by
        split
        · exact sorted_perm _ _
        · exact List.Perm.refl _
      exact (reads_members hwf.1 hreads hperm isComma_line (isBlank_newline isBlank_nil)
        isBlank_indentStr (isBlank_newline isBlank_indentStr)).congr (fun _ => Iff.rfl) hfit
  · intro he
    rw [encode] at he
    rw [Fits]
    split at he
    · cases he
    · exact items_none ih' (Option.map_eq_none_iff.mp he)

/-- Elements on one line or on lines of their own. -/
theorem faithful_elements (level : ℕ) {place' : Place} {level' : ℕ} (hplace : place ≠ .layer)
    (hsame : ∀ ws, List.Forall₂ (fun v => Same (place'.expected v)) vs ws ↔
      List.Forall₂ (fun v => Same (place.ofElement.expected v)) vs ws)
    (ih : ∀ v ∈ vs, ∀ path, Faithful python o place' level' path v) {texts : List Text}
    (h : encodeElements python o level' path 0 vs = some texts) :
    Reads (oneLine '[' ']' texts) (Same (place.expected (.list vs)))
        (ElementsFit python o place' level' path 0 vs) ∧
      Reads (o.lines level '[' ']' texts) (Same (place.expected (.list vs)))
        (ElementsFit python o place' level' path 0 vs) := by
  obtain ⟨as, rfl, hreads, hfit⟩ := elements_some ih h
  have hcongr : ∀ w, (∃ ws, w = .list ws ∧
      List.Forall₂ (fun v => Same (place'.expected v)) (as.map Prod.fst) ws) ↔
        Same (place.expected (.list (as.map Prod.fst))) w := by
    intro w
    rw [same_expected_list hplace]
    exact exists_congr fun ws => and_congr_right fun _ => hsame ws
  constructor
  · rw [oneLine_eq]
    exact (reads_elements hreads isComma_one isBlank_nil isBlank_nil isBlank_nil).congr hcongr hfit
  · rw [lines_eq]
    exact (reads_elements hreads isComma_line (isBlank_newline isBlank_nil) isBlank_indentStr
      (isBlank_newline isBlank_indentStr)).congr hcongr hfit

theorem Stands.eq_other (h : Stands o level place) (hencoder : o.encoder = .info) :
    place = .other := by
  cases place with
  | other => rfl
  | _ => exact absurd (hencoder.symm.trans h.1) (by decide)

theorem faithful_list_info (hencoder : o.encoder = .info)
    (hwf : ∀ v ∈ vs, v.WellFormed)
    (ih : ∀ v ∈ vs, ∀ level path, Faithful python o .other level path v)
    (ihitems : ∀ items, .dict items ∈ vs → ∀ p ∈ items, ∀ level path,
      Faithful python o .other level path p.2) :
    Faithful python o .other level path (.list vs) := by
  have helements : ∀ level, ∀ v ∈ vs, ∀ path, Faithful python o .other level path v :=
    fun level v hv path => ih v hv level path
  have hentries : ∀ items, .dict items ∈ vs → ∀ p ∈ items, ∀ path,
      Faithful python o .other (level + 1) path p.2 :=
    fun items hitems p hp path => ihitems items hitems p hp (level + 1) path
  constructor
  · intro e he
    rw [encode] at he
    rw [Fits]
    simp only [hencoder] at he ⊢
    split at he
    · rename_i hplain
      rw [if_pos hplain]
      obtain ⟨texts, htexts, rfl⟩ := Option.map_eq_some_iff.mp he
      exact (faithful_elements level (by decide) (fun _ => Iff.rfl) (helements level) htexts).1
    · rename_i hplain
      rw [if_neg hplain]
      obtain ⟨single, hsingle, he⟩ := Option.bind_eq_some_iff.mp he
      obtain ⟨texts, htexts, rfl⟩ := Option.map_eq_some_iff.mp he
      rw [hsingle]
      cases single with
      | false =>
        exact (faithful_elements level (by decide) (fun _ => Iff.rfl) (helements (level + 1))
          htexts).2
      | true =>
        obtain ⟨as, rfl, hreads, hfit⟩ := entries_some hwf hentries htexts
        rw [Encoded.format, lines_eq]
        refine (reads_elements hreads isComma_line (isBlank_newline isBlank_nil)
          isBlank_indentStr (isBlank_newline isBlank_indentStr)).congr (fun w => ?_) hfit
        rw [same_expected_list (by decide)]
        rfl
  · intro he
    rw [encode] at he
    rw [Fits]
    simp only [hencoder] at he ⊢
    split at he
    · rename_i hplain
      rw [if_pos hplain]
      exact elements_none (helements level) (Option.map_eq_none_iff.mp he)
    · rename_i hplain
      rw [if_neg hplain]
      cases hsingle : onSingleLine path with
      | none => simp
      | some single =>
        rw [hsingle, Option.bind_some, Option.map_eq_none_iff] at he
        cases single with
        | false => exact elements_none (helements (level + 1)) he
        | true => exact entries_none hentries he

theorem faithful_list_keymap (hencoder : o.encoder = .keymap) (hplace : Stands o level place)
    (ih : ∀ v ∈ vs, ∀ place level path, Stands o level place →
      Faithful python o place level path v) :
    Faithful python o place level path (.list vs) := by
  have hkeycodes : ∀ v ∈ vs, Faithful python o .other level [] v :=
    fun v hv => ih v hv _ _ _ trivial
  have hplain : ∀ v ∈ vs, ∀ path, Faithful python o .other level path v :=
    fun v hv path => ih v hv _ _ path trivial
  have hlines : ∀ v ∈ vs, ∀ path, Faithful python o place.ofElement (level + 1) path v :=
    fun v hv path => ih v hv _ _ path hplace.ofElement
  have hlayer : level ≠ 2 → place ≠ .layer := by
    rintro hlevel rfl
    exact hlevel hplace.2
  constructor
  · intro e he
    rw [encode] at he
    rw [Fits]
    simp only [hencoder] at he ⊢
    split at he
    · rename_i hlevel
      rw [if_pos hlevel]
      obtain ⟨rows, hrows, rfl⟩ := Option.map_eq_some_iff.mp he
      exact rows_some hplace hlevel hkeycodes hrows
    · rename_i hlevel
      rw [if_neg hlevel]
      split at he
      · rename_i hprimitive
        rw [if_pos hprimitive]
        obtain ⟨texts, htexts, rfl⟩ := Option.map_eq_some_iff.mp he
        exact (faithful_elements level (hlayer hlevel) (fun _ => forall₂_expected hprimitive)
          hplain htexts).1
      · rename_i hprimitive
        rw [if_neg hprimitive]
        obtain ⟨texts, htexts, rfl⟩ := Option.map_eq_some_iff.mp he
        exact (faithful_elements level (hlayer hlevel) (fun _ => Iff.rfl) hlines htexts).2
  · intro he
    rw [encode] at he
    rw [Fits]
    simp only [hencoder] at he ⊢
    split at he
    · rename_i hlevel
      rw [if_pos hlevel]
      exact fun hfit => rows_none hkeycodes (Option.map_eq_none_iff.mp he) hfit.2
    · rename_i hlevel
      rw [if_neg hlevel]
      split at he
      · rename_i hprimitive
        rw [if_pos hprimitive]
        exact elements_none hplain (Option.map_eq_none_iff.mp he)
      · rename_i hprimitive
        rw [if_neg hprimitive]
        exact elements_none hlines (Option.map_eq_none_iff.mp he)

/-- What is no container is written as it is read. -/
theorem faithful_plain {v : Object} (hv : v.isContainer = false) :
    Faithful python o place level path v := by
  rw [Faithful, expected_of_not_container hv]
  cases v with
  | list _ => cases hv
  | dict _ => cases hv
  | null =>
    refine ⟨fun e he => ?_, fun he => by cases he⟩
    rw [← Option.some.inj he]
    exact Reads.null.congr (fun w => by rw [Same]) (by simp)
  | bool b =>
    refine ⟨fun e he => ?_, fun he => by cases he⟩
    rw [← Option.some.inj he]
    exact (Reads.bool b).congr (fun w => by rw [Same]) (by simp)
  | int n =>
    refine ⟨fun e he => ?_, fun he => by cases he⟩
    rw [← Option.some.inj he]
    refine (Reads.number n (intText_ne_nil n) fun c hc => isNumeral_of_mem_intText hc).congr
      (fun w => by rw [Same]) ?_
    simp [numberValue_intText]
  | str s =>
    refine ⟨fun e he => ?_, fun he => by cases he⟩
    rw [← Option.some.inj he]
    exact (Reads.str s).congr (fun w => by rw [Same]) (by simp)
  | decimal digits exponent =>
    refine ⟨fun e he => ?_, fun he => by cases he⟩
    rw [← Option.some.inj he]
    exact (reads_encodeDecimal python _).congr (fun w => by rw [Same]) (by rw [Fits])

end Whole

/-- Each part of an object is written faithfully, where it stands. -/
theorem faithful {python : Python} {o : Options} (v : Object) (hwf : v.WellFormed) (place : Place)
    (level : ℕ) (path : List Step) (hplace : Stands o level place) :
    Faithful python o place level path v := by
  match v, hwf with
  | .list vs, hwf =>
    have hvs := allWellFormed_iff.mp hwf
    have ih : ∀ v ∈ vs, ∀ place level path, Stands o level place →
        Faithful python o place level path v := fun v hv place level path hplace =>
      faithful v (hvs v hv) place level path hplace
    cases hencoder : o.encoder with
    | info =>
      rw [hplace.eq_other hencoder]
      refine faithful_list_info hencoder hvs (fun v hv level path => ih v hv _ _ _ trivial) ?_
      intro items hitems p hp level path
      exact faithful p.2 (itemsWellFormed_iff.mp (hvs _ hitems).2 p hp) _ _ _ trivial
    | keymap => exact faithful_list_keymap hencoder hplace ih
  | .dict items, hwf =>
    exact faithful_dict hplace hwf fun p hp place level path hplace =>
      faithful p.2 (itemsWellFormed_iff.mp hwf.2 p hp) place level path hplace
  | .null, _ => exact faithful_plain rfl
  | .bool _, _ => exact faithful_plain rfl
  | .int _, _ => exact faithful_plain rfl
  | .decimal _ _, _ => exact faithful_plain rfl
  | .str _, _ => exact faithful_plain rfl
termination_by sizeOf v
decreasing_by
  · have := List.sizeOf_lt_of_mem hv
    simp only [Object.list.sizeOf_spec]
    omega
  · have hp' := List.sizeOf_lt_of_mem hp
    have hitems' := List.sizeOf_lt_of_mem hitems
    simp only [Object.dict.sizeOf_spec] at hitems'
    simp only [Object.list.sizeOf_spec]
    obtain ⟨k, v⟩ := p
    simp only [Prod.mk.sizeOf_spec] at hp' ⊢
    omega
  · have hp' := List.sizeOf_lt_of_mem hp
    simp only [Object.dict.sizeOf_spec]
    obtain ⟨k, v⟩ := p
    simp only [Prod.mk.sizeOf_spec] at hp' ⊢
    omega

theorem stands_place (o : Options) : Stands o 0 o.place := by
  rw [Options.place]
  cases hencoder : o.encoder with
  | info => trivial
  | keymap => exact ⟨hencoder, rfl⟩

theorem expected_place (o : Options) (v : Object) : o.place.expected v = o.expected v := by
  rw [Options.place, Options.expected]
  cases o.encoder <;> rfl

/-- What is read back fits. -/
theorem fits_of_roundTrips {python : Python} {o : Options} {v : Object} (hwf : v.WellFormed)
    (h : RoundTrips python o v) : v.isDecimal = false ∧ Fits python o o.place 0 [] v := by
  obtain ⟨hsome, -⟩ := faithful v hwf o.place 0 [] (stands_place o)
  obtain ⟨text, hdumps, w, hparse, hw⟩ := h
  obtain ⟨e, he, hstr⟩ := Option.bind_eq_some_iff.mp hdumps
  have hdecimal : v.isDecimal = false := by
    cases v with
    | decimal _ _ =>
      rw [encode, Option.some.injEq] at he
      rw [← he] at hstr
      cases hstr
    | _ => rfl
  obtain ⟨t, rfl⟩ := exists_text hdecimal he
  obtain rfl : t = text := Option.some.inj hstr
  obtain ⟨⟨w', r⟩, hvalue, hr⟩ := Option.bind_eq_some_iff.mp hparse
  obtain rfl : w' = w := by
    split at hr
    · exact Option.some.inj hr
    · cases hr
  have hread := hsome _ he
  rw [expected_place] at hread
  rw [← List.append_nil t] at hvalue
  exact ⟨hdecimal, (hread.back (by simp [Delimited]) hvalue hw).1⟩

/-- An object is read back, but for the line ends in its layers, just if it fits and is no
Decimal. -/
theorem roundTrips_iff (python : Python) (o : Options) (v : Object) (hwf : v.WellFormed) :
    RoundTrips python o v ↔ v.isDecimal = false ∧ Fits python o o.place 0 [] v := by
  obtain ⟨hsome, hnone⟩ := faithful v hwf o.place 0 [] (stands_place o)
  have hend : Delimited [] := by simp [Delimited]
  rw [expected_place] at hsome
  constructor
  · exact fits_of_roundTrips hwf
  · rintro ⟨hdecimal, hfit⟩
    cases he : encode python o 0 [] v with
    | none => exact absurd hfit (hnone he)
    | some e =>
      obtain ⟨t, rfl⟩ := exists_text hdecimal he
      obtain ⟨w, hvalue, hw⟩ := (hsome _ he).forward hfit hend
        (show 2 * (t.length + ([] : Text).length) < 2 * t.length + 1 by simp)
      refine ⟨t, by rw [dumps, he]; rfl, w, ?_, hw⟩
      rw [Encoded.format, List.append_nil] at hvalue
      rw [parse, hvalue]
      rfl

/-- Python on objects without floats but 0.5. -/
def samplePython : Python where
  floatStr _ := "0.5".toList
  objectStr
    | .bool true => "True".toList
    | .bool false => "False".toList
    | .int n => intText n
    | .list _ => "[]".toList
    | _ => "None".toList
  floatStr_cases _ := .inl (by simp [isNumeral])
  objectStr_head v _ := by
    have hint : ∀ n c, (intText n).head? = some c → isNumeral c = true := by
      intro n c hc
      exact isNumeral_of_mem_intText (List.mem_of_mem_head? hc)
    cases v with
    | int n => exact ⟨fun h => absurd (hint n _ h) (by decide), fun h => absurd (hint n _ h)
        (by decide)⟩
    | bool b => cases b <;> exact ⟨by decide, by decide⟩
    | _ => simp

theorem floatStr_samplePython :
    numberValue (samplePython.floatStr (decimalValue 5 (-1))) = some (decimalValue 5 (-1)) := by
  have htext : samplePython.floatStr (decimalValue 5 (-1)) = ['0', '.', '5'] := by
    simp [samplePython]
  have hwhole : ['0', '.', '5'].takeWhile Char.isDigit = ['0'] := by decide
  have hpoint : ['0', '.', '5'].dropWhile Char.isDigit = ['.', '5'] := by decide
  have hfraction : ['5'].takeWhile Char.isDigit = ['5'] := by decide
  have hpower : ['5'].dropWhile Char.isDigit = [] := by decide
  rw [htext, numberValue, if_neg (by decide), unsignedValue]
  simp [hwhole, hpoint, hfraction, hpower, exponentValue, Nat.ofDigitChars, decimalValue]

/-- A keymap with one row of keycodes, the last one a macro. -/
def sampleKeymap : Object :=
  .dict [("layers".toList, .list [.list [.str "KC_A".toList,
      .dict [("action".toList, .str "beep".toList)], .str jsonNewline]]),
    ("delay".toList, .decimal 5 (-1))]

theorem roundTrips_sampleKeymap : sampleKeymap.WellFormed ∧
    RoundTrips samplePython ⟨.keymap, 4, true⟩ sampleKeymap := by
  have hwf : sampleKeymap.WellFormed := by
    simp [sampleKeymap, Object.WellFormed, Object.AllWellFormed, Object.ItemsWellFormed]
  refine ⟨hwf, (roundTrips_iff _ _ _ hwf).mpr ⟨rfl, ?_⟩⟩
  have hdecimal : DecimalFits samplePython (decimalValue 5 (-1)) := .inr floatStr_samplePython
  have hplain : IsPlain ['K', 'C', '_', 'A'] := by
    simp [IsPlain]
  have hkeycode : ['K', 'C', '_', 'A'] ≠ jsonNewline := by decide
  simp [sampleKeymap, Options.place, hdecimal, Place.ofItem, Place.ofElement, primitivesOnly,
    Object.isContainer, Object.isDecimal, Object.isNewline, IsOneRow, rowsOf, inFirstRow, hplain,
    hkeycode]

/-- A keymap with two rows of keycodes. -/
def tallKeymap : Object :=
  .dict [("layers".toList, .list [.list [.str "KC_A".toList, .str jsonNewline,
    .str "KC_B".toList]])]

theorem not_roundTrips_tallKeymap :
    tallKeymap.WellFormed ∧ ¬ RoundTrips samplePython ⟨.keymap, 4, false⟩ tallKeymap := by
  have hwf : tallKeymap.WellFormed := by
    simp [tallKeymap, Object.WellFormed, Object.AllWellFormed, Object.ItemsWellFormed]
  refine ⟨hwf, fun h => ?_⟩
  have hfit := (fits_of_roundTrips hwf h).2
  have ha : ['K', 'C', '_', 'A'] ≠ jsonNewline := by decide
  have hb : ['K', 'C', '_', 'B'] ≠ jsonNewline := by decide
  simp [tallKeymap, Options.place, Place.ofItem, Place.ofElement, primitivesOnly,
    Object.isContainer, Object.isDecimal, Object.isNewline, IsOneRow, rowsOf, inFirstRow, ha,
    hb] at hfit

end JsonEncoder
end VialQmk
