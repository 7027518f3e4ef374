import Mathlib.Data.String.Basic
import VialQmk.Library.JsonReader

/-!
# JSON - the encoders

{lit}`json_encoders.py`.  The encoders write an object on several lines; a list of plain values
and the entries of a layout stay on one.  {lit}`KeymapJSONEncoder` takes each list at the second
level for a layer and puts its keycodes between quotes itself, in rows that end at a
{lit}`JSON_NEWLINE`.  A Decimal is not encoded to a text but to a number, which Python turns
into a text where it is formatted, but not where it is joined.

Main results:

- Definition {lit}`encode`: the text of an object at a level and a path, or an exception.
- Definition {lit}`dumps`: the text of a whole object.
- Definition {lit}`RoundTrips`: the text is read back as an object equal to the first one.
-/

namespace VialQmk
namespace JsonEncoder

open Json

/-! ## Objects -/

/-- An object of JSON as Python has it.  A Decimal is a whole number and a power of ten. -/
inductive Object
  | null
  | bool (b : Bool)
  | int (n : ℤ)
  | decimal (digits exponent : ℤ)
  | str (s : Text)
  | list (elements : List Object)
  | dict (items : List (Text × Object))

def decimalValue (digits exponent : ℤ) : ℚ :=
  digits * 10 ^ exponent

def jsonNewline : Text :=
  "JSON_NEWLINE".toList

namespace Object

def isContainer : Object → Bool
  | .list _ | .dict _ => true
  | _ => false

def isDecimal : Object → Bool
  | .decimal _ _ => true
  | _ => false

/-- The object equals {lit}`'JSON_NEWLINE'`. -/
def isNewline : Object → Bool
  | .str s => s = jsonNewline
  | _ => false

mutual

/-- The keys of each dictionary are distinct. -/
def WellFormed : Object → Prop
  | .list elements => AllWellFormed elements
  | .dict items => (items.map Prod.fst).Nodup ∧ ItemsWellFormed items
  | _ => True

def AllWellFormed : List Object → Prop
  | [] => True
  | v :: vs => WellFormed v ∧ AllWellFormed vs

def ItemsWellFormed : List (Text × Object) → Prop
  | [] => True
  | (_, v) :: items => WellFormed v ∧ ItemsWellFormed items

end

end Object

/-! ## Python -/

/-- What the encoders leave to Python: {lit}`str()` of a float, and of an object that is no
string.  A float is written in characters of numbers, if it is not infinite; an object is
written as a number, a list in brackets, or one of {lit}`True`, {lit}`False` and
{lit}`None`. -/
structure Python where
  floatStr : ℚ → Text
  objectStr : Object → Text
  floatStr_cases : ∀ q, (floatStr q ≠ [] ∧ ∀ c ∈ floatStr q, isNumeral c = true) ∨
    floatStr q = "inf".toList ∨ floatStr q = "-inf".toList
  objectStr_head : ∀ v, (∀ s, v ≠ .str s) →
    (objectStr v).head? ≠ some 'J' ∧ (objectStr v).head? ≠ some '\\'

/-- A string in a formatted string is as it is. -/
def Python.formatted (python : Python) : Object → Text
  | .str s => s
  | v => python.objectStr v

/-! ## Encoders -/

inductive Encoder
  | info
  | keymap
deriving DecidableEq

structure Options where
  encoder : Encoder
  indent : ℤ
  sortKeys : Bool

/-- {lit}`self.indent`, which is 4 if it was not given. -/
def Options.indentWidth (o : Options) : ℤ :=
  if o.indent = 0 then 4 else o.indent

/-- {lit}`indent_str`; a string is repeated not at all for a negative number. -/
def Options.indentStr (o : Options) (level : ℕ) : Text :=
  List.replicate (level * o.indentWidth).toNat ' '

/-- What {lit}`encode` returns: a string, or a number with the text it has. -/
inductive Encoded
  | text (t : Text)
  | number (t : Text)

/-- In a formatted string a number has its text. -/
def Encoded.format : Encoded → Text
  | .text t | .number t => t

/-- A number cannot be joined or added to a string. -/
def Encoded.str? : Encoded → Option Text
  | .text t => some t
  | .number _ => none

/-- {lit}`encode_decimal`, as it is formatted. -/
def encodeDecimal (python : Python) (q : ℚ) : Text :=
  if q = (q.num.tdiv q.den : ℤ) then intText (q.num.tdiv q.den) else python.floatStr q

/-- {lit}`primitives_only` -/
def primitivesOnly (elements : List Object) : Bool :=
  !elements.any Object.isContainer

/-- A step of the path to an object. -/
inductive Step
  | key (k : Text)
  | index (i : ℕ)

/-- {lit}`path[-1] in ('layout', 'rotary')`; an empty path has no last step. -/
def onSingleLine (path : List Step) : Option Bool :=
  match path.getLast? with
  | none => none
  | some (.key k) => some (k = "layout".toList || k = "rotary".toList)
  | some (.index _) => some false

/-- {lit}`sort_layout` -/
def sortLayout (key : Text) : Text :=
  if key = "label".toList then "00label".toList
  else if key = "matrix".toList then "01matrix".toList
  else if key = "x".toList then "02x".toList
  else if key = "y".toList then "03y".toList
  else if key = "w".toList then "04w".toList
  else if key = "h".toList then "05h".toList
  else if key = "flags".toList then "06flags".toList
  else key

/-- {lit}`sort_dict` of {lit}`InfoJSONEncoder` -/
def sortDictInfo (level : ℕ) (key : Text) : Text :=
  if level = 1 then
    if key = "manufacturer".toList then "10manufacturer".toList
    else if key = "keyboard_name".toList then "11keyboard_name".toList
    else if key = "maintainer".toList then "12maintainer".toList
    else if key = "community_layouts".toList then "97community_layouts".toList
    else if key = "layout_aliases".toList then "98layout_aliases".toList
    else if key = "layouts".toList then "99layouts".toList
    else "50".toList ++ key
  else key

/-- {lit}`sort_dict` of {lit}`KeymapJSONEncoder` -/
def sortDictKeymap (level : ℕ) (key : Text) : Text :=
  if level = 1 then
    if key = "version".toList then "00version".toList
    else if key = "author".toList then "01author".toList
    else if key = "notes".toList then "02notes".toList
    else if key = "layers".toList then "98layers".toList
    else if key = "documentation".toList then "99documentation".toList
    else "50".toList ++ key
  else key

def Options.sortDict (o : Options) (level : ℕ) (key : Text) : Text :=
  match o.encoder with
  | .info => sortDictInfo level key
  | .keymap => sortDictKeymap level key

/-- Members sorted by a key of their keys; those with one key stay in their order. -/
def sorted (key : Text → Text) (members : List (Text × Text)) : List (Text × Text) :=
  members.mergeSort fun a b => decide (key a.1 ≤ key b.1)

/-- Texts between brackets or braces, on one line. -/
def oneLine (first last : Char) (texts : List Text) : Text :=
  first :: (", ".toList.intercalate texts ++ [last])

/-- Texts between brackets or braces, each on a line of its own, one level in. -/
def Options.lines (o : Options) (level : ℕ) (first last : Char) (texts : List Text) : Text :=
  first :: '\n' :: (",\n".toList.intercalate (texts.map fun t => o.indentStr (level + 1) ++ t) ++
    '\n' :: (o.indentStr level ++ [last]))

/-- A keycode is put in the row in front. -/
def inFirstRow {α : Type} (key : α) : List (List α) → List (List α)
  | [] => [[key]]
  | row :: rows => (key :: row) :: rows

/-- A string repeated. -/
def times (n : ℕ) (t : Text) : Text :=
  (List.replicate n t).flatten

/-- A layer: its rows with line ends between them. -/
def Options.layer (o : Options) (level : ℕ) (rows : List (List Text)) : Text :=
  o.indentStr level ++ '[' :: '\n' ::
    (['\n'].intercalate (rows.map fun row =>
        times (level + 1) (o.indentStr level) ++ ", ".toList.intercalate row) ++
      '\n' :: (times level (o.indentStr level) ++ [']']))

/-- The path of an element; {lit}`KeymapJSONEncoder` passes none. -/
def Options.elementPath (o : Options) (path : List Step) (i : ℕ) : List Step :=
  match o.encoder with
  | .info => path ++ [.index i]
  | .keymap => []

section Encode

variable (python : Python) (o : Options)

mutual

/-- {lit}`encode`, with {lit}`encode_list` and {lit}`encode_dict`. -/
@[simp]
def encode (level : ℕ) (path : List Step) : Object → Option Encoded
  | .null => some (.text ['n', 'u', 'l', 'l'])
  | .bool b => some (.text (if b then ['t', 'r', 'u', 'e'] else ['f', 'a', 'l', 's', 'e']))
  | .int n => some (.text (intText n))
  | .decimal digits exponent => some (.number (encodeDecimal python (decimalValue digits exponent)))
  | .str s => some (.text (quote s))
  | .list elements =>
    match o.encoder with
    | .info =>
      if primitivesOnly elements then
        (encodeElements level path 0 elements).map fun texts => .text (oneLine '[' ']' texts)
      else
        (onSingleLine path).bind fun single =>
          (if single then encodeSingleLines (level + 1) path 0 elements
            else encodeElements (level + 1) path 0 elements).map fun texts =>
              .text (o.lines level '[' ']' texts)
    | .keymap =>
      if level = 2 then
        (encodeRows level elements).map fun rows => .text (o.layer level rows)
      else if primitivesOnly elements then
        (encodeElements level path 0 elements).map fun texts => .text (oneLine '[' ']' texts)
      else
        (encodeElements (level + 1) path 0 elements).map fun texts =>
          .text (o.lines level '[' ']' texts)
  | .dict items =>
    if items.isEmpty then some (.text ['{', '}'])
    else
      (encodeItems (level + 1) path items).map fun members =>
        .text (o.lines level '{' '}'
          ((if o.sortKeys then sorted (o.sortDict (level + 1)) members else members).map
            Prod.snd))

/-- The texts of the elements of a list. -/
@[simp]
def encodeElements (level : ℕ) (path : List Step) (i : ℕ) : List Object → Option (List Text)
  | [] => some []
  | v :: vs =>
    ((encode level (o.elementPath path i) v).bind Encoded.str?).bind fun t =>
      (encodeElements level path (i + 1) vs).map (t :: ·)

/-- The keys of a dictionary, each with the text of the key and its value. -/
@[simp]
def encodeItems (level : ℕ) (path : List Step) :
    List (Text × Object) → Option (List (Text × Text))
  | [] => some []
  | (k, v) :: items =>
    (encode level (path ++ [.key k]) v).bind fun e =>
      (encodeItems level path items).map ((k, quote k ++ ':' :: ' ' :: e.format) :: ·)

/-- {lit}`encode_dict_single_line` of the elements of a list; only dictionaries have items. -/
@[simp]
def encodeSingleLines (level : ℕ) (path : List Step) (i : ℕ) :
    List Object → Option (List Text)
  | [] => some []
  | .dict items :: vs =>
    (encodeItems level (path ++ [.index i]) items).bind fun members =>
      (encodeSingleLines level path (i + 1) vs).map
        (oneLine '{' '}' ((sorted sortLayout members).map Prod.snd) :: ·)
  | _ :: _ => none

/-- The rows of a layer.  A dictionary in it is a macro and is encoded; anything else is put
between quotes as it is. -/
@[simp]
def encodeRows (level : ℕ) : List Object → Option (List (List Text))
  | [] => some [[]]
  | v :: vs =>
    if v.isNewline then (encodeRows level vs).map ([] :: ·)
    else
      match v with
      | .dict items =>
        (encode level [] (.dict items)).bind fun e =>
          (encodeRows level vs).map (inFirstRow e.format)
      | v => (encodeRows level vs).map (inFirstRow ('"' :: (python.formatted v ++ ['"'])))

end

/-- The text of a whole object. -/
def dumps (v : Object) : Option Text :=
  (encode python o 0 [] v).bind Encoded.str?

end Encode

/-! ## Reading back -/

mutual

/-- The object equals a value that was read; the order of a dictionary does not matter. -/
@[simp]
def Same : Object → Value → Prop
  | .null, w => w = .null
  | .bool b, w => w = .bool b
  | .int n, w => w = .num n
  | .decimal digits exponent, w => w = .num (decimalValue digits exponent)
  | .str s, w => w = .str s
  | .list elements, w => ∃ ws, w = .list ws ∧ SameElements elements ws
  | .dict items, w => ∃ ms, w = .dict ms ∧ ms.length = items.length ∧ SameItems items ms

@[simp]
def SameElements : List Object → List Value → Prop
  | [], ws => ws = []
  | v :: vs, ws => ∃ w ws', ws = w :: ws' ∧ Same v w ∧ SameElements vs ws'

@[simp]
def SameItems : List (Text × Object) → List (Text × Value) → Prop
  | [], _ => True
  | (k, v) :: items, ms => (∃ w, (k, w) ∈ ms ∧ Same v w) ∧ SameItems items ms

end

/-- A layer without the line ends in its layout. -/
def withoutNewlines : Object → Object
  | .list keycodes => .list (keycodes.filter fun v => !v.isNewline)
  | v => v

/-- A list of layers without the line ends in them. -/
def layersWithoutNewlines : Object → Object
  | .list layers => .list (layers.map withoutNewlines)
  | v => v

/-- A keymap without the line ends in the layout of its layers. -/
def keymapWithoutNewlines : Object → Object
  | .dict items =>
    .dict (items.map fun p =>
      (p.1, if p.1 = "layers".toList then layersWithoutNewlines p.2 else p.2))
  | v => v

/-- What is expected back of an object. -/
def Options.expected (o : Options) (v : Object) : Object :=
  match o.encoder with
  | .info => v
  | .keymap => keymapWithoutNewlines v

/-- The object is encoded, and the text is read back as an object equal to it. -/
def RoundTrips (python : Python) (o : Options) (v : Object) : Prop :=
  ∃ text, dumps python o v = some text ∧ ∃ w, parse text = some w ∧ Same (o.expected v) w

end JsonEncoder
end VialQmk
