import VialQmk.Library.CString
import VialQmk.Library.Memory
import VialQmk.Library.Runs

/-!
# UCIS - symbols by name

{lit}`ucis.c`, {lit}`process_ucis.c`: the keys between {lit}`ucis_start` and the end key spell a
name, and the symbol of that name replaces it.  The buffer of the name is never cleared.  A
read outside the buffer, or behind the end of a name of the table, has no result.

Main results:

- Definition {lit}`ucisFinish`: the name is looked up.
- Definition {lit}`Meets`: what is left in the buffer, and what else starts with the name, does
  no harm.
- Theorem {lit}`right_iff`: in a reachable state the right symbol is found exactly if that is
  so.
-/

namespace VialQmk
namespace Ucis

open Function (update update_self update_of_ne)
open StateMachine

/-! ## The session -/

/-- {lit}`ucis_symbol_t` -/
structure Symbol where
  mnemonic : CString
  codePoints : List UInt32

structure Config where
  /-- {lit}`UCIS_MAX_INPUT_LENGTH` -/
  maxInputLength : ℕ
  /-- {lit}`UCIS_MAX_CODE_POINTS` -/
  maxCodePoints : ℕ
  /-- {lit}`ucis_symbol_table`, without the last entry -/
  symbols : List Symbol
  /-- the counters are bytes -/
  maxInputLength_lt : maxInputLength < 255
  symbols_lt : symbols.length < 256

/-- {lit}`count`, {lit}`active` and {lit}`input` -/
structure State where
  count : ℕ
  active : Bool
  input : Memory UInt8

def State.boot : State where
  count := 0
  active := false
  input := fun _ => 0

/-- What is sent to the host. -/
inductive Call where
  | tapCode (keycode : ℕ)
  | registerUnicode (codePoint : UInt32)
deriving DecidableEq

def kcA : ℕ := 0x04
def kcZ : ℕ := 0x1D
def kc1 : ℕ := 0x1E
def kc9 : ℕ := 0x26
def kc0 : ℕ := 0x27
def kcEnter : ℕ := 0x28
def kcEscape : ℕ := 0x29
def kcBackspace : ℕ := 0x2A
def kcSpace : ℕ := 0x2C

/-- {lit}`ucis_start` -/
def ucisStart (s : State) : State × List Call :=
  ({ s with count := 0, active := true }, [.registerUnicode 0x2328])

/-- {lit}`keycode_to_char` -/
def keycodeToChar (keycode : ℕ) : UInt8 :=
  if kcA ≤ keycode ∧ keycode ≤ kcZ then 97 + .ofNat (keycode - kcA)
  else if kc1 ≤ keycode ∧ keycode ≤ kc9 then 49 + .ofNat (keycode - kc1)
  else if keycode = kc0 then 48
  else 0

/-- {lit}`ucis_add` -/
def ucisAdd (s : State) (keycode : ℕ) : Option State :=
  let c := keycodeToChar keycode
  if c ≠ 0 then some { s with input := update s.input s.count c, count := s.count + 1 } else none

/-- {lit}`ucis_remove_last` -/
def ucisRemoveLast (s : State) : State × Bool :=
  if s.count ≠ 0 then ({ s with count := s.count - 1 }, true) else (s, false)

/-- {lit}`ucis_cancel` -/
def ucisCancel (s : State) : State :=
  { s with count := 0, active := false }

variable (c : Config)

/-- The loop of {lit}`match_mnemonic` from an index on, with as many reads as the buffer has
entries left. -/
def matchFrom (s : State) (mnemonic : CString) : ℕ → ℕ → Option Bool
  | 0, _ => none
  | left + 1, i =>
    if s.input i = 0 then some true
    else if i > s.count then some false
    else do
      let x ← mnemonic.str[i]?
      if s.input i ≠ x then some false else matchFrom s mnemonic left (i + 1)

/-- {lit}`match_mnemonic` -/
def matchMnemonic (s : State) (mnemonic : CString) : Option Bool :=
  matchFrom s mnemonic c.maxInputLength 0

/-- The loop of {lit}`ucis_finish` over the table. -/
def findFrom (s : State) : ℕ → List Symbol → Option (Option ℕ)
  | _, [] => some none
  | i, symbol :: symbols => do
    if ← matchMnemonic c s symbol.mnemonic then some (some i)
    else findFrom s (i + 1) symbols

/-- {lit}`register_ucis` -/
def registerUcis (index : ℕ) : List Call :=
  match c.symbols[index]? with
  | some symbol =>
    ((symbol.codePoints.take c.maxCodePoints).takeWhile (· ≠ 0)).map .registerUnicode
  | none => []

/-- The entry that is registered, and all that is sent. -/
structure Finished where
  entry : Option ℕ
  calls : List Call
deriving DecidableEq

/-- The entry takes the place of so many characters and the start mark. -/
def replaceBy (count : ℕ) : Option ℕ → Finished
  | some i => ⟨some i, List.replicate (count + 1) (.tapCode kcBackspace) ++ registerUcis c i⟩
  | none => ⟨none, []⟩

/-- {lit}`ucis_finish` -/
def ucisFinish (s : State) : State × Option Finished :=
  ({ s with active := false }, (findFrom c s 0 c.symbols).map (replaceBy c s.count))

/-- The new state, what is sent if all reads have a result, and whether the key goes on. -/
structure Result where
  state : State
  calls : Option (List Call)
  goesOn : Bool

/-- {lit}`process_ucis`, for a key that is pressed. -/
def processUcis (s : State) (keycode : ℕ) : Result :=
  if s.active then
    let special :=
      keycode = kcSpace ∨ keycode = kcEnter ∨ keycode = kcEscape ∨ keycode = kcBackspace
    if s.count ≥ c.maxInputLength ∧ ¬ special then ⟨s, some [], false⟩
    else
      match ucisAdd s keycode with
      | some s' => ⟨s', some [], true⟩
      | none =>
        if keycode = kcBackspace then ⟨(ucisRemoveLast s).1, some [], (ucisRemoveLast s).2⟩
        else if keycode = kcEscape then ⟨ucisCancel s, some [], false⟩
        else if keycode = kcSpace ∨ keycode = kcEnter then
          ⟨(ucisFinish c s).1, (ucisFinish c s).2.map Finished.calls, false⟩
        else ⟨s, some [], true⟩
  else ⟨s, some [], true⟩

/-- The start of a session, and keys that are pressed. -/
inductive Input where
  | start
  | press (keycode : ℕ)

def step (s : State) : Input → State
  | .start => (ucisStart s).1
  | .press keycode => (processUcis c s keycode).state

/-! ## The name -/

/-- The characters added since the latest start, and not removed. -/
def typedNext (s : State) (typed : List UInt8) : Input → List UInt8
  | .start => []
  | .press keycode =>
    if s.active then
      if keycodeToChar keycode ≠ 0 then
        if s.count ≥ c.maxInputLength then typed else typed ++ [keycodeToChar keycode]
      else if keycode = kcBackspace then typed.dropLast
      else if keycode = kcEscape then []
      else typed
    else typed

/-- The keyboard, and the name beside it. -/
structure Tracked where
  state : State
  typed : List UInt8

def Tracked.boot : Tracked where
  state := .boot
  typed := []

def next (t : Tracked) (i : Input) : Tracked where
  state := step c t.state i
  typed := typedNext c t.state t.typed i

/-- The first entry with a property. -/
def first (p : List UInt8 → Bool) : Option ℕ :=
  c.symbols.findIdx? fun symbol => p symbol.mnemonic.bytes

/-- The end key replaces the name by the first symbol of that name, if there is one. -/
def Right (t : Tracked) : Prop :=
  (ucisFinish c t.state).2 = some (replaceBy c t.typed.length (first c (· == t.typed)))

instance (t : Tracked) : Decidable (Right c t) :=
  inferInstanceAs (Decidable (_ = _))

/-- The characters that count. -/
def State.typed (s : State) : List UInt8 :=
  s.input.load 0 s.count

/-- What is left behind them. -/
def State.left (s : State) : List UInt8 :=
  (s.input.load s.count (c.maxInputLength - s.count)).takeWhile (· ≠ 0)

/-- Nothing is left behind the name, and the first symbol that starts with it has it as its
name; a name that fills the buffer starts no symbol.  Or something is left, and neither the
name is that of a symbol, nor does a symbol start with it and the one character left. -/
def Meets (s : State) : Prop :=
  match s.left c with
  | [] =>
    first c s.typed.isPrefixOf =
      if s.count < c.maxInputLength then first c (· == s.typed) else none
  | x :: left =>
    first c (· == s.typed) = none ∧
      (left = [] → first c (s.typed ++ [x]).isPrefixOf = none)

/-! ## The buffer -/

/-- The buffer holds the name, what is left of longer ones, and zeros. -/
structure State.Holds (s : State) (typed left : List UInt8) : Prop where
  count_eq : s.count = typed.length
  length_le : typed.length + left.length ≤ c.maxInputLength
  input_eq : ∀ i < c.maxInputLength, s.input i = (typed ++ left)[i]?.getD 0
  ne_zero : ∀ x ∈ typed ++ left, x ≠ 0

variable {c} {s : State} {typed left : List UInt8}

theorem State.Holds.typed_eq (h : s.Holds c typed left) : s.typed = typed := by
  have hle := h.length_le
  unfold State.typed
  rw [h.count_eq]
  apply Memory.load_eq_of_forall
  intro i hi
  rw [Nat.zero_add, h.input_eq i (by omega), List.getElem?_append_left hi,
    List.getElem?_eq_getElem hi, Option.getD_some]

theorem State.Holds.left_eq (h : s.Holds c typed left) : s.left c = left := by
  have hle := h.length_le
  have hload : s.input.load s.count (c.maxInputLength - s.count) =
      left ++ List.replicate (c.maxInputLength - s.count - left.length) 0 := by
    rw [h.count_eq]
    apply List.ext_getElem
    · rw [Memory.load_length, List.length_append, List.length_replicate]
      omega
    · intro i hi _
      rw [Memory.load_length] at hi
      rw [Memory.load_getElem, h.input_eq _ (by omega),
        List.getElem?_append_right (Nat.le_add_right _ _), Nat.add_sub_cancel_left]
      by_cases hlt : i < left.length
      · rw [List.getElem_append_left hlt, List.getElem?_eq_getElem hlt, Option.getD_some]
      · have hge : left.length ≤ i := Nat.le_of_not_gt hlt
        rw [List.getElem_append_right hge, List.getElem?_eq_none hge, List.getElem_replicate,
          Option.getD_none]
  have hpos : ∀ x ∈ left, decide (x ≠ 0) = true := fun x hx =>
    decide_eq_true (h.ne_zero x (List.mem_append_right _ hx))
  have hzeros (k : ℕ) : (List.replicate k (0 : UInt8)).takeWhile (· ≠ 0) = [] := by
    cases k with
    | zero => rfl
    | succ k => rfl
  unfold State.left
  rw [hload, List.takeWhile_append_of_pos hpos, hzeros, List.append_nil]

/-- A session starts with all that was typed before left behind. -/
theorem State.Holds.restart (h : s.Holds c typed left) (active : Bool) :
    State.Holds c ⟨0, active, s.input⟩ [] (typed ++ left) where
  count_eq := rfl
  length_le := by
    have hle := h.length_le
    rw [List.length_append, List.length_nil]
    omega
  input_eq := h.input_eq
  ne_zero := h.ne_zero

/-- A character is added, in the place of the first one left. -/
theorem State.Holds.add (h : s.Holds c typed left) (hroom : s.count < c.maxInputLength)
    {x : UInt8} (hx : x ≠ 0) :
    State.Holds c ⟨s.count + 1, s.active, update s.input s.count x⟩ (typed ++ [x]) left.tail where
  count_eq := by
    rw [List.length_append, List.length_singleton, h.count_eq]
  length_le := by
    have hle := h.length_le
    rw [h.count_eq] at hroom
    rw [List.length_append, List.length_singleton, List.length_tail]
    omega
  input_eq := by
    intro i hi
    have hold := h.input_eq i hi
    dsimp only
    rw [List.append_assoc]
    rcases Nat.lt_trichotomy i s.count with hlt | rfl | hgt
    · rw [update_of_ne (Nat.ne_of_lt hlt), hold]
      rw [h.count_eq] at hlt
      rw [List.getElem?_append_left hlt, List.getElem?_append_left hlt]
    · rw [update_self, List.getElem?_append_right (Nat.le_of_eq h.count_eq.symm), h.count_eq,
        Nat.sub_self]
      rfl
    · rw [update_of_ne (Nat.ne_of_gt hgt), hold]
      rw [h.count_eq] at hgt
      obtain ⟨j, rfl⟩ := Nat.exists_eq_add_of_lt hgt
      rw [List.getElem?_append_right (by omega), List.getElem?_append_right (by omega)]
      have hsub : typed.length + j + 1 - typed.length = j + 1 := by omega
      rw [hsub, List.singleton_append, List.getElem?_cons_succ, List.getElem?_tail]
  ne_zero := by
    intro y hy
    rw [List.append_assoc] at hy
    rcases List.mem_append.mp hy with hy | hy
    · exact h.ne_zero y (List.mem_append_left _ hy)
    · rcases List.mem_cons.mp hy with rfl | hy
      · exact hx
      · exact h.ne_zero y (List.mem_append_right _ (List.mem_of_mem_tail hy))

/-- The last character is left behind. -/
theorem State.Holds.removeLast (h : s.Holds c typed left) :
    ∃ left', (ucisRemoveLast s).1.Holds c typed.dropLast left' := by
  unfold ucisRemoveLast
  rcases List.eq_nil_or_concat typed with rfl | ⟨front, x, rfl⟩
  · have hzero : ¬ s.count ≠ 0 := fun hne => hne h.count_eq
    rw [if_neg hzero]
    exact ⟨left, h⟩
  · rw [List.concat_eq_append] at h ⊢
    have hlen := h.count_eq
    rw [List.length_append, List.length_singleton] at hlen
    have hsplit : front ++ [x] ++ left = front ++ x :: left := List.append_cons _ _ _ |>.symm
    rw [if_pos (by omega), List.dropLast_concat]
    refine ⟨x :: left, ?_, ?_, ?_, ?_⟩
    · exact Nat.sub_eq_of_eq_add hlen
    · have hle := h.length_le
      rw [List.length_append, List.length_singleton] at hle
      rw [List.length_cons]
      omega
    · rw [← hsplit]
      exact h.input_eq
    · rw [← hsplit]
      exact h.ne_zero

variable (c)

/-- The name beside the keyboard is in its buffer. -/
def Tracked.Ok (t : Tracked) : Prop :=
  ∃ left, t.state.Holds c t.typed left

theorem ok_boot : Tracked.boot.Ok c := by
  refine ⟨[], rfl, Nat.zero_le _, fun i _ => rfl, fun x hx => ?_⟩
  exact absurd hx List.not_mem_nil

/-- Every key keeps the name in the buffer. -/
theorem ok_next {t : Tracked} (h : t.Ok c) (i : Input) : (next c t i).Ok c := by
  obtain ⟨left, hold⟩ := h
  cases i with
  | start => exact ⟨_, hold.restart true⟩
  | press keycode =>
    simp only [Tracked.Ok, next, step, typedNext, processUcis]
    by_cases hactive : t.state.active = true
    · rw [if_pos hactive, if_pos hactive]
      by_cases hchar : keycodeToChar keycode ≠ 0
      · -- no character key is one of the special keys
        have hspecial : ¬ (keycode = kcSpace ∨ keycode = kcEnter ∨ keycode = kcEscape ∨
            keycode = kcBackspace) := by
          rintro (rfl | rfl | rfl | rfl) <;> exact hchar rfl
        rw [if_pos hchar]
        by_cases hfull : t.state.count ≥ c.maxInputLength
        · rw [if_pos hfull, if_pos ⟨hfull, hspecial⟩]
          exact ⟨left, hold⟩
        · rw [if_neg hfull, if_neg fun hboth => hfull hboth.1]
          simp only [ucisAdd, if_pos hchar]
          exact ⟨_, hold.add (Nat.lt_of_not_le hfull) hchar⟩
      · rw [if_neg hchar]
        simp only [ucisAdd, if_neg hchar]
        by_cases hback : keycode = kcBackspace
        · rw [if_pos hback, if_neg fun hboth => hboth.2 (.inr (.inr (.inr hback))), if_pos hback]
          exact hold.removeLast
        · rw [if_neg hback, if_neg hback]
          by_cases hesc : keycode = kcEscape
          · rw [if_pos hesc, if_neg fun hboth => hboth.2 (.inr (.inr (.inl hesc))), if_pos hesc]
            exact ⟨_, hold.restart false⟩
          · rw [if_neg hesc, if_neg hesc]
            split_ifs
            · exact ⟨left, hold⟩
            · exact ⟨left, hold.count_eq, hold.length_le, hold.input_eq, hold.ne_zero⟩
            · exact ⟨left, hold⟩
    · rw [if_neg hactive, if_neg hactive]
      exact ⟨left, hold⟩

/-! ## The search -/

/-- Where the buffer shows a word, and a zero or its end behind it, a mnemonic is compared with
the word, unless it goes on behind the name for more than a character. -/
theorem matchFrom_eq {word : List UInt8} (hinput : ∀ i < c.maxInputLength,
    s.input i = word[i]?.getD 0) (hword : ∀ x ∈ word, x ≠ 0)
    (hlen : word.length ≤ c.maxInputLength) (mnemonic : CString) {k i : ℕ}
    (hk : i + k = c.maxInputLength) (hi : i ≤ word.length) (hcount : i ≤ s.count + 1)
    (hm : i ≤ mnemonic.bytes.length) :
    matchFrom s mnemonic k i =
      if s.count + 2 ≤ word.length then some false
      else if (word.drop i).isPrefixOf (mnemonic.bytes.drop i) then
        if word.length < c.maxInputLength then some true else none
      else some false := by
  induction k generalizing i with
  | zero =>
    have hend : word.drop i = [] := List.drop_eq_nil_of_le (by omega)
    rw [if_neg (by omega), hend, if_pos List.isPrefixOf_nil_left, if_neg (by omega)]
    rfl
  | succ k ih =>
    rw [matchFrom, hinput i (by omega)]
    rcases Nat.lt_or_eq_of_le hi with hlt | rfl
    · have hne : word[i] ≠ 0 := hword _ (List.getElem_mem hlt)
      rw [List.getElem?_eq_getElem hlt, Option.getD_some, if_neg hne]
      by_cases hpast : i > s.count
      · rw [if_pos hpast, if_pos (by omega)]
      · rw [if_neg hpast]
        rw [List.drop_eq_getElem_cons hlt]
        rcases Nat.lt_or_eq_of_le hm with hin | hat
        · have hread : mnemonic.str[i]? = some mnemonic.bytes[i] := by
            rw [CString.str, List.getElem?_append_left hin, List.getElem?_eq_getElem hin]
          rw [hread, List.drop_eq_getElem_cons hin]
          simp only [Option.bind_eq_bind, Option.bind_some, List.isPrefixOf_cons_cons,
            Bool.and_eq_true, beq_iff_eq]
          by_cases heq : word[i] = mnemonic.bytes[i]
          · rw [if_neg (not_not.mpr heq), ih (by omega) hlt (by omega) hin]
            simp only [heq, true_and]
          · simp only [heq, ne_eq, not_false_eq_true, if_true, false_and, if_false, ite_self]
        · have hread : mnemonic.str[i]? = some 0 := by
            rw [CString.str, List.getElem?_append_right (Nat.le_of_eq hat.symm), hat, Nat.sub_self]
            rfl
          have hend : mnemonic.bytes.drop i = [] := List.drop_eq_nil_of_le (Nat.le_of_eq hat.symm)
          rw [hread, hend]
          simp only [Option.bind_eq_bind, Option.bind_some, List.isPrefixOf_cons_nil,
            Bool.false_eq_true, if_false]
          rw [if_pos hne, ite_self]
    · rw [List.getElem?_eq_none (Nat.le_refl _), Option.getD_none, if_pos rfl, if_neg (by omega),
        List.drop_eq_nil_of_le (Nat.le_refl _), if_pos List.isPrefixOf_nil_left,
        if_pos (by omega)]

/-- All mnemonics can be compared: the first that matches is found. -/
theorem findFrom_eq (p : List UInt8 → Bool) {symbols : List Symbol}
    (h : ∀ symbol ∈ symbols, matchMnemonic c s symbol.mnemonic = some (p symbol.mnemonic.bytes))
    (i : ℕ) :
    findFrom c s i symbols =
      some ((symbols.findIdx? fun symbol => p symbol.mnemonic.bytes).map (· + i)) := by
  induction symbols generalizing i with
  | nil => rfl
  | cons symbol symbols ih =>
    rw [findFrom, h symbol List.mem_cons_self, List.findIdx?_cons]
    simp only [Option.bind_eq_bind, Option.bind_some]
    split_ifs with hmatch
    · rw [Option.map_some, Nat.zero_add]
    · rw [ih (fun sym hsym => h sym (List.mem_cons_of_mem _ hsym)), Option.map_map]
      congr 2
      funext j
      exact (Nat.add_right_comm j 1 i).symm ▸ (Nat.add_assoc j i 1).symm

/-- A match would be a read outside: then nothing matches, or there is no result. -/
theorem findFrom_eq_none_iff (p : List UInt8 → Bool) {symbols : List Symbol}
    (h : ∀ symbol ∈ symbols, matchMnemonic c s symbol.mnemonic =
      if p symbol.mnemonic.bytes then none else some false) (i : ℕ) :
    findFrom c s i symbols =
      if symbols.findIdx? (fun symbol => p symbol.mnemonic.bytes) = none then some none
      else none := by
  induction symbols generalizing i with
  | nil => rfl
  | cons symbol symbols ih =>
    rw [findFrom, h symbol List.mem_cons_self, List.findIdx?_cons]
    by_cases hmatch : p symbol.mnemonic.bytes = true
    · simp only [hmatch, if_true, Option.bind_eq_bind, Option.bind_none]
      rfl
    · simp only [hmatch, if_false, Option.bind_eq_bind, Option.bind_some, Bool.false_eq_true]
      rw [ih (fun sym hsym => h sym (List.mem_cons_of_mem _ hsym))]
      simp only [Option.map_eq_none_iff]

/-! ## The end key -/

theorem first_eq_none_iff (p : List UInt8 → Bool) :
    first c p = none ↔ ∀ symbol ∈ c.symbols, p symbol.mnemonic.bytes = false := by
  unfold first
  rw [List.findIdx?_eq_none_iff]

/-- A symbol found for two reasons has both. -/
theorem first_eq_first_iff {p q : List UInt8 → Bool} (hpq : ∀ name, p name → q name = false) :
    first c p = first c q ↔ first c q = none ∧ first c p = none := by
  refine ⟨fun h => ?_, fun h => h.2.trans h.1.symm⟩
  cases hp : first c p with
  | none => exact ⟨h.symm.trans hp, rfl⟩
  | some i =>
    have hq : first c q = some i := h.symm.trans hp
    obtain ⟨_, hpi, _⟩ := List.findIdx?_eq_some_iff_getElem.mp hp
    obtain ⟨_, hqi, _⟩ := List.findIdx?_eq_some_iff_getElem.mp hq
    have hnot := hpq _ hpi
    rw [hqi] at hnot
    exact absurd hnot.symm Bool.false_ne_true

/-- What is sent says which entry was found. -/
theorem right_iff_found {t : Tracked} (hcount : t.state.count = t.typed.length) :
    Right c t ↔ findFrom c t.state 0 c.symbols = some (first c (· == t.typed)) := by
  unfold Right ucisFinish
  rw [hcount]
  constructor
  · intro h
    obtain ⟨entry, hfound, heq⟩ := Option.map_eq_some_iff.mp h
    have hentry := congrArg Finished.entry heq
    have hself (e : Option ℕ) : (replaceBy c t.typed.length e).entry = e := by
      cases e with
      | none => rfl
      | some i => rfl
    rw [hself, hself] at hentry
    rw [hfound, hentry]
  · intro h
    rw [h]
    rfl

/-- The comparisons of a buffer with at most one character left behind the name. -/
theorem State.Holds.matchMnemonic_eq {s : State} {typed left : List UInt8}
    (h : s.Holds c typed left) (mnemonic : CString) :
    matchMnemonic c s mnemonic =
      if 2 ≤ left.length then some false
      else if (typed ++ left).isPrefixOf mnemonic.bytes then
        if (typed ++ left).length < c.maxInputLength then some true else none
      else some false := by
  have hlen : (typed ++ left).length ≤ c.maxInputLength := by
    rw [List.length_append]
    exact h.length_le
  have hmatch := matchFrom_eq c h.input_eq h.ne_zero hlen mnemonic (Nat.zero_add _)
    (Nat.zero_le _) (Nat.zero_le _) (Nat.zero_le _)
  have hlong : s.count + 2 ≤ (typed ++ left).length ↔ 2 ≤ left.length := by
    rw [h.count_eq, List.length_append]
    omega
  simp only [hlong, List.drop_zero] at hmatch
  exact hmatch

/-- With the buffer not full, a short rest behind the name counts as part of it. -/
theorem State.Holds.found_of_room {s : State} {typed left : List UInt8}
    (h : s.Holds c typed left) (hshort : left.length ≤ 1)
    (hroom : (typed ++ left).length < c.maxInputLength) :
    findFrom c s 0 c.symbols = some (first c (typed ++ left).isPrefixOf) := by
  have hmatch : ∀ symbol ∈ c.symbols, matchMnemonic c s symbol.mnemonic =
      some ((typed ++ left).isPrefixOf symbol.mnemonic.bytes) := by
    intro symbol _
    rw [h.matchMnemonic_eq, if_neg (by omega), if_pos hroom]
    split_ifs with hp
    · rw [hp]
    · rw [Bool.not_eq_true] at hp
      rw [hp]
  rw [findFrom_eq c _ hmatch]
  unfold first
  cases c.symbols.findIdx? fun symbol => (typed ++ left).isPrefixOf symbol.mnemonic.bytes <;> rfl

/-- With the buffer full, a match reads behind it. -/
theorem State.Holds.found_of_full {s : State} {typed left : List UInt8}
    (h : s.Holds c typed left) (hshort : left.length ≤ 1)
    (hfull : ¬ (typed ++ left).length < c.maxInputLength) :
    findFrom c s 0 c.symbols =
      if first c (typed ++ left).isPrefixOf = none then some none else none := by
  refine findFrom_eq_none_iff c _ (fun symbol _ => ?_) 0
  rw [h.matchMnemonic_eq, if_neg (by omega), if_neg hfull]

/-- With more characters left behind the name, nothing is found. -/
theorem State.Holds.found_of_long {s : State} {typed left : List UInt8}
    (h : s.Holds c typed left) (hlong : 2 ≤ left.length) :
    findFrom c s 0 c.symbols = some none := by
  have hmatch : ∀ symbol ∈ c.symbols, matchMnemonic c s symbol.mnemonic = some false := by
    intro symbol _
    rw [h.matchMnemonic_eq, if_pos hlong]
  have hnone : (c.symbols.findIdx? fun _ => false) = none :=
    List.findIdx?_eq_none_iff.mpr fun _ _ => rfl
  rw [findFrom_eq c (fun _ => false) hmatch, hnone]
  rfl

/-- A name is the beginning of itself, and not of what it begins. -/
theorem isPrefixOf_of_beq {typed name : List UInt8} (h : (name == typed) = true) :
    typed.isPrefixOf name = true := by
  rw [beq_iff_eq.mp h]
  exact List.isPrefixOf_iff_prefix.mpr (List.prefix_refl _)

theorem beq_eq_false_of_longer {typed name : List UInt8} {x : UInt8}
    (h : (typed ++ [x]).isPrefixOf name = true) : (name == typed) = false := by
  refine beq_eq_false_iff_ne.mpr fun heq => ?_
  have hlen := (List.isPrefixOf_iff_prefix.mp h).length_le
  rw [heq, List.length_append, List.length_singleton] at hlen
  omega

/-- The condition is exact in every state in which the buffer holds the name. -/
theorem right_iff_of_ok {t : Tracked} (h : t.Ok c) : Right c t ↔ Meets c t.state := by
  obtain ⟨left, hold⟩ := h
  rw [right_iff_found c hold.count_eq]
  unfold Meets
  rw [hold.left_eq, hold.typed_eq, hold.count_eq]
  cases left with
  | nil =>
    have hlen : (t.typed ++ ([] : List UInt8)).length = t.typed.length := by
      rw [List.append_nil]
    by_cases hroom : t.typed.length < c.maxInputLength
    · rw [hold.found_of_room c (Nat.zero_le 1) (hlen ▸ hroom), List.append_nil, if_pos hroom]
      exact Option.some_inj
    · rw [hold.found_of_full c (Nat.zero_le 1) (hlen ▸ hroom), List.append_nil, if_neg hroom]
      refine ⟨fun hfound => ?_, fun hnone => ?_⟩
      · by_contra hsome
        rw [if_neg hsome] at hfound
        exact absurd hfound (Option.some_ne_none _).symm
      · rw [if_pos hnone]
        have hnot := (first_eq_none_iff c _).mp hnone
        refine congrArg some ((first_eq_none_iff c _).mpr fun symbol hmem => ?_).symm
        rw [← Bool.not_eq_true]
        intro heq
        have hyes := isPrefixOf_of_beq heq
        rw [hnot symbol hmem] at hyes
        exact absurd hyes Bool.false_ne_true
  | cons x left =>
    cases left with
    | nil =>
      have hdisjoint := first_eq_first_iff c (p := (t.typed ++ [x]).isPrefixOf)
        (q := (· == t.typed)) fun name => beq_eq_false_of_longer
      by_cases hroom : (t.typed ++ [x]).length < c.maxInputLength
      · rw [hold.found_of_room c (Nat.le_refl 1) hroom, Option.some_inj, hdisjoint]
        exact and_congr_right fun _ => ⟨fun hnone _ => hnone, fun hnone => hnone rfl⟩
      · rw [hold.found_of_full c (Nat.le_refl 1) hroom]
        refine ⟨fun hfound => ?_, fun ⟨hnone, hlonger⟩ => ?_⟩
        · by_cases hlonger : first c (t.typed ++ [x]).isPrefixOf = none
          · rw [if_pos hlonger] at hfound
            exact ⟨(Option.some_inj.mp hfound).symm, fun _ => hlonger⟩
          · rw [if_neg hlonger] at hfound
            exact absurd hfound (Option.some_ne_none _).symm
        · rw [if_pos (hlonger rfl), hnone]
    | cons y left =>
      rw [hold.found_of_long c (by simp only [List.length_cons]; omega), Option.some_inj]
      exact ⟨fun hnone => ⟨hnone.symm, fun hnil => absurd hnil (List.cons_ne_nil _ _)⟩,
        fun h => h.1.symm⟩

/-- After any sessions and any keys: the end key replaces the name by the first symbol of that
name, and reads the buffer and the names only, exactly if the condition holds. -/
theorem right_iff (is : List Input) :
    Right c (run (next c) .boot is) ↔ Meets c (run (next c) .boot is).state :=
  right_iff_of_ok c (run_invariant (Tracked.Ok c) (fun _ i h _ => ok_next c h i) (ok_boot c)
    (along_trivial _ is))

/-- A shorter name after a longer one, and a name that another one starts with. -/
theorem not_right :
    let smile : Symbol := ⟨⟨[97, 98], by decide⟩, [0x263A]⟩
    let heart : Symbol := ⟨⟨[97], by decide⟩, [0x2665]⟩
    let c : Config := ⟨32, 3, [smile, heart], by decide, by decide⟩
    let press (keys : List ℕ) : List Input := .start :: keys.map .press
    ¬ Right c (run (next c) .boot (press [kcA, kcSpace])) ∧
      ¬ Right c (run (next c) .boot (press [0x05, 0x05, kcEscape] ++ press [kcA, kcSpace])) := by
  decide +kernel

end Ucis
end VialQmk
